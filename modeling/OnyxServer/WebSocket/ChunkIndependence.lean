import OnyxServer.WebSocket.Deframer

/-!
# The deframer does not depend on how a stream is cut

`Represents` says what part of the stream a deframer still stands for, whether its next event
is parked or not. Feeding extends that part and popping takes a frame off its front, exactly
as decoding the whole stream does.
-/
namespace OnyxServer.WebSocket

open Lib List

variable {maxFrame : Nat} {deframer fed after popped : Deframer} {state : Fragmentation}
    {bytes chunk more rest : Bytes}
  {events : List DeframeEvent}

def decodeClient (maxFrame : Nat) (bytes : Bytes) : Except FrameError DecodeResult :=
  decodeFrame maxFrame .clientToServer bytes maxFrame

theorem decodeClient_settled (maxFrame : Nat) : Settled .truncated (decodeClient maxFrame) :=
  decodeFrame_settled maxFrame .clientToServer maxFrame

theorem decodeClient_ok {result : DecodeResult} (h : decodeClient maxFrame bytes = .ok result) :
    Consumes maxFrame .clientToServer bytes result := decodeFrame_ok h

theorem decodeClient_append_ok {result : DecodeResult}
    (h : decodeClient maxFrame bytes = .ok result) (more : Bytes) :
    decodeClient maxFrame (bytes ++ more) = .ok result :=
  (decodeClient_settled maxFrame bytes more (by rw [h]; simp)).trans h

theorem decodeClient_append_error {e : FrameError} (h : decodeClient maxFrame bytes = .error e)
    (he : e ≠ .truncated) (more : Bytes) : decodeClient maxFrame (bytes ++ more) = .error e :=
  (decodeClient_settled maxFrame bytes more (by rw [h]; simpa using he)).trans h

/-- The events that decoding gives, and the state and the bytes it comes to. -/
inductive Steps (maxFrame : Nat) :
    Fragmentation → Bytes → List DeframeEvent → Fragmentation → Bytes → Prop
  | refl (state : Fragmentation) (bytes : Bytes) : Steps maxFrame state bytes [] state bytes
  | step {state next last : Fragmentation} {bytes rest : Bytes} {result : DecodeResult}
      {event : DeframeEvent}
      {events : List DeframeEvent} (hdecode : decodeClient maxFrame bytes = .ok result)
      (haccept : state.accept result.frame = .ok (event, next))
      (hrest : Steps maxFrame next (bytes.drop result.consumed) events last rest) :
      Steps maxFrame state bytes (event :: events) last rest

/-- Why decoding stops in front of the bytes: it waits, or it fails. -/
inductive Ends (maxFrame : Nat) : Fragmentation → Bytes → Option DeframeError → Prop
  | waits {state : Fragmentation} {bytes : Bytes} (h : decodeClient maxFrame bytes =
      .error .truncated) :
      Ends maxFrame state bytes none
  | malformed {state : Fragmentation} {bytes : Bytes} {e : FrameError}
      (h : decodeClient maxFrame bytes = .error e)
      (he : e ≠ .truncated) : Ends maxFrame state bytes (some (.frame e))
  | refused {state : Fragmentation} {bytes : Bytes} {result : DecodeResult} {e : DeframeError}
      (h : decodeClient maxFrame bytes = .ok result) (haccept : state.accept result.frame =
        .error e) :
      Ends maxFrame state bytes (some e)

variable {next last : Fragmentation}

theorem Steps.trans {later : List DeframeEvent} {middle : Bytes}
    (h : Steps maxFrame state bytes events next middle)
    (hrest : Steps maxFrame next middle later last rest) :
    Steps maxFrame state bytes (events ++ later) last rest := by
  induction h with
  | refl => exact hrest
  | step hdecode haccept _ ih => exact .step hdecode haccept (ih hrest)

theorem Steps.append (h : Steps maxFrame state bytes events next rest) (more : Bytes) :
    Steps maxFrame state (bytes ++ more) events next (rest ++ more) := by
  induction h with
  | refl => exact .refl _ _
  | step hdecode haccept _ ih =>
    refine .step (decodeClient_append_ok hdecode more) haccept ?_
    rwa [drop_append_of_le_length (decodeClient_ok hdecode).within]

/-- More input does not undo a failure. -/
theorem Ends.append {e : DeframeError} (h : Ends maxFrame state bytes (some e)) (more : Bytes) :
    Ends maxFrame state (bytes ++ more) (some e) := by
  cases h with
  | malformed h he => exact .malformed (decodeClient_append_error h he more) he
  | refused h haccept => exact .refused (decodeClient_append_ok h more) haccept

variable {error : Option DeframeError}

/-- The function computes what the relations describe. -/
theorem decodeStream_eq (h : Steps maxFrame state bytes events last rest)
    (hend : Ends maxFrame last rest error) {rounds : Nat} (hrounds : bytes.length ≤ rounds) :
    decodeStream maxFrame rounds state bytes = (events, error) := by
  induction h generalizing rounds with
  | refl state bytes =>
    cases rounds with
    | zero =>
      obtain rfl := eq_nil_of_length_eq_zero (Nat.le_zero.mp hrounds)
      cases hend with
      | waits h => rfl
      | malformed h he => exact absurd (Except.error.inj h).symm he
      | refused h haccept => cases h
    | succ rounds =>
      rw [decodeStream]
      cases hend with
      | waits h =>
          rw [show decodeFrame maxFrame .clientToServer bytes maxFrame = .error .truncated from h]
      | malformed h he =>
        rename_i e
        rw [show decodeFrame maxFrame .clientToServer bytes maxFrame = .error e from h]
        cases e <;> first | rfl | exact absurd rfl he
      | refused h haccept =>
        rw [show decodeFrame maxFrame .clientToServer bytes maxFrame = .ok _ from h]
        simp only [haccept]
  | @step state next last bytes rest result event events hdecode haccept hrest ih =>
    have hconsumes := decodeClient_ok hdecode
    have hpositive := hconsumes.positive
    have hwithin := hconsumes.within
    cases rounds with
    | zero => omega
    | succ rounds =>
      have hshorter : (bytes.drop result.consumed).length ≤ rounds := by
        rw [length_drop]
        omega
      rw [decodeStream, show decodeFrame maxFrame .clientToServer bytes maxFrame =
        .ok result from hdecode]
      simp only [haccept, ih hend hshorter]

/-- The sizes of the two buffers. -/
structure Sized (deframer : Deframer) : Prop where
  payload_eq : deframer.payloadBuf.length = deframer.maxFrame

/-- Nothing is parked: the buffer is the rest of the stream. -/
structure Clean (deframer : Deframer) (state : Fragmentation) (bytes : Bytes) : Prop where
  pending_eq : deframer.pending = none
  error_eq : deframer.pendingError = none
  state_eq : state = ⟨deframer.fragmented, deframer.msgBinary⟩
  buf_eq : deframer.buf = bytes

/-- The deframer stands for the bytes in the given state of the message. -/
inductive Represents (deframer : Deframer) (state : Fragmentation) (bytes : Bytes) : Prop
  | clean (h : Clean deframer state bytes)
  | parked {pending : PendingEvent} {result : DecodeResult} (hpending : deframer.pending =
      some pending)
      (herror : deframer.pendingError = none) (hdecode : decodeClient deframer.maxFrame bytes =
        .ok result)
      (haccept : state.accept result.frame =
        .ok (deframer.eventFromPending pending, ⟨deframer.fragmented, deframer.msgBinary⟩))
      (hbuf : deframer.buf = bytes.drop result.consumed)
  | failed {e : DeframeError} (herror : deframer.pendingError = some e)
      (hends : Ends deframer.maxFrame state bytes (some e))

theorem decode_eq (hsized : Sized deframer) :
    deframer.decode = decodeClient deframer.maxFrame deframer.buf := by
  rw [Deframer.decode, decodeClient, hsized.payload_eq]

theorem unmasked_payload (deframer : Deframer) (frame : Frame) :
    slice (deframer.unmasked frame).payloadBuf 0 frame.payload.length = frame.payload :=
  slice_splice_front deframer.payloadBuf frame.payload

theorem unmasked_sized {frame : Frame} (hsized : Sized deframer)
    (hlen : frame.payload.length ≤ deframer.maxFrame) :
    Sized (deframer.unmasked frame) := by
  refine ⟨?_⟩
  have hsize := hsized.payload_eq
  simp only [Deframer.unmasked]
  rw [length_splice (by omega), hsize]

/-- The direct path keeps to the fragmentation rules. -/
theorem eventFromFrame_eq (deframer : Deframer) (frame : Frame) :
    deframer.eventFromFrame frame =
      match Fragmentation.accept ⟨deframer.fragmented, deframer.msgBinary⟩ frame with
      | .error e => (.error e, deframer)
      | .ok (event, next) =>
        (.ok event,
          { deframer with fragmented := next.fragmented, msgBinary := next.msgBinary }) := by
  rcases frame with ⟨fin, opcode, masked, payload⟩
  rcases deframer with ⟨maxFrame, buf, payloadBuf, pending, pendingError, fragmented, msgBinary⟩
  cases opcode <;> cases fragmented <;> cases fin <;> rfl

/-- The second copy of the state machine keeps to the same rules: what it parks reads back as
the event of the direct path. -/
theorem queuePending_spec (deframer : Deframer) (frame : Frame)
    (hpayload : slice deframer.payloadBuf 0 frame.payload.length = frame.payload) :
    match Fragmentation.accept ⟨deframer.fragmented, deframer.msgBinary⟩ frame with
    | .error e => deframer.queuePending frame = .error e
    | .ok (event, next) => ∃ pending, deframer.queuePending frame =
        .ok { deframer with
          fragmented := next.fragmented, msgBinary := next.msgBinary, pending := some pending } ∧
        Deframer.eventFromPending
          { deframer with fragmented := next.fragmented, msgBinary :=
            next.msgBinary, pending := some pending }
          pending = event := by
  rcases frame with ⟨fin, opcode, masked, payload⟩
  rcases deframer with ⟨maxFrame, buf, payloadBuf, pending, pendingError, fragmented, msgBinary⟩
  simp only at hpayload
  cases opcode <;> cases fragmented <;> cases fin <;>
    first
    | rfl
    | exact ⟨_, rfl, by simp [Deframer.eventFromPending, hpayload]⟩

/-- More input extends what the deframer stands for. -/
theorem Represents.extend (h : Represents deframer state bytes) (more : Bytes) :
    Represents { deframer with buf := deframer.buf ++ more } state (bytes ++ more) := by
  cases h with
  | clean h => exact .clean ⟨h.pending_eq, h.error_eq, h.state_eq, by rw [← h.buf_eq]⟩
  | parked hpending herror hdecode haccept hbuf =>
    refine .parked hpending herror (decodeClient_append_ok hdecode more) haccept ?_
    rw [drop_append_of_le_length (decodeClient_ok hdecode).within, ← hbuf]
  | failed herror hends => exact .failed herror (hends.append more)

/-- After a failure the rest of the input may be dropped. -/
theorem Represents.dropped (h : Represents deframer state bytes)
    (herror : deframer.pendingError ≠ none)
    (more : Bytes) : Represents deframer state (bytes ++ more) := by
  cases h with
  | clean h => exact absurd h.error_eq herror
  | parked _ hnone _ _ _ => exact absurd hnone herror
  | failed herror hends => exact .failed herror (hends.append more)

theorem Represents.clean_of_idle (h : Represents deframer state bytes)
    (hpending : deframer.pending = none)
    (herror : deframer.pendingError = none) : Clean deframer state bytes := by
  cases h with
  | clean h => exact h
  | parked hsome _ _ _ _ => rw [hpending] at hsome; cases hsome
  | failed hsome _ => rw [herror] at hsome; cases hsome

structure Fed (deframer fed : Deframer) (state : Fragmentation) (bytes : Bytes) : Prop where
  represents : Represents fed state bytes
  sized : Sized fed
  max_eq : fed.maxFrame = deframer.maxFrame

/-- Draining a full buffer parks the first event or the first error of what it stands for. -/
theorem drainBufferedFrame_spec {drained : Deframer} (hsized : Sized deframer)
    (h : Represents deframer state bytes) (hdrain : deframer.drainBufferedFrame = (true, drained)) :
    Fed deframer drained state bytes ∧ (drained.pending ≠ none ∨ drained.pendingError ≠ none) := by
  unfold Deframer.drainBufferedFrame at hdrain
  split at hdrain
  · simp at hdrain
  rename_i hidle
  push Not at hidle
  have hclean := h.clean_of_idle hidle.1 hidle.2
  rw [decode_eq hsized, hclean.buf_eq] at hdrain
  split at hdrain
  · simp at hdrain
  · next e he hdecode =>
    cases hdrain
    exact ⟨⟨.failed rfl (.malformed hdecode he), ⟨hsized.payload_eq⟩, rfl⟩,
      .inr (by simp [Deframer.parkError])⟩
  · next result hdecode =>
    have hlen := (decodeClient_ok hdecode).payload_le
    have hunmasked := unmasked_sized hsized hlen
    have hqueue := queuePending_spec (deframer.unmasked
      result.frame) result.frame (unmasked_payload deframer result.frame)
    have hstate : state =
        ⟨(deframer.unmasked result.frame).fragmented, (deframer.unmasked result.frame).msgBinary⟩ :=
      hclean.state_eq
    rw [← hstate] at hqueue
    cases haccept : state.accept result.frame with
    | error e =>
      rw [haccept] at hqueue
      simp only [hqueue] at hdrain
      cases hdrain
      exact ⟨⟨.failed rfl (.refused hdecode haccept), ⟨hunmasked.payload_eq⟩, rfl⟩,
        .inr (by simp [Deframer.parkError])⟩
    | ok answer =>
      rw [haccept] at hqueue
      obtain ⟨pending, hparked, hevent⟩ := hqueue
      simp only [hparked] at hdrain
      cases hdrain
      refine ⟨⟨.parked rfl hidle.2 hdecode ?_ ?_, ⟨hunmasked.payload_eq⟩, rfl⟩,
        .inl (by simp [Deframer.consume])⟩
      · rw [haccept]
        exact congrArg Except.ok (Prod.ext hevent.symm rfl)
      · simp only [Deframer.consume, Deframer.unmasked, hclean.buf_eq]

theorem feedLoop_spec {rounds : Nat} (hsized : Sized deframer) (h : Represents deframer state bytes)
    (hfeed : Deframer.feedLoop rounds deframer chunk = (.ok (), fed)) :
    Fed deframer fed state (bytes ++ chunk) := by
  induction rounds generalizing deframer bytes chunk with
  | zero => simp [Deframer.feedLoop] at hfeed
  | succ rounds ih =>
    simp only [Deframer.feedLoop] at hfeed
    split at hfeed
    · next hempty =>
      cases hfeed
      rw [eq_nil_of_length_eq_zero hempty, append_nil]
      exact ⟨h, hsized, rfl⟩
    split at hfeed
    · cases hfeed
      exact ⟨h.extend chunk, ⟨hsized.payload_eq⟩, rfl⟩
    have hfull := h.extend (chunk.take (deframer.capacity - deframer.buf.length))
    split at hfeed
    · simp at hfeed
    rename_i drained hdrain
    have hgrown : Sized { deframer with
        buf := deframer.buf ++ chunk.take (deframer.capacity - deframer.buf.length) } :=
          ⟨hsized.payload_eq⟩
    obtain ⟨hdrained, -⟩ := drainBufferedFrame_spec hgrown hfull hdrain
    have hwhole : bytes ++ chunk = bytes ++ chunk.take (deframer.capacity - deframer.buf.length) ++
        chunk.drop (deframer.capacity - deframer.buf.length) := by
      rw [append_assoc, take_append_drop]
    rw [hwhole]
    split at hfeed
    · next herror =>
      cases hfeed
      exact ⟨hdrained.represents.dropped herror _, hdrained.sized, hdrained.max_eq⟩
    · have hrest := ih hdrained.sized hdrained.represents hfeed
      exact ⟨hrest.represents, hrest.sized, hrest.max_eq.trans hdrained.max_eq⟩

/-- A third round of the loop is never needed. -/
theorem feedLoop_rounds (rounds : Nat) (deframer : Deframer) (chunk : Bytes) :
    Deframer.feedLoop (rounds + 2) deframer chunk = deframer.feed chunk := by
  have hbusy (n : Nat) (busy : Deframer) (rest : Bytes) (h : busy.pending ≠ none ∨
      busy.pendingError ≠ none) :
      Deframer.feedLoop (n + 1) busy rest = Deframer.feedLoop 1 busy rest := by
    simp only [Deframer.feedLoop, Deframer.drainBufferedFrame, if_pos h]
  have hdrains {full drained : Deframer} (h : full.drainBufferedFrame = (true, drained)) :
      drained.pending ≠ none ∨ drained.pendingError ≠ none := by
    unfold Deframer.drainBufferedFrame at h
    split at h
    · simp at h
    split at h
    · simp at h
    · cases h
      exact .inr (by simp [Deframer.parkError])
    · next result hdecode =>
      split at h
      · cases h
        exact .inr (by simp [Deframer.parkError])
      rename_i parked hparked
      cases h
      refine .inl ?_
      unfold Deframer.queuePending at hparked
      split at hparked
      all_goals first
        | (split at hparked
           · cases hparked
           · rw [← Except.ok.inj hparked]; simp [Deframer.consume])
        | (rw [← Except.ok.inj hparked]; simp [Deframer.consume])
  rw [Deframer.feed, Deframer.feedLoop, Deframer.feedLoop]
  split
  · rfl
  simp only
  split
  · rfl
  split
  · rfl
  · next drained hdrain =>
    rw [hbusy rounds drained _ (hdrains hdrain)]

/-- What one call of `next` makes of the part of the stream that the deframer stands for. -/
inductive Popped (deframer : Deframer) (state : Fragmentation) (bytes : Bytes) :
    Except DeframeError (Option DeframeEvent) × Deframer → Prop
  | null (hclean : Clean deframer state bytes) (hends : Ends deframer.maxFrame state bytes none) :
      Popped deframer state bytes (.ok none, deframer)
  | event {after : Deframer} {next : Fragmentation} {result : DecodeResult} {event : DeframeEvent}
      (hdecode : decodeClient deframer.maxFrame bytes = .ok result)
      (haccept : state.accept result.frame = .ok (event, next))
      (hclean : Clean after next (bytes.drop result.consumed)) (hsized : Sized after)
      (hmax : after.maxFrame = deframer.maxFrame) : Popped deframer state bytes
        (.ok (some event), after)
  | error {after : Deframer} {e : DeframeError}
      (hends : Ends deframer.maxFrame state bytes (some e)) :
      Popped deframer state bytes (.error e, after)

theorem next_spec (hsized : Sized deframer) (h : Represents deframer state bytes) :
    Popped deframer state bytes deframer.next := by
  cases h with
  | failed herror hends =>
    simp only [Deframer.next, herror]
    exact .error hends
  | parked hpending herror hdecode haccept hbuf =>
    simp only [Deframer.next, herror, hpending]
    exact .event hdecode haccept ⟨rfl, rfl, rfl, hbuf⟩ ⟨hsized.payload_eq⟩ rfl
  | clean hclean =>
    have hdecode := decode_eq hsized
    simp only [Deframer.next, hclean.error_eq, hclean.pending_eq, hdecode, hclean.buf_eq]
    split
    · next hempty =>
      refine .null hclean (.waits ?_)
      rw [eq_nil_of_length_eq_zero hempty]
      rfl
    split
    · next hwaits => exact .null hclean (.waits hwaits)
    · next e he herror => exact .error (.malformed herror he)
    · next result hok =>
      have hlen := (decodeClient_ok hok).payload_le
      have hstate : (⟨((deframer.unmasked result.frame).consume result.consumed).fragmented,
          ((deframer.unmasked result.frame).consume result.consumed).msgBinary⟩ : Fragmentation) =
            state :=
        hclean.state_eq.symm
      rw [eventFromFrame_eq, hstate]
      cases haccept : state.accept result.frame with
      | error e => exact .error (.refused hok haccept)
      | ok answer =>
        refine .event hok haccept ⟨hclean.pending_eq, hclean.error_eq, rfl, ?_⟩ ?_ rfl
        · simp only [Deframer.consume, Deframer.unmasked, hclean.buf_eq]
        · exact ⟨(unmasked_sized hsized hlen).payload_eq⟩

/-- What popping until null or an error makes of it. -/
structure Drains (deframer : Deframer) (state : Fragmentation) (bytes : Bytes)
    (events : List DeframeEvent) (error : Option DeframeError) (popped : Deframer) : Prop where
  steps : ∃ next rest, Steps deframer.maxFrame state bytes events next rest ∧
    Ends deframer.maxFrame next rest error ∧ (error = none → Clean popped next rest)
  sized : error = none → Sized popped
  max_eq : error = none → popped.maxFrame = deframer.maxFrame

theorem pops_spec (hpops : Pops deframer events error popped) (hsized : Sized deframer)
    (h : Represents deframer state bytes) : Drains deframer state bytes events error popped := by
  induction hpops generalizing state bytes with
  | null hnext =>
    have hspec := next_spec hsized h
    rw [hnext] at hspec
    cases hspec with
    | null hclean hends =>
        exact ⟨⟨_, _, .refl _ _, hends, fun _ => hclean⟩, fun _ => hsized, fun _ => rfl⟩
  | error hnext =>
    have hspec := next_spec hsized h
    rw [hnext] at hspec
    cases hspec with
    | error hends => exact ⟨⟨_, _, .refl _ _, hends, by simp⟩, by simp, by simp⟩
  | event hnext _ ih =>
    have hspec := next_spec hsized h
    rw [hnext] at hspec
    cases hspec with
    | event hdecode haccept hclean hafter hmax =>
      obtain ⟨⟨next, rest, hsteps, hends, hlast⟩, hlater, hmaxes⟩ := ih hafter (.clean hclean)
      rw [hmax] at hsteps hends
      exact ⟨⟨next, rest, .step hdecode haccept hsteps, hends, hlast⟩, hlater,
        fun hnone => (hmaxes hnone).trans hmax⟩

/-- Popping comes to an end: every event takes octets off the buffer. -/
theorem pops_total (hsized : Sized deframer) (h : Represents deframer state bytes) :
    ∃ events error popped, Pops deframer events error popped := by
  induction hlen : bytes.length using Nat.strong_induction_on generalizing deframer state bytes with
  | _ n ih =>
    have hspec := next_spec hsized h
    rcases hnext : deframer.next with ⟨answer, after⟩
    rw [hnext] at hspec
    cases hspec with
    | null => exact ⟨[], none, _, .null hnext⟩
    | error => exact ⟨[], some _, _, .error hnext⟩
    | event hdecode haccept hclean hafter hmax =>
      have hpositive := (decodeClient_ok hdecode).positive
      have hwithin := (decodeClient_ok hdecode).within
      obtain ⟨events, error, popped, hpops⟩ :=
        ih _ (by rw [← hlen, length_drop]; omega) hafter (.clean hclean) rfl
      exact ⟨_, _, _, .event hnext hpops⟩

theorem served_spec {chunks : List Bytes} (hserved : Served deframer chunks events error)
    (hsized : Sized deframer) (hclean : Clean deframer state bytes)
    (hwaits : Ends deframer.maxFrame state bytes none) :
    ∃ next rest, Steps deframer.maxFrame state (bytes ++ chunks.flatten) events next rest ∧
      Ends deframer.maxFrame next rest error := by
  induction hserved generalizing state bytes with
  | done deframer =>
    rw [flatten_nil, append_nil]
    exact ⟨state, bytes, .refl _ _, hwaits⟩
  | failed hfeed hpops =>
    have hfed := feedLoop_spec hsized (.clean hclean) hfeed
    obtain ⟨next, rest, hsteps, hends, -⟩ := (pops_spec hpops hfed.sized hfed.represents).steps
    rw [hfed.max_eq] at hsteps hends
    rw [flatten_cons, ← append_assoc]
    exact ⟨next, _, hsteps.append _, hends.append _⟩
  | chunk hfeed hpops _ ih =>
    have hfed := feedLoop_spec hsized (.clean hclean) hfeed
    have hdrains := pops_spec hpops hfed.sized hfed.represents
    obtain ⟨next, rest, hsteps, hends, hpopped⟩ := hdrains.steps
    have hmax := (hdrains.max_eq rfl).trans hfed.max_eq
    rw [hfed.max_eq] at hsteps hends
    obtain ⟨last, final, hmore, hlast⟩ :=
      ih (hdrains.sized rfl) (hpopped rfl) (by rw [hmax]; exact hends)
    rw [hmax] at hmore hlast
    rw [flatten_cons, ← append_assoc]
    exact ⟨last, final, (hsteps.append _).trans hmore, hlast⟩

/-- One octet always fits behind a buffer that waits. -/
theorem feed_octet (hclean : Clean deframer state bytes)
    (hwaits : Ends deframer.maxFrame state bytes none)
    (byte : UInt8) :
    deframer.feed [byte] = (.ok (), { deframer with buf := deframer.buf ++ [byte] }) := by
  cases hwaits with
  | waits h =>
    have hroom := decodeFrame_waits h
    rw [← hclean.buf_eq] at hroom
    have hfits : [byte].length ≤ deframer.capacity - deframer.buf.length := by
      simp only [Deframer.capacity, length_singleton]
      omega
    rw [Deframer.feed, Deframer.feedLoop, if_neg (by simp), if_pos hfits]

theorem served_octets (stream : Bytes) (hsized : Sized deframer)
    (hclean : Clean deframer state bytes) (hwaits : Ends deframer.maxFrame state bytes none) :
    ∃ events error, Served deframer (stream.map fun byte => [byte]) events error := by
  induction stream generalizing deframer state bytes with
  | nil => exact ⟨[], none, .done deframer⟩
  | cons byte stream ih =>
    have hfeed := feed_octet hclean hwaits byte
    have hfed := feedLoop_spec hsized (.clean hclean) hfeed
    obtain ⟨events, error, popped, hpops⟩ := pops_total hfed.sized hfed.represents
    cases error with
    | some e => exact ⟨events, some e, .failed hfeed hpops⟩
    | none =>
      have hdrains := pops_spec hpops hfed.sized hfed.represents
      obtain ⟨next, rest, -, hends, hpopped⟩ := hdrains.steps
      have hmax := hdrains.max_eq rfl
      obtain ⟨later, error, hlater⟩ :=
        ih (hdrains.sized rfl) (hpopped rfl) (by rw [hmax]; exact hends)
      exact ⟨events ++ later, error, .chunk hfeed hpops hlater⟩

theorem init_clean (maxFrame : Nat) (payloadBuf : FixedBytes maxFrame) :
    Clean (Deframer.init maxFrame payloadBuf) ⟨false, false⟩ [] := ⟨rfl, rfl, rfl, rfl⟩

theorem init_waits (maxFrame : Nat) : Ends maxFrame ⟨false, false⟩ [] none := .waits rfl

/-- However a stream is cut, the deframer gives what decoding the whole stream gives. -/
theorem served_outcome {payloadBuf : FixedBytes maxFrame} {chunks : List Bytes}
    (h : Served (Deframer.init maxFrame payloadBuf) chunks events error) :
    streamOutcome maxFrame chunks.flatten = (events, error) := by
  obtain ⟨next, rest, hsteps, hends⟩ :=
    served_spec h ⟨payloadBuf.property⟩ (init_clean maxFrame payloadBuf)
    (init_waits maxFrame)
  exact decodeStream_eq hsteps hends (Nat.le_refl _)

/-- The deframer does not depend on how a client's stream is cut: every cut that it accepts
gives the events and the first error of decoding the whole stream, feeding octet by octet is
always accepted, and what was encoded is decoded again whatever follows it. -/
theorem websocket_chunk_independent (maxFrame : Nat) :
    (∀ payloadBuf chunks events error,
      Served (Deframer.init maxFrame payloadBuf) chunks events error →
      streamOutcome maxFrame chunks.flatten = (events, error) ∧
        Served (Deframer.init maxFrame payloadBuf)
        (chunks.flatten.map fun byte => [byte]) events error) ∧
    (∀ payloadBuf stream, Served (Deframer.init maxFrame payloadBuf) (stream.map fun byte => [byte])
      (streamOutcome maxFrame stream).1 (streamOutcome maxFrame stream).2) ∧
    ∀ options payload outLen bytes more payloadOut,
      encodeFrame maxFrame options payload outLen = .ok bytes →
      (options.maskKey.isSome = true → payload.val.length ≤ payloadOut) →
      decodeFrame maxFrame options.direction (bytes ++ more) payloadOut =
        .ok ⟨⟨options.fin, options.opcode, options.maskKey.isSome, payload.val⟩, bytes.length⟩ := by
  have hoctets (payloadBuf : FixedBytes maxFrame) (stream : Bytes) :
      Served (Deframer.init maxFrame payloadBuf) (stream.map fun byte => [byte])
        (streamOutcome maxFrame stream).1 (streamOutcome maxFrame stream).2 := by
    obtain ⟨events, error, h⟩ :=
      served_octets stream ⟨payloadBuf.property⟩ (init_clean maxFrame payloadBuf)
      (init_waits maxFrame)
    have hsame := served_outcome h
    have hflat : (stream.map fun byte => [byte]).flatten = stream := by
      rw [← flatMap_def, flatMap_singleton']
    rw [hflat] at hsame
    rwa [hsame]
  refine ⟨fun payloadBuf chunks events error h => ?_, hoctets, ?_⟩
  · have houtcome := served_outcome h
    refine ⟨houtcome, ?_⟩
    have hsingle := hoctets payloadBuf chunks.flatten
    rwa [houtcome] at hsingle
  · intro options payload outLen bytes more payloadOut hencode hroom
    obtain ⟨rfl, hencodable⟩ := encodeFrame_ok hencode
    exact decodeFrame_frameBytes payload.property hencodable hroom

/-- `Hi` under the key 1, 2, 3, 4. -/
def hiFrame : Bytes := [0x81, 0x82, 1, 2, 3, 4, 73, 107]

/-- A continuation that continues nothing. -/
def strayFrame : Bytes := [0x80, 0x80, 0, 0, 0, 0]

theorem websocket_chunk_independent_hi :
    streamOutcome 4 (hiFrame ++ strayFrame) =
      ([.data [72, 105] true false false], some .unexpectedContinuation) ∧
    decodeFrame 4 .clientToServer (hiFrame ++ strayFrame) 2 =
      .ok ⟨⟨true, .text, true, [72, 105]⟩, 8⟩ := by
  obtain ⟨hcut, -, hcodec⟩ := websocket_chunk_independent 4
  constructor
  · -- The first frame is cut inside its key, the second comes with the end of the first.
    refine (hcut (.splat 4 0) [hiFrame.take 3, hiFrame.drop 3 ++ strayFrame] _ _ ?_).1
    exact .chunk rfl (.null rfl) (.failed rfl (.event rfl (.error rfl)))
  · exact hcodec ⟨true, .text, some ⟨[1, 2, 3, 4], rfl⟩⟩
      ⟨[72, 105], by decide⟩ 8 hiFrame strayFrame 2
      rfl fun _ => by decide

end OnyxServer.WebSocket
