import OnyxServer.SendQ.Runs

/-!
# The send queue is a bounded FIFO

`Tracks` relates the queue to the log of the run that led to it. Every call keeps it, and
while a send is armed no call touches the bytes below `send_len`.
-/
namespace OnyxServer.SendQ

open Lib

variable {log : List Answer} {owner : Owner} {conn conn' : Connection} {bytes : Bytes}

structure Tracks (log : List Answer) (owner : Owner) : Prop where
  fits : Fits owner.conn
  fifo : handedToKernel log ++ owner.conn.wire = committedWire log
  tail : owner.conn.tlsDeferredPlain = (pendingChunks log).flatMap chunkBytes
  storable : ∀ chunk ∈ pendingChunks log, Storable chunk

@[simp] theorem committedWire_append (answer : Answer) :
    committedWire (log ++ [answer]) = committedWire log ++ answer.wireBytes := by
  simp [committedWire]

@[simp] theorem handedToKernel_append (answer : Answer) :
    handedToKernel (log ++ [answer]) = handedToKernel log ++ answer.acceptedBytes := by
  simp [handedToKernel]

@[simp] theorem pendingChunks_append (answer : Answer) :
    pendingChunks (log ++ [answer]) = nextChunks (pendingChunks log) answer := by
  simp [pendingChunks]

/-- An answer that moves no bytes. -/
structure Answer.Quiet (answer : Answer) : Prop where
  wire : answer.wireBytes = []
  accepted : answer.acceptedBytes = []
  chunks : ∀ chunks, nextChunks chunks answer = chunks

variable {answer : Answer}

theorem Answer.Declined.quiet (h : answer.Declined) : answer.Quiet := by
  cases answer <;> first | exact ⟨rfl, rfl, fun _ => rfl⟩ | exact absurd h id

theorem quiet_done : Answer.done.Quiet := ⟨rfl, rfl, fun _ => rfl⟩

/-- The two connections differ at most in storage and in the armed flag. -/
structure SameQueue (conn conn' : Connection) : Prop where
  buf_eq : conn'.sendBuf = conn.sendBuf
  len_eq : conn'.sendLen = conn.sendLen
  offset_eq : conn'.sendOffset = conn.sendOffset
  cap_eq : conn'.sendqCap = conn.sendqCap
  overflow_eq : conn'.sendOverflow = conn.sendOverflow
  plain_eq : conn'.tlsDeferredPlain = conn.tlsDeferredPlain
  deferred_eq : conn'.tlsDeferredCharge = conn.tlsDeferredCharge
  control_eq : conn'.tlsControlCharge = conn.tlsControlCharge

theorem SameQueue.of_contents (h : conn'.contents = conn.contents) : SameQueue conn conn' where
  buf_eq := (congrArg Connection.sendBuf h :)
  len_eq := (congrArg Connection.sendLen h :)
  offset_eq := (congrArg Connection.sendOffset h :)
  cap_eq := (congrArg Connection.sendqCap h :)
  overflow_eq := (congrArg Connection.sendOverflow h :)
  plain_eq := (congrArg Connection.tlsDeferredPlain h :)
  deferred_eq := (congrArg Connection.tlsDeferredCharge h :)
  control_eq := (congrArg Connection.tlsControlCharge h :)

theorem armed_of_contents (h : conn'.contents = conn.contents) : conn'.sendArmed = conn.sendArmed :=
  (congrArg Connection.sendArmed h :)

theorem SameQueue.wire_eq (h : SameQueue conn conn') : conn'.wire = conn.wire := by
  rw [Connection.wire, Connection.window, h.buf_eq, h.len_eq, h.offset_eq, h.overflow_eq]
  rfl

theorem SameQueue.fits (h : SameQueue conn conn') (hfits : Fits conn) : Fits conn' where
  offset_le := by rw [h.offset_eq, h.len_eq]; exact hfits.offset_le
  len_le := by rw [h.len_eq, h.buf_eq]; exact hfits.len_le
  stored_le := by rw [h.plain_eq, h.deferred_eq]; exact hfits.stored_le
  uncharged hnone := by
    rw [h.deferred_eq]
    exact hfits.uncharged (by rwa [h.plain_eq] at hnone)
  charge_le := by
    rw [charge, h.wire_eq, h.deferred_eq, h.control_eq, h.cap_eq]
    exact hfits.charge_le
  cap_lt := by rw [h.cap_eq]; exact hfits.cap_lt

variable {owner' : Owner}

theorem SameQueue.tracks (h : SameQueue owner.conn owner'.conn)
    (hquiet : answer.Quiet) (htracks : Tracks log owner) : Tracks (log ++ [answer]) owner' where
  fits := h.fits htracks.fits
  fifo := by
    rw [committedWire_append, handedToKernel_append, hquiet.wire, hquiet.accepted, List.append_nil,
      List.append_nil, h.wire_eq]
    exact htracks.fifo
  tail := by rw [pendingChunks_append, hquiet.chunks, h.plain_eq, htracks.tail]
  storable := by rw [pendingChunks_append, hquiet.chunks]; exact htracks.storable

variable {n retainedDeferred retainedControl : Nat} {prepared : PreparedAppend}

section

variable (h : Prepared conn n retainedDeferred retainedControl prepared conn')
include h

theorem Prepared.queue : SameQueue conn conn' :=
  .of_contents h.contents

/-- A committed preparation publishes its bytes behind everything sendable. -/
theorem Prepared.commit_extends {published : Connection}
    (hcommit : prepared.commit conn' bytes = some published) :
    bytes.length = n ∧ Extends conn' bytes published ∧
      published.tlsDeferredPlain = conn.tlsDeferredPlain ∧
      published.tlsDeferredCharge = conn.tlsDeferredCharge ∧
      published.tlsControlCharge = conn.tlsControlCharge := by
  have hsame := h.queue
  have harmed := armed_of_contents h.contents
  unfold PreparedAppend.commit at hcommit
  split at hcommit
  · next hchecks =>
    cases hcommit
    have hlen : bytes.length = n := hchecks.1.trans h.len_eq
    have hmode : prepared.mode = appendMode conn' bytes.length := by
      rw [h.mode_eq, appendMode, appendMode, hsame.overflow_eq, hsame.buf_eq, hsame.len_eq,
        hsame.offset_eq, harmed, hlen]
    have hbounded : Bounded conn' :=
      ⟨by rw [hsame.offset_eq, hsame.len_eq]; exact h.bounded.offset_le,
        by rw [hsame.len_eq, hsame.buf_eq]; exact h.bounded.len_le⟩
    obtain ⟨hplain, hdeferred, hcontrol⟩ := publish_deferred conn' bytes prepared.mode
    rw [hmode]
    rw [hmode] at hplain hdeferred hcontrol
    exact ⟨hlen, publish_extends hbounded, by rw [hplain, hsame.plain_eq],
      by rw [hdeferred, hsame.deferred_eq], by rw [hcontrol, hsame.control_eq]⟩
  · cases hcommit

end

/-- `final` is `conn` with the bytes appended and the tail and the charges as given. -/
structure Committed (conn : Connection) (bytes plain : Bytes) (deferred control : Nat)
    (final : Connection) : Prop where
  grown : Extends conn bytes final
  plain_eq : final.tlsDeferredPlain = plain
  deferred_eq : final.tlsDeferredCharge = deferred
  control_eq : final.tlsControlCharge = control

variable {deferred control : Nat} {plain : Bytes}

/-- A committed append within the room that was checked keeps the queue within its cap. -/
theorem Committed.fits {final : Connection} (hfits : Fits conn)
    (h : Committed conn bytes plain deferred control final)
    (hroom : conn.wire.length + deferred + control + bytes.length ≤ conn.sendqCap)
    (hstored : plain.length ≤ deferred) (huncharged : plain = [] → deferred = 0) : Fits final where
  toBounded := h.grown.bounded
  stored_le := by rw [h.plain_eq, h.deferred_eq]; exact hstored
  uncharged hnone := by rw [h.deferred_eq]; exact huncharged (h.plain_eq ▸ hnone)
  charge_le := by
    rw [charge, h.grown.wire_eq, List.length_append, h.deferred_eq, h.control_eq, h.grown.cap_eq]
    omega
  cap_lt := by rw [h.grown.cap_eq]; exact hfits.cap_lt

theorem Committed.fifo
    (h : Committed owner.conn bytes plain deferred control owner'.conn) (htracks : Tracks log owner)
    (hwire : answer.wireBytes = bytes) (haccepted : answer.acceptedBytes = []) :
    handedToKernel (log ++ [answer]) ++ owner'.conn.wire = committedWire (log ++ [answer]) := by
  rw [handedToKernel_append, committedWire_append, hwire, haccepted, List.append_nil,
    h.grown.wire_eq, ← List.append_assoc, htracks.fifo]

/-- While a send is armed, the bytes below `send_len` neither move nor change. -/
def Still (conn conn' : Connection) : Prop :=
  conn.sendArmed = true → conn'.sendArmed = true →
    conn.sendLen ≤ conn'.sendLen ∧ conn'.sendBuf.take conn.sendLen = conn.sendBuf.take conn.sendLen

theorem SameQueue.still (h : SameQueue conn conn') : Still conn conn' :=
  fun _ _ => ⟨by rw [h.len_eq], by rw [h.buf_eq]⟩

theorem Extends.still_of_same {middle : Connection} (h : SameQueue conn middle)
    (harmed : middle.sendArmed = conn.sendArmed) (hgrown : Extends middle bytes conn') :
    Still conn conn' := by
  intro hconn _
  obtain ⟨-, hlen, htake⟩ := hgrown.still (harmed.trans hconn)
  rw [h.len_eq] at hlen htake
  exact ⟨hlen, by rw [htake, h.buf_eq]⟩

structure Kept (owner : Owner) (result : Answer × Owner) : Prop where
  tracks : ∀ log, Tracks log owner → Tracks (log ++ [result.1]) result.2
  still : Still owner.conn result.2.conn
  declined : result.1.Declined → result.2.conn.contents = owner.conn.contents
  cap_eq : result.2.conn.sendqCap = owner.conn.sendqCap

/-- A call that declines, or that only moves storage, keeps everything. -/
theorem kept_of_contents (h : owner'.conn.contents = owner.conn.contents)
    (hquiet : answer.Quiet) : Kept owner (answer, owner') where
  tracks _ htracks := (SameQueue.of_contents h).tracks hquiet htracks
  still := (SameQueue.of_contents h).still
  declined _ := h
  cap_eq := (SameQueue.of_contents h).cap_eq

theorem kept_misuse : Kept owner (.misuse, owner) :=
  kept_of_contents rfl (Answer.Declined.quiet trivial)

/-- The three appends differ in the charges their preparation kept room for and in the tail
their commit leaves. -/
theorem settle_kept (answer : Bytes → Answer) (n deferred control : Nat) (plain : Bytes)
    {preparation : Except SendError (PreparedAppend × Connection)}
    {commit : PreparedAppend → Connection → Bytes → Option Connection}
    (hprepare : ∀ {prepared middle}, preparation = .ok (prepared, middle) →
      Prepared owner.conn n deferred control prepared middle)
    (hcommit : ∀ {prepared middle bytes final},
      Prepared owner.conn n deferred control prepared middle →
      commit prepared middle bytes = some final →
      bytes.length = n ∧ Committed middle bytes plain deferred control final)
    (hwire : ∀ bytes, (answer bytes).wireBytes = bytes)
    (haccepted : ∀ bytes, (answer bytes).acceptedBytes = [])
    (hanswer : ∀ bytes, ¬(answer bytes).Declined)
    (hstored : Fits owner.conn → plain.length ≤ deferred ∧ (plain = [] → deferred = 0))
    (htail : ∀ log bytes, Tracks log owner →
      plain = (nextChunks (pendingChunks log) (answer bytes)).flatMap chunkBytes ∧
      ∀ chunk ∈ nextChunks (pendingChunks log) (answer bytes), Storable chunk)
    (outcome : Outcome Bytes) : Kept owner (settle owner preparation commit answer outcome) := by
  unfold settle
  split
  · exact kept_of_contents rfl (Answer.Declined.quiet trivial)
  rename_i prepared middle
  have hprepared := hprepare rfl
  have hsame := hprepared.queue
  split
  · exact kept_of_contents hprepared.contents (Answer.Declined.quiet trivial)
  rename_i bytes
  split
  · exact kept_of_contents hprepared.contents (Answer.Declined.quiet trivial)
  next final hsome =>
  obtain ⟨hlen, hfinal⟩ := hcommit hprepared hsome
  refine ⟨fun log htracks => ?_,
    hfinal.grown.still_of_same hsame (armed_of_contents hprepared.contents),
    fun hdeclined => absurd hdeclined (hanswer bytes), hfinal.grown.cap_eq.trans hsame.cap_eq⟩
  have hmiddle : Tracks log { owner with conn := middle } :=
    ⟨hsame.fits htracks.fits, by rw [hsame.wire_eq]; exact htracks.fifo,
      by rw [hsame.plain_eq]; exact htracks.tail, htracks.storable⟩
  obtain ⟨hshort, hcharged⟩ := hstored htracks.fits
  obtain ⟨hplain, hstorable⟩ := htail log bytes htracks
  refine ⟨hfinal.fits hmiddle.fits ?_ hshort hcharged,
    hfinal.fifo hmiddle (hwire bytes) (haccepted bytes), ?_, ?_⟩
  · rw [hsame.wire_eq, hsame.cap_eq, hlen]
    exact hprepared.room
  · rw [hfinal.plain_eq, pendingChunks_append, hplain]
  · rwa [pendingChunks_append]

theorem append_kept (bytesLen : Nat) (growth : Growth) (outcome : Outcome Bytes) :
    Kept owner
      (settle owner (prepareAppend owner.conn bytesLen growth) PreparedAppend.commit .appended
        outcome) := by
  refine settle_kept .appended bytesLen owner.conn.tlsDeferredCharge owner.conn.tlsControlCharge
    owner.conn.tlsDeferredPlain prepareWire_ok (fun hprepared hcommit => ?_) (fun _ => rfl)
    (fun _ => rfl) (fun _ => id) (fun hfits => ⟨hfits.stored_le, hfits.uncharged⟩)
    (fun _ _ htracks => ⟨htracks.tail, htracks.storable⟩) outcome
  obtain ⟨hlen, hgrown, hplain, hdeferred, hcontrol⟩ := hprepared.commit_extends hcommit
  exact ⟨hlen, hgrown, hplain, hdeferred, hcontrol⟩

/-- A reply takes the place of the control credit that was set aside for it. -/
theorem reservedControlAppend_kept (bytesLen : Nat) (growth : Growth) (outcome : Outcome Bytes) :
    Kept owner
      (settle owner (prepareReservedControlAppend owner.conn bytesLen growth) commitReservedControl
      .appended outcome) := by
  refine settle_kept .appended bytesLen owner.conn.tlsDeferredCharge 0
    owner.conn.tlsDeferredPlain (fun h => ?_) (fun hprepared hcommit => ?_) (fun _ => rfl)
    (fun _ => rfl) (fun _ => id) (fun hfits => ⟨hfits.stored_le, hfits.uncharged⟩)
    (fun _ _ htracks => ⟨htracks.tail, htracks.storable⟩) outcome
  · obtain ⟨-, -, h⟩ := bind_ok h
    exact prepareWire_ok h
  · obtain ⟨published, hpublished, rfl⟩ := Option.map_eq_some_iff.mp hcommit
    obtain ⟨hlen, hgrown, hplain, hdeferred, -⟩ := hprepared.commit_extends hpublished
    exact ⟨hlen, { hgrown with bounded := ⟨hgrown.bounded.offset_le, hgrown.bounded.len_le⟩ },
      hplain, hdeferred, rfl⟩

/-- The ciphertext takes the place of the whole tail. -/
theorem deferredReplacement_kept (ciphertextLen : Nat) (growth : Growth) (outcome : Outcome Bytes) :
    Kept owner
      (settle owner (prepareDeferredReplacement owner.conn ciphertextLen growth) commitReplacement
      .replaced outcome) := by
  refine settle_kept .replaced ciphertextLen 0 owner.conn.tlsControlCharge [] (fun h => ?_)
    (fun hprepared hcommit => ?_) (fun _ => rfl) (fun _ => rfl)
    (fun _ => id) (fun _ => ⟨Nat.le_refl 0, fun _ => rfl⟩)
    (fun _ _ _ => ⟨rfl, by simp [nextChunks]⟩) outcome
  · obtain ⟨-, -, h⟩ := bind_ok h
    exact prepareWire_ok h
  · obtain ⟨published, hpublished, rfl⟩ := Option.map_eq_some_iff.mp hcommit
    obtain ⟨hlen, hgrown, -, -, hcontrol⟩ := hprepared.commit_extends hpublished
    exact ⟨hlen, { hgrown with bounded := ⟨hgrown.bounded.offset_le, hgrown.bounded.len_le⟩ },
      rfl, rfl, hcontrol⟩

end OnyxServer.SendQ
