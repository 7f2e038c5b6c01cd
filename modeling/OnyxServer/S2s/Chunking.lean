import Mathlib.Data.List.Induction
import OnyxServer.S2s.Decoder

/-!
# Framing does not depend on the chunks

A run feeds chunks and asks for frames in any order, also when an allocation fails. What
comes out of a drained run depends on the octets fed alone: they are the parse of the
stream by the decoder as a scanner.
-/
namespace OnyxServer.S2s

open Lib List

inductive Call where
  | feed (bytes : Bytes) (alloc : Bool)
  | next (alloc : Bool)
  deriving DecidableEq

abbrev Answer := Except DecodeError (Option Frame)

def step (decoder : Decoder) : Call → Answer × Decoder
  | .feed bytes alloc =>
    match decoder.feed bytes alloc with
    | (.ok (), after) => (.ok none, after)
    | (.error e, after) => (.error e, after)
  | .next alloc => decoder.next alloc

/-- The octets that a call hands over; a feed that runs out of memory takes none. -/
def Call.fed : Call → Bytes
  | .feed bytes true => bytes
  | _ => []

def fedBytes (calls : List Call) : Bytes := calls.flatMap Call.fed

def frameOut : Answer → Option Frame
  | .ok frame => frame
  | .error _ => none

/-- The error an answer reports about the stream; running out of memory is none. -/
def streamError : Answer → Option DecodeError
  | .ok _ => none
  | .error .outOfMemory => none
  | .error e => some e

def framesOut (run : List (Visit Decoder Call Answer)) : List Frame :=
  run.filterMap fun v => frameOut v.output

def firstError (run : List (Visit Decoder Call Answer)) : Option DecodeError :=
  run.findSome? fun v => streamError v.output

def finishError (decoder : Decoder) : Option DecodeError :=
  match decoder.finish with
  | .ok () => none
  | .error e => some e

/-- What a run makes of its stream: the frames and the first error, at the end that of `finish`. -/
def outcome (maxFrameSize : Nat) (calls : List Call) : List Frame × Option DecodeError :=
  let run := visits step (Decoder.init maxFrameSize) calls
  (framesOut run, (firstError run).or (finishError (final step (Decoder.init maxFrameSize) calls)))

/-- The last call asks for a frame and there is none. -/
def Drained (maxFrameSize : Nat) (calls : List Call) : Prop :=
  ∃ earlier, calls = earlier ++ [.next true] ∧
    frameOut ((final step (Decoder.init maxFrameSize) earlier).next true).1 = none

/-- What a sender puts on the stream: the octets of a frame, and the frame if its type is known. -/
inductive Sent (maxFrameSize : Nat) : Bytes × Option Frame → Prop
  | known {frameType : FrameType} {payload bytes : Bytes} {outLen : Nat}
      (hencode : encode frameType payload outLen = .ok bytes)
      (hsize : bytes.length ≤ maxFrameSize) : Sent maxFrameSize (bytes, some ⟨frameType, payload⟩)
  | unknown {tag : UInt8} {payload : Bytes} (htag : FrameType.fromTag tag = none)
      (hlen : payload.length ≤ maxU32) (hsize : headerLen + payload.length ≤ maxFrameSize) :
      Sent maxFrameSize (frameBytes tag payload, none)

variable {maxFrameSize : Nat} {decoder after : Decoder} {calls : List Call}

/-- What `next` does: it parses the front of the accumulator, up to a frame if there is one. -/
structure NextStep (decoder : Decoder) (alloc : Bool) (answer : Answer) (after : Decoder) :
    Prop where
  size : after.maxFrameSize = decoder.maxFrameSize
  parsed : (scanner decoder.maxFrameSize).Parses decoder.accumulator (frameOut answer).toList
    after.accumulator
  stopped : ∀ e, streamError answer = some e →
    inspect decoder.maxFrameSize after.accumulator = .stop e
  waiting : answer = .ok none → inspect decoder.maxFrameSize after.accumulator = .wait
  memory : alloc = true → answer ≠ .error .outOfMemory
  shorter : frameOut answer ≠ none → after.accumulator.length < decoder.accumulator.length

variable {e : DecodeError}

theorem inspect_stop {xs : Bytes} (h : inspect maxFrameSize xs = .stop e) :
    e = .oversizeFrame := by
  rw [inspect_eq] at h
  split at h
  · cases h
  · split at h
    · exact (Verdict.stop.inj h).symm
    · split at h <;> cases h

theorem parses_take {n : Nat} {out : Option Frame} {xs : Bytes}
    (hscan : inspect maxFrameSize xs = .take n out) :
    (scanner maxFrameSize).Parses xs out.toList (xs.drop n) := by
  have htake : (scanner maxFrameSize).scan xs = .take n out := hscan
  exact .single htake

/-- Skipping an unknown frame first does not change what `next` is. -/
theorem NextStep.skip {n : Nat} {alloc : Bool} {answer : Answer}
    (hscan : inspect decoder.maxFrameSize decoder.accumulator = .take n none)
    (h : NextStep (decoder.discardPrefix n) alloc answer after) :
    NextStep decoder alloc answer after where
  size := h.size
  parsed := (parses_take hscan).trans h.parsed
  stopped := h.stopped
  waiting := h.waiting
  memory := h.memory
  shorter hframe := Nat.lt_of_lt_of_le (h.shorter hframe)
    (by rw [Decoder.discardPrefix, length_drop]; omega)

theorem nextLoop_spec {fuel : Nat} {alloc : Bool} (hfuel : decoder.accumulator.length < fuel) :
    NextStep decoder alloc (Decoder.nextLoop fuel decoder alloc).1
      (Decoder.nextLoop fuel decoder alloc).2 := by
  induction fuel generalizing decoder with
  | zero => omega
  | succ fuel ih =>
    unfold Decoder.nextLoop
    cases hscan : inspect decoder.maxFrameSize decoder.accumulator with
    | wait =>
      exact ⟨rfl, .refl _, by simp [streamError], fun _ => hscan, by simp, by simp [frameOut]⟩
    | stop e =>
      obtain rfl := inspect_stop hscan
      exact ⟨rfl, .refl _, by simp [streamError, hscan], by simp, by simp, by simp [frameOut]⟩
    | take n out =>
      obtain ⟨hpos, hle⟩ := inspect_take hscan
      have hless : (decoder.accumulator.drop n).length < decoder.accumulator.length := by
        rw [length_drop]
        omega
      cases out with
      | none =>
        refine NextStep.skip hscan (ih ?_)
        show (decoder.accumulator.drop n).length < fuel
        omega
      | some frame =>
        cases alloc with
        | true =>
          exact ⟨rfl, parses_take hscan, by simp [streamError], by simp, by simp, fun _ => hless⟩
        | false => exact ⟨rfl, .refl _, by simp [streamError], by simp, by simp, by simp [frameOut]⟩

theorem next_spec (decoder : Decoder) (alloc : Bool) :
    NextStep decoder alloc (decoder.next alloc).1 (decoder.next alloc).2 :=
  nextLoop_spec (Nat.lt_succ_self _)

/-- What a run has made of the octets fed so far. -/
structure Progress (maxFrameSize : Nat) (calls : List Call)
    (run : List (Visit Decoder Call Answer)) (decoder : Decoder) : Prop where
  size : decoder.maxFrameSize = maxFrameSize
  parsed : (scanner maxFrameSize).Parses (fedBytes calls) (framesOut run) decoder.accumulator
  failed : ∀ e, firstError run = some e → inspect maxFrameSize decoder.accumulator = .stop e

theorem fedBytes_concat (calls : List Call) (call : Call) :
    fedBytes (calls ++ [call]) = fedBytes calls ++ call.fed := by
  simp [fedBytes, flatMap_append]

theorem framesOut_concat (run : List (Visit Decoder Call Answer)) (v : Visit Decoder Call Answer) :
    framesOut (run ++ [v]) = framesOut run ++ (frameOut v.output).toList := by
  rw [framesOut, filterMap_append]
  cases h : frameOut v.output <;> simp [framesOut, h]

theorem firstError_concat (run : List (Visit Decoder Call Answer)) (v : Visit Decoder Call Answer) :
    firstError (run ++ [v]) = (firstError run).or (streamError v.output) := by
  rw [firstError, List.findSome?_append]
  cases h : streamError v.output <;> simp [firstError, h]

/-- An error about the stream stays: nothing is parsed after it. -/
theorem parses_stopped {xs ys : Bytes} {outs : List Frame}
    (h : (scanner maxFrameSize).Parses xs outs ys) (hstop : inspect maxFrameSize xs = .stop e) :
    inspect maxFrameSize ys = .stop e := by
  cases h with
  | refl => exact hstop
  | take hscan _ => exact absurd (Eq.trans (Eq.symm hscan) hstop) (by simp)

variable {run : List (Visit Decoder Call Answer)}

theorem Progress.feed
    (h : Progress maxFrameSize calls run decoder) (bytes : Bytes) (alloc : Bool) :
    Progress maxFrameSize (calls ++ [.feed bytes alloc])
      (run ++ [⟨decoder, .feed bytes alloc, (step decoder (.feed bytes alloc)).1,
        (step decoder (.feed bytes alloc)).2⟩])
      (step decoder (.feed bytes alloc)).2 := by
  cases alloc with
  | true =>
    refine ⟨h.size, ?_, fun e he => ?_⟩
    · rw [fedBytes_concat, framesOut_concat]
      simpa [frameOut, step, Decoder.feed, Call.fed] using h.parsed.append bytes
    · rw [firstError_concat] at he
      have hstop := h.failed e (by simpa [streamError, step, Decoder.feed] using he)
      exact (inspect_stable _ _ bytes (by rw [hstop]; simp)).trans hstop
  | false =>
    refine ⟨h.size, ?_, fun e he => h.failed e ?_⟩
    · rw [fedBytes_concat, framesOut_concat]
      simpa [frameOut, step, Decoder.feed, Call.fed] using h.parsed
    · rw [firstError_concat] at he
      simpa [streamError, step, Decoder.feed] using he

theorem Progress.next
    (h : Progress maxFrameSize calls run decoder) (alloc : Bool) :
    Progress maxFrameSize (calls ++ [.next alloc])
      (run ++ [⟨decoder, .next alloc, (step decoder (.next alloc)).1,
        (step decoder (.next alloc)).2⟩])
      (step decoder (.next alloc)).2 := by
  have hspec : NextStep decoder alloc (step decoder (.next alloc)).1
    (step decoder (.next alloc)).2 := next_spec decoder alloc
  have hsize := h.size
  subst hsize
  refine ⟨hspec.size, ?_, fun e he => ?_⟩
  · rw [fedBytes_concat, framesOut_concat]
    simpa [Call.fed] using h.parsed.trans hspec.parsed
  · rw [firstError_concat] at he
    cases hfirst : firstError run with
    | some e' =>
      obtain rfl : e' = e := by simpa [hfirst] using he
      exact parses_stopped hspec.parsed (h.failed e' hfirst)
    | none => exact hspec.stopped e (by simpa [hfirst] using he)

theorem progress (maxFrameSize : Nat) (calls : List Call) :
    Progress maxFrameSize calls (visits step (Decoder.init maxFrameSize) calls)
      (final step (Decoder.init maxFrameSize) calls) := by
  induction calls using List.reverseRec with
  | nil => exact ⟨rfl, .refl _, by simp [visits, firstError]⟩
  | append_singleton calls call ih =>
    rw [visits_append, final_append]
    cases call with
    | feed bytes alloc => exact ih.feed bytes alloc
    | next alloc => exact ih.next alloc

/-- The error that a buffer with no frame in front stands for. -/
def restError (maxFrameSize : Nat) (rest : Bytes) : Option DecodeError :=
  match inspect maxFrameSize rest with
  | .stop e => some e
  | _ => if rest.length ≠ 0 then some .truncated else none

theorem finishError_eq (decoder : Decoder) :
    finishError decoder = if decoder.accumulator.length ≠ 0 then some .truncated else none := by
  unfold finishError Decoder.finish
  by_cases h : decoder.accumulator.length = 0
  · simp [h]
  · simp [h]

/-- A call of `next` that yields no frame ends at a verdict other than a frame. -/
theorem NextStep.rest {answer : Answer} (h : NextStep decoder true answer after)
    (hnone : frameOut answer = none) :
    answer = .ok none ∧ inspect decoder.maxFrameSize after.accumulator = .wait ∨
      ∃ e, streamError answer = some e ∧
        inspect decoder.maxFrameSize after.accumulator = .stop e := by
  cases answer with
  | ok out =>
    obtain rfl : out = none := hnone
    exact .inl ⟨rfl, h.waiting rfl⟩
  | error e =>
    have he : streamError (.error e) = some e := by
      cases e with
      | outOfMemory => exact absurd rfl (h.memory rfl)
      | malformedFrame => rfl
      | oversizeFrame => rfl
      | truncated => rfl
    exact .inr ⟨e, he, h.stopped e he⟩

theorem restError_stop {rest : Bytes}
    (h : inspect maxFrameSize rest = .stop e) : restError maxFrameSize rest = some e := by
  rw [restError, h]

theorem restError_wait (h : inspect maxFrameSize decoder.accumulator = .wait) :
    restError maxFrameSize decoder.accumulator = finishError decoder := by
  rw [restError, h, finishError_eq]

/-- The outcome of a drained run is the parse of what was fed. -/
theorem Drained.parsed (h : Drained maxFrameSize calls) :
    ∃ rest, (scanner maxFrameSize).Parses (fedBytes calls) (outcome maxFrameSize calls).1 rest ∧
      (∀ n out, (scanner maxFrameSize).scan rest ≠ .take n out) ∧
      (outcome maxFrameSize calls).2 = restError maxFrameSize rest := by
  obtain ⟨earlier, rfl, hlast⟩ := h
  have hprogress := progress maxFrameSize (earlier ++ [.next true])
  have hspec := next_spec (final step (Decoder.init maxFrameSize) earlier) true
  have hend := hspec.rest hlast
  rw [(progress maxFrameSize earlier).size] at hend
  refine ⟨_, hprogress.parsed, ?_, ?_⟩
  · intro n out htake
    rw [final_append] at htake
    rcases hend with ⟨-, hwait⟩ | ⟨e, -, hstop⟩
    · exact absurd (hwait.symm.trans htake) (by simp)
    · exact absurd (hstop.symm.trans htake) (by simp)
  · have hfailed := hprogress.failed
    rw [outcome]
    cases hfirst : firstError
      (visits step (Decoder.init maxFrameSize) (earlier ++ [.next true])) with
    | some e => exact (restError_stop (hfailed e hfirst)).symm
    | none =>
      rw [visits_append, visits, visits, firstError_concat] at hfirst
      rcases hend with ⟨-, hwait⟩ | ⟨e, he, -⟩
      · rw [final_append]
        exact (restError_wait hwait).symm
      · exact absurd ((Option.or_eq_none_iff.mp hfirst).2) (by simp [step, he])

/-- Drained runs over the same octets have the same outcome. -/
theorem Drained.outcome_eq {calls' : List Call} (h : Drained maxFrameSize calls)
    (h' : Drained maxFrameSize calls') (hfed : fedBytes calls = fedBytes calls') :
    outcome maxFrameSize calls = outcome maxFrameSize calls' := by
  obtain ⟨rest, hparse, hend, herror⟩ := h.parsed
  obtain ⟨rest', hparse', hend', herror'⟩ := h'.parsed
  rw [← hfed] at hparse'
  obtain ⟨hframes, rfl⟩ := hparse.unique hend hparse' hend'
  exact Prod.ext hframes (herror.trans herror'.symm)

theorem drains (maxFrameSize : Nat) (calls : List Call) :
    ∃ n, Drained maxFrameSize (calls ++ List.replicate n (.next true)) := by
  induction hlen : (final step (Decoder.init maxFrameSize) calls).accumulator.length
    using Nat.strong_induction_on generalizing calls with
  | h len ih =>
    have hspec := next_spec (final step (Decoder.init maxFrameSize) calls) true
    by_cases hnone : frameOut ((final step (Decoder.init maxFrameSize) calls).next true).1 = none
    · exact ⟨1, calls, rfl, hnone⟩
    have hless := hspec.shorter hnone
    obtain ⟨n, hn⟩ := ih _ (hlen ▸ hless) (calls ++ [.next true]) (by rw [final_append]; rfl)
    refine ⟨n + 1, ?_⟩
    rwa [append_assoc] at hn

theorem declaredLen_frameBytes {tag : UInt8} {payload : Bytes} (hlen : payload.length ≤ maxU32)
    (rest : Bytes) : declaredLen (frameBytes tag payload ++ rest) = payload.length := by
  have hslice : slice (frameBytes tag payload ++ rest) 1 (1 + lengthLen) =
      leBytes lengthLen payload.length :=
    slice_field (l := [tag]) (r := payload ++ rest) (by simp [frameBytes]) rfl (by simp)
  rw [declaredLen, hslice]
  simp only [maxU32] at hlen
  exact leNat_leBytes (by simp only [lengthLen]; omega)

theorem inspect_frameBytes {tag : UInt8} {payload : Bytes} (hlen : payload.length ≤ maxU32)
    (hsize : headerLen + payload.length ≤ maxFrameSize)
    (hlimit : (FrameType.fromTag tag).any (payloadExceedsTypeLimit · payload.length) = false)
    (rest : Bytes) :
    inspect maxFrameSize (frameBytes tag payload ++ rest) =
      .take (headerLen + payload.length) ((FrameType.fromTag tag).map (⟨·, payload⟩)) := by
  have hslice : slice (frameBytes tag payload ++ rest) headerLen (headerLen + payload.length) =
      payload := by
    simp [frameBytes, slice, headerLen, lengthLen]
  have htag : (frameBytes tag payload ++ rest).headD 0 = tag := rfl
  have hfits : HeaderFits maxFrameSize (frameBytes tag payload ++ rest) := by
    rw [HeaderFits, declaredLen_frameBytes hlen, htag]
    exact ⟨hsize, hlimit⟩
  rw [inspect_eq, declaredLen_frameBytes hlen, htag, hslice]
  have hlong : ¬ (frameBytes tag payload ++ rest).length < headerLen + payload.length := by
    rw [length_append, frameBytes_length]
    omega
  rw [if_neg (by omega), if_neg (not_not.mpr hfits), if_neg hlong]

theorem Sent.parses {sent : Bytes × Option Frame} (h : Sent maxFrameSize sent) (rest : Bytes) :
    (scanner maxFrameSize).Parses (sent.1 ++ rest) sent.2.toList rest := by
  cases h with
  | @known frameType payload bytes outLen hencode hsize =>
    obtain ⟨rfl, hlen, hlimit⟩ := encode_ok hencode
    rw [frameBytes_length] at hsize
    have hany : (FrameType.fromTag frameType.tag).any (payloadExceedsTypeLimit · payload.length) =
        false := by
      simpa using hlimit
    have h := parses_take (inspect_frameBytes hlen hsize hany rest)
    rwa [fromTag_tag, ← frameBytes_length frameType.tag payload, drop_left] at h
  | @unknown tag payload htag hlen hsize =>
    have hany : (FrameType.fromTag tag).any (payloadExceedsTypeLimit · payload.length) = false := by
      rw [htag]
      rfl
    have h := parses_take (inspect_frameBytes hlen hsize hany rest)
    rwa [htag, ← frameBytes_length tag payload, drop_left] at h

theorem sent_parses {sent : List (Bytes × Option Frame)}
    (h : ∀ item ∈ sent, Sent maxFrameSize item) :
    (scanner maxFrameSize).Parses (sent.flatMap Prod.fst) (sent.filterMap Prod.snd) [] := by
  induction sent with
  | nil => exact .refl []
  | cons item sent ih =>
    obtain ⟨hfirst, hrest⟩ := forall_mem_cons.mp h
    rw [flatMap_cons]
    have hparse := (hfirst.parses _).trans (ih hrest)
    cases hitem : item.2 <;> simpa [hitem] using hparse

/-! ## Restarting from a checkpoint -/

/-- Two decoders with the same frame limit and the same octets left. -/
def SameStream (decoder other : Decoder) : Prop :=
  decoder.maxFrameSize = other.maxFrameSize ∧ decoder.accumulator = other.accumulator

variable {other : Decoder}

theorem SameStream.nextLoop (h : SameStream decoder other) (fuel : Nat)
    (alloc : Bool) :
    (Decoder.nextLoop fuel decoder alloc).1 = (Decoder.nextLoop fuel other alloc).1 ∧
      SameStream (Decoder.nextLoop fuel decoder alloc).2 (Decoder.nextLoop fuel other alloc).2 := by
  induction fuel generalizing decoder other with
  | zero => exact ⟨rfl, h⟩
  | succ fuel ih =>
    obtain ⟨hsize, hleft⟩ := h
    unfold Decoder.nextLoop
    rw [← hsize, ← hleft]
    cases inspect decoder.maxFrameSize decoder.accumulator with
    | wait => exact ⟨rfl, hsize, hleft⟩
    | stop e => exact ⟨rfl, hsize, hleft⟩
    | take n out =>
      have hdrop : SameStream (decoder.discardPrefix n) (other.discardPrefix n) :=
        ⟨hsize, congrArg (List.drop n) hleft⟩
      cases out with
      | none => exact ih hdrop
      | some frame =>
        cases alloc with
        | true => exact ⟨rfl, hdrop⟩
        | false => exact ⟨rfl, hsize, hleft⟩

theorem SameStream.step (h : SameStream decoder other) (call : Call) :
    (S2s.step decoder call).1 = (S2s.step other call).1 ∧
      SameStream (S2s.step decoder call).2 (S2s.step other call).2 := by
  cases call with
  | feed bytes alloc =>
    cases alloc with
    | true => exact ⟨rfl, h.1, congrArg (· ++ bytes) h.2⟩
    | false => exact ⟨rfl, h⟩
  | next alloc =>
    have hnext := h.nextLoop (decoder.accumulator.length + 1) alloc
    show (decoder.next alloc).1 = (other.next alloc).1 ∧
      SameStream (decoder.next alloc).2 (other.next alloc).2
    rw [Decoder.next, Decoder.next, ← h.2]
    exact hnext

theorem SameStream.answers (h : SameStream decoder other) (calls : List Call) :
    (visits S2s.step decoder calls).map Visit.output =
      (visits S2s.step other calls).map Visit.output := by
  induction calls generalizing decoder other with
  | nil => rfl
  | cons call calls ih =>
    obtain ⟨hanswer, hafter⟩ := h.step call
    exact cons_eq_cons.mpr ⟨hanswer, ih hafter⟩

/-- The decoder that a restart builds from retained octets. -/
def restart (maxFrameSize : Nat) (retained : Bytes) : Decoder :=
  ((Decoder.init maxFrameSize).feed retained true).2

theorem retained_valid (hmax : headerLen ≤ maxFrameSize)
    (hlast : ((final step (Decoder.init maxFrameSize) calls).next true).1 = .ok none) :
    Decoder.validatePartial
      (final step (Decoder.init maxFrameSize) (calls ++ [.next true])).accumulator
      maxFrameSize = .ok () := by
  have hspec := next_spec (final step (Decoder.init maxFrameSize) calls) true
  have hwait := hspec.waiting hlast
  rw [(progress maxFrameSize calls).size] at hwait
  rw [final_append]
  exact (validatePartial_iff hmax _).mpr hwait

/-- What comes out of a drained decoder depends on the stream alone: the known frames that
were sent, in order, and the first error; and what is retained is a checkpoint that a
restarted decoder continues from. -/
theorem framing_chunk_independent (maxFrameSize : Nat) (hmax : headerLen ≤ maxFrameSize) :
    (∀ (sent : List (Bytes × Option Frame)) calls, (∀ item ∈ sent, Sent maxFrameSize item) →
      fedBytes calls = sent.flatMap Prod.fst → Drained maxFrameSize calls →
      outcome maxFrameSize calls = (sent.filterMap Prod.snd, none)) ∧
    (∀ calls calls', fedBytes calls = fedBytes calls' → Drained maxFrameSize calls →
      Drained maxFrameSize calls' → outcome maxFrameSize calls = outcome maxFrameSize calls') ∧
    (∀ calls, ∃ n, Drained maxFrameSize (calls ++ List.replicate n (.next true))) ∧
    ∀ calls decoder, decoder = final step (Decoder.init maxFrameSize) (calls ++ [.next true]) →
      ((final step (Decoder.init maxFrameSize) calls).next true).1 = .ok none →
      Decoder.validatePartial decoder.accumulator maxFrameSize = .ok () ∧
      ∀ more, (visits step (restart maxFrameSize decoder.accumulator) more).map Visit.output =
        (visits step decoder more).map Visit.output := by
  refine ⟨?_, fun calls calls' hfed h h' => h.outcome_eq h' hfed, drains maxFrameSize, ?_⟩
  · intro sent calls hsent hfed hdrained
    obtain ⟨rest, hparse, hend, herror⟩ := hdrained.parsed
    rw [hfed] at hparse
    have hnil : inspect maxFrameSize [] = .wait := rfl
    obtain ⟨hframes, rfl⟩ := hparse.unique hend (sent_parses hsent)
      (fun n out htake => absurd (hnil.symm.trans htake) (by simp))
    exact Prod.ext hframes herror
  · intro calls decoder hdecoder hlast
    have hsize := (progress maxFrameSize (calls ++ [.next true])).size
    subst hdecoder
    have hsame : SameStream (restart maxFrameSize
        (final step (Decoder.init maxFrameSize) (calls ++ [.next true])).accumulator)
        (final step (Decoder.init maxFrameSize) (calls ++ [.next true])) :=
      ⟨hsize.symm, nil_append _⟩
    exact ⟨retained_valid hmax hlast, hsame.answers⟩

def pingStream : Bytes := frameBytes 0x7F [1, 2] ++ frameBytes 0x05 [7]

def splitCalls : List Call :=
  [.feed (pingStream.take 9) true, .next true, .feed (pingStream.drop 9) true, .next true]

def wholeCalls : List Call := [.feed pingStream true, .next true]

/-- A ping of one octet behind a frame of an unknown type, in two chunks and in one. -/
theorem framing_chunk_independent_ping :
    outcome 64 (splitCalls ++ [.next true]) = ([⟨.ping, [7]⟩], none) ∧
      outcome 64 (splitCalls ++ [.next true]) = outcome 64 (wholeCalls ++ [.next true]) ∧
      Decoder.validatePartial (final step (Decoder.init 64)
        (splitCalls.take 1 ++ [.next true])).accumulator 64 = .ok () := by
  have hframing := framing_chunk_independent 64 (by decide)
  have hsplit : Drained 64 (splitCalls ++ [.next true]) := ⟨splitCalls, rfl, by decide⟩
  have hwhole : Drained 64 (wholeCalls ++ [.next true]) := ⟨wholeCalls, rfl, by decide⟩
  have hsent : ∀ item ∈ [(frameBytes 0x7F [1, 2], none), (frameBytes 0x05 [7], some ⟨.ping, [7]⟩)],
      Sent 64 item :=
    forall_mem_cons.mpr ⟨.unknown (by decide) (by decide) (by decide),
      forall_mem_singleton.mpr (@Sent.known 64 .ping [7] _ 6 (by decide) (by decide))⟩
  refine ⟨hframing.1 _ _ hsent (by decide) hsplit, hframing.2.1 _ _ (by decide) hsplit hwhole, ?_⟩
  exact (hframing.2.2.2 (splitCalls.take 1) _ rfl (by decide)).1

/-- A known frame that the encoder accepts and that is larger than the frame limit. -/
theorem oversized_known_frame_refused :
    encode .ping [7] 6 = .ok (frameBytes 0x05 [7]) ∧
      Drained headerLen [.feed (frameBytes 0x05 [7]) true, .next true] ∧
      outcome headerLen [.feed (frameBytes 0x05 [7]) true, .next true] =
        ([], some .oversizeFrame) :=
  ⟨by decide, ⟨[.feed (frameBytes 0x05 [7]) true], rfl, by decide⟩, by decide⟩

end OnyxServer.S2s
