import OnyxServer.Delivery.World

/-!
# Head-of-line custody

A newer event of an origin is never on its way while an older one is still owed, so
an event that was not accepted yet is newer than everything the receiver has accepted
from its origin, and no watermark can stand above it.
-/
namespace OnyxServer.Delivery

open Lib AList Option
open AcceptedLog (Session Answer Row EventLog)
open ReplayGuard (Guard Decision AllocError GuardStep)
open Relay.V2 (RelayId PublicKey Crypto)

/-- Both sides of the protocol agree with its history. -/
structure World.Inv (crypto : Crypto) (target : UInt64) (world : World) : Prop where
  session : world.sender.Wf crypto
  outgoing : Outgoing crypto target world.sender.log.rows world.history
  incoming : Incoming crypto world.receiver world.history.accepted

section Arrival

variable {crypto : Crypto} {target : UInt64} {rows : List Row} {history : History}
  {guard next : Guard} {wire : Bytes} {event : EventId} {verdict : Except AllocError Decision}

/-- An event that is on its way and not accepted is the newest of its origin. -/
theorem Outgoing.newest (h : Outgoing crypto target rows history) (hsent : wire ∈ history.sent)
    (hid : identify crypto wire = some event) (hnew : wire ∉ history.accepted) :
    Newest crypto history.accepted event := by
  intro other hother old hold horigin
  obtain ⟨row, hrow, rfl, hout⟩ := (h.held wire hsent).resolve_left hnew
  obtain ⟨hreserved, hevent⟩ := h.stored row hrow
  obtain rfl := some.inj (hevent.symm.trans hid)
  have hle := h.ahead other (h.accepted other hother) old hold row hrow hout horigin.symm
  refine lt_of_le_of_ne hle fun hhlc => hnew ?_
  have heq := h.unique (h.sent other (h.accepted other hother)) hreserved hold hevent
    (Or.inr ⟨horigin, hhlc⟩)
  rw [← heq]
  exact hother

section

variable (h : Incoming crypto guard history.accepted)
include h

theorem Incoming.step (hid : identify crypto wire = some event)
    (hnew : wire ∈ history.accepted ∨ Newest crypto history.accepted event)
    (hs : GuardStep guard event.originPubkey event.hlc event.relayId verdict next) :
    Incoming crypto next (history.arrive wire event.relayId verdict).accepted := by
  have hsub := accepted_subset history wire event.relayId verdict
  refine ⟨hs.wf h.wf, fun origin state hlookup => ?_⟩
  cases hs with
  | known known state' _ hknown hk =>
    by_cases horigin : origin = event.originPubkey
    · subst horigin
      rw [lookup_insert] at hlookup
      cases hlookup
      exact Backed.step (h.wf.origins _ known hknown) (h.backed _ known hknown) hid hnew hk
    · rw [lookup_insert_ne horigin] at hlookup
      exact (h.backed origin state hlookup).mono hsub
  | capacity => exact (h.backed origin state hlookup).mono hsub
  | noMemory => exact (h.backed origin state hlookup).mono hsub
  | fresh =>
    by_cases horigin : origin = event.originPubkey
    · subst horigin
      rw [lookup_insert] at hlookup
      cases hlookup
      refine ⟨fun entry hentry => ?_, nofun⟩
      obtain rfl := List.mem_singleton.mp hentry
      exact ⟨wire, List.mem_cons_self, hid⟩
    · rw [lookup_insert_ne horigin] at hlookup
      exact (h.backed origin state hlookup).mono hsub

/-- A duplicate repeats an event that was accepted. -/
theorem Incoming.duplicate
    (hs : GuardStep guard event.originPubkey event.hlc event.relayId verdict next)
    (hverdict : verdict = .ok .duplicate) :
    ∃ old ∈ history.accepted, identify crypto old = some event := by
  cases hs with
  | known known state' _ hknown hk =>
    cases hk with
    | retained entry hmem hhlc =>
      split at hverdict
      · rename_i hid
        obtain ⟨old, hold, heq⟩ := (h.backed _ known hknown).entries entry hmem
        rw [hid, hhlc] at heq
        exact ⟨old, hold, heq⟩
      · cases hverdict
    | _ => cases hverdict
  | _ => cases hverdict

/-- An event that is the newest of its origin is accepted, or there is no room for it. -/
theorem Incoming.answer (hnewest : Newest crypto history.accepted event)
    (hs : GuardStep guard event.originPubkey event.hlc event.relayId verdict next) :
    verdict = .ok .accepted ∨ verdict = .error .outOfMemory ∨
      (verdict = .ok .originCapacity ∧ guard.origins.lookup event.originPubkey = none ∧
        guard.config.maxOrigins ≤ guard.count) := by
  cases hs with
  | known known state' _ hknown hk =>
    exact (accepted_of_newest (h.wf.origins _ known hknown)
      (h.backed _ known hknown) hnewest hk).imp_right
      Or.inl
  | capacity hlookup hfull => exact Or.inr (Or.inr ⟨rfl, hlookup, hfull⟩)
  | noMemory => exact Or.inr (Or.inl rfl)
  | fresh => exact Or.inl rfl

end

theorem Outgoing.arrive (h : Outgoing crypto target rows history) (hsent : wire ∈ history.sent)
    (hid : identify crypto wire = some event)
    (hdup : verdict = .ok .duplicate → ∃ old ∈ history.accepted, identify crypto old = some event) :
    Outgoing crypto target rows (history.arrive wire event.relayId verdict) := by
  have hsub := accepted_subset history wire event.relayId verdict
  have hreserved : (history.arrive wire event.relayId verdict).reserved = history.reserved := by
    unfold History.arrive
    split <;> rfl
  have hframe : (history.arrive wire event.relayId verdict).sent = history.sent := by
    unfold History.arrive
    split <;> rfl
  constructor
  · rw [hreserved]
    exact h.ordered
  · rw [hreserved]
    exact h.stored
  · rw [hreserved]
    exact h.readable
  · rw [hreserved, hframe]
    exact h.sent
  · rw [hframe]
    intro other hother
    exact (h.held other hother).imp_left fun haccepted => hsub haccepted
  · rw [hframe]
    exact h.ahead
  · rw [hframe, arrive_accepted]
    intro other hother
    split at hother
    · rcases List.mem_cons.mp hother with rfl | hother
      · exact hsent
      · exact h.accepted other hother
    · exact h.accepted other hother
  · intro relayId hack
    rcases mem_arrive_acks hack with hold | ⟨rfl, hverdict⟩
    · obtain ⟨old, hmem, hevent⟩ := h.acked relayId hold
      exact ⟨old, hsub hmem, hevent⟩
    rcases hverdict with rfl | hverdict
    · exact ⟨wire, List.mem_cons_self, event, hid, rfl⟩
    · obtain ⟨old, hmem, heq⟩ := hdup hverdict
      exact ⟨old, hsub hmem, event, heq, rfl⟩
  · intro row hrow hconfirmed
    exact hsub (h.confirmed row hrow hconfirmed)

/-- Memory is the only reason for a refusal with `outOfMemory`. -/
theorem admit_outOfMemory {pubkey : PublicKey} {hlc : UInt64} {relayId : RelayId}
    {alloc : Allocator} :
    let admitted := Guard.admit guard pubkey hlc relayId alloc
    admitted.1 = .error .outOfMemory → ∃ n, alloc n = false := by
  intro admitted h
  by_contra hnone
  have hall : ∀ n, alloc n = true := fun n => by
    by_contra hn
    exact hnone ⟨n, Bool.not_eq_true _ ▸ hn⟩
  simp only [admitted, Guard.admit] at h
  cases hlookup : guard.origins.lookup pubkey with
  | none =>
    simp only [hlookup, hall] at h
    split at h <;> cases h
  | some origin =>
    simp only [hlookup, ReplayGuard.admitKnown, hall, ↓reduceIte] at h
    split at h
    · cases h
    split at h
    · cases h
    split at h
    · cases h
    · split_ifs at h
      · split at h <;> cases h

end Arrival

def World.start (log : EventLog) (guard : Guard) : World :=
  ⟨Session.start log, guard, ⟨[], [], [], []⟩⟩

def stepsOf (crypto : Crypto) (target : UInt64) (world : World) (acts : List Act) :
    List (Visit World Act Report) :=
  visits (World.step crypto target) world acts

section Run

variable {crypto : Crypto} {target : UInt64} {world : World}

theorem World.start_inv {config : AcceptedLog.Config} {log : EventLog}
    (hlog : EventLog.init config = some log) {window : ReplayGuard.Config} {guard : Guard}
    (hguard : Guard.init window = some guard) : (World.start log guard).Inv crypto target := by
  have hrows : log.rows = [] := by
    unfold EventLog.init at hlog
    split at hlog
    · rw [← some.inj hlog]
    · cases hlog
  have horigins : guard.origins = ∅ := by
    unfold Guard.init at hguard
    split at hguard
    · rw [← some.inj hguard]
    · cases hguard
  refine ⟨Session.start_wf hlog, ?_, ReplayGuard.init_wf hguard, fun origin state hlookup => ?_⟩
  · constructor <;> simp [World.start, Session.start, hrows]
  · have hlookup : guard.origins.lookup origin = some state := hlookup
    rw [horigins, lookup_empty] at hlookup
    cases hlookup

theorem send_accepted (op : AcceptedLog.Op) :
    (world.send crypto target op).2.history.accepted = world.history.accepted := by
  unfold World.send History.send History.reserve
  simp only
  split
  · split <;> split <;> rfl
  · split <;> rfl

theorem World.Inv.send (h : world.Inv crypto target) {op : AcceptedLog.Op}
    (hallowed : Allowed crypto target world.history (.sender op) (world.send crypto target op).1) :
    (world.send crypto target op).2.Inv crypto target := by
  obtain ⟨hwf, hstep⟩ := op.run_step h.session
  refine ⟨hwf, h.outgoing.step hwf hstep hallowed, ?_⟩
  rw [send_accepted]
  exact h.incoming

/-- The verdict over a frame that was sent, and what it leaves behind. -/
theorem World.Inv.arrive (h : world.Inv crypto target) {wire : Bytes} (alloc : Allocator)
    (hsent : wire ∈ world.history.sent) :
    (world.arrive crypto wire alloc).2.Inv crypto target ∧
    (wire ∉ world.history.accepted →
      (world.arrive crypto wire alloc).1 = .arrived wire (.ok .accepted) ∨
      ((world.arrive crypto wire alloc).1 = .arrived wire (.ok .originCapacity) ∧
        ∃ event, identify crypto wire = some event ∧
          world.receiver.origins.lookup event.originPubkey = none ∧
          world.receiver.config.maxOrigins ≤ world.receiver.count) ∨
      ((world.arrive crypto wire alloc).1 = .arrived wire (.error .outOfMemory) ∧
        ∃ n, alloc n = false)) := by
  obtain ⟨event, hid⟩ := h.outgoing.readable wire (h.outgoing.sent wire hsent)
  have hs := ReplayGuard.admit_step h.incoming.wf event.originPubkey event.hlc event.relayId alloc
  have hnew : wire ∈ world.history.accepted ∨ Newest crypto world.history.accepted event := by
    by_cases hold : wire ∈ world.history.accepted
    · exact Or.inl hold
    · exact Or.inr (h.outgoing.newest hsent hid hold)
  unfold World.arrive
  simp only [hid]
  refine ⟨⟨h.session, h.outgoing.arrive hsent hid (h.incoming.duplicate hs),
    h.incoming.step hid hnew hs⟩, fun hnot => ?_⟩
  rcases h.incoming.answer (hnew.resolve_left hnot) hs with hok | hmemory | ⟨hfull, hroom⟩
  · exact Or.inl (by rw [hok])
  · exact Or.inr (Or.inr ⟨by rw [hmemory], admit_outOfMemory hmemory⟩)
  · exact Or.inr (Or.inl ⟨by rw [hfull], event, rfl, hroom⟩)

theorem World.Inv.step (h : world.Inv crypto target) (act : Act)
    (hallowed : Allowed crypto target world.history act (world.step crypto target act).1) :
    (world.step crypto target act).2.Inv crypto target := by
  cases act with
  | sender op => exact h.send hallowed
  | arrive wire alloc => exact (h.arrive alloc hallowed).1

theorem step_accepted {act : Act} {wire : Bytes}
    (h : wire ∈ (world.step crypto target act).2.history.accepted) :
    wire ∈ world.history.accepted ∨
      (world.step crypto target act).1 = .arrived wire (.ok .accepted) := by
  cases act with
  | sender op =>
    rw [World.step, send_accepted] at h
    exact Or.inl h
  | arrive frame alloc =>
    unfold World.step World.arrive at h ⊢
    cases hid : identify crypto frame with
    | none =>
      simp only [hid] at h
      exact Or.inl h
    | some event =>
      simp only [hid, arrive_accepted] at h ⊢
      split at h
      · rename_i hverdict
        rcases List.mem_cons.mp h with rfl | h
        · exact Or.inr (by rw [hverdict])
        · exact Or.inl h
      · exact Or.inl h

theorem accepted_arrived {acts : List Act} {wire : Bytes}
    (h : wire ∈ (final (World.step crypto target) world acts).history.accepted) :
    wire ∈ world.history.accepted ∨
      ∃ v ∈ stepsOf crypto target world acts, v.output = .arrived wire (.ok .accepted) := by
  induction acts generalizing world with
  | nil => exact Or.inl h
  | cons act acts ih =>
    rcases ih h with hnow | ⟨v, hv, hout⟩
    · rcases step_accepted hnow with hold | hout
      · exact Or.inl hold
      · exact Or.inr ⟨_, List.mem_cons_self, hout⟩
    · exact Or.inr ⟨v, List.mem_cons_of_mem _ hv, hout⟩

/-- The sender's rows name the target as confirmed only after the receiver accepted. -/
theorem World.Inv.confirmed_before (h : world.Inv crypto target) {act : Act}
    (hallowed : Allowed crypto target world.history act (world.step crypto target act).1)
    {row : Row} (hrow : row ∈ (world.step crypto target act).2.sender.log.rows)
    (hconfirmed : target ∈ row.confirmedNodes) : row.wire ∈ world.history.accepted := by
  cases act with
  | sender op =>
    have hafter := (h.send hallowed).outgoing.confirmed row hrow hconfirmed
    rw [send_accepted] at hafter
    exact hafter
  | arrive wire alloc =>
    have hsame : (world.arrive crypto wire alloc).2.sender = world.sender := by
      unfold World.arrive
      split <;> rfl
    rw [World.step, hsame] at hrow
    exact h.outgoing.confirmed row hrow hconfirmed

end Run

/-- In every run of the protocol over a channel that loses, repeats, delays and
reorders frames: a row's wire that was not accepted before (in particular at its first
arrival) is accepted, unless the guard has no room for another origin or an allocation
fails; so it is never retired and never an equivocation. And the sender records a
confirmation of the target for a row, or commits one, only after the receiver accepted
the row's event. -/
theorem head_of_line_custody (crypto : Crypto) (target : UInt64) {config : AcceptedLog.Config}
    {log : EventLog} (hlog : EventLog.init config = some log) {window : ReplayGuard.Config}
    {guard : Guard} (hguard : Guard.init window = some guard) (acts : List Act)
    (hallowed : ∀ v ∈ stepsOf crypto target (World.start log guard) acts,
      Allowed crypto target v.before.history v.input v.output)
    {earlier later : List (Visit World Act Report)} {v : Visit World Act Report}
    (hsplit : stepsOf crypto target (World.start log guard) acts = earlier ++ v :: later) :
    (∀ wire alloc, v.input = .arrive wire alloc →
      (∀ u ∈ earlier, u.output ≠ .arrived wire (.ok .accepted)) →
      v.output = .arrived wire (.ok .accepted) ∨
      (v.output = .arrived wire (.ok .originCapacity) ∧
        ∃ event, identify crypto wire = some event ∧
          v.before.receiver.origins.lookup event.originPubkey = none ∧
          v.before.receiver.config.maxOrigins ≤ v.before.receiver.count) ∨
      (v.output = .arrived wire (.error .outOfMemory) ∧ ∃ n, alloc n = false)) ∧
    (∀ row ∈ v.after.sender.log.rows, target ∈ row.confirmedNodes →
      ∃ u ∈ earlier, u.output = .arrived row.wire (.ok .accepted)) ∧
    (∀ relayId outcome, v.output = .sender (.done (.confirm relayId target) outcome) →
      ∃ u ∈ earlier, ∃ wire, u.output = .arrived wire (.ok .accepted) ∧
        ∃ event, identify crypto wire = some event ∧ event.relayId = relayId) := by
  have hv : v ∈ stepsOf crypto target (World.start log guard) acts := by
    rw [hsplit]
    simp
  have hrun := guarded_invariant (P := World.Inv crypto target)
    (G := fun v => Allowed crypto target v.before.history v.input v.output)
    (fun u hu hrule hinv => by
      have hnext := hinv.step u.input
      rw [hu] at hnext
      exact hnext hrule)
    (World.start_inv hlog hguard) hallowed
  have hinv := (hrun.2 v hv).1
  have hrule := hallowed v hv
  have hstep : World.step crypto target v.before v.input = (v.output, v.after) := visit_step hv
  obtain ⟨fs, gs, -, hearlier, hbefore⟩ := visits_split hsplit
  have hseen : ∀ wire ∈ v.before.history.accepted,
      ∃ u ∈ earlier, u.output = .arrived wire (.ok .accepted) := by
    intro wire hwire
    rw [hbefore] at hwire
    rw [hearlier]
    exact (accepted_arrived hwire).resolve_left List.not_mem_nil
  refine ⟨fun wire alloc hinput hfirst => ?_, fun row hrow hconfirmed => ?_, ?_⟩
  · rw [hinput] at hstep hrule
    have hnot : wire ∉ v.before.history.accepted := fun hmem => by
      obtain ⟨u, hu, hout⟩ := hseen wire hmem
      exact hfirst u hu hout
    have hanswer := (hinv.arrive alloc hrule).2 hnot
    have hout : (v.before.arrive crypto wire alloc).1 = v.output := congrArg Prod.fst hstep
    rw [hout] at hanswer
    exact hanswer
  · have hout : (v.before.step crypto target v.input).1 = v.output := congrArg Prod.fst hstep
    have hafter : (v.before.step crypto target v.input).2 = v.after := congrArg Prod.snd hstep
    rw [← hout] at hrule
    rw [← hafter] at hrow
    exact hseen _ (hinv.confirmed_before hrule hrow hconfirmed)
  · intro relayId outcome hout
    cases hinput : v.input with
    | sender op =>
      rw [hinput, hout] at hrule
      obtain ⟨wire, hwire, hevent⟩ := hinv.outgoing.acked relayId (hrule rfl)
      obtain ⟨u, hu, haccepted⟩ := hseen wire hwire
      exact ⟨u, hu, wire, haccepted, hevent⟩
    | arrive wire alloc =>
      have hreport : (v.before.arrive crypto wire alloc).1 = v.output := by
        rw [hinput] at hstep
        exact congrArg Prod.fst hstep
      unfold World.arrive at hreport
      rw [hout] at hreport
      split at hreport <;> cases hreport

/-- A receiver with a window of one event and room for `maxOrigins` origins. -/
def sampleGuard (maxOrigins : Nat) : Guard := ⟨⟨1, maxOrigins⟩, ∅⟩

/-- Two events of one origin and a window of one event. The second event is sent once
the first is confirmed, and is accepted at its first arrival. -/
theorem head_of_line_custody_sample :
    let before : List Act := [
      .sender (AcceptedLog.sampleAccept 1 5 "x" 10 none [10, 20, 30]),
      .sender (AcceptedLog.sampleAccept 1 6 "y" 10 none [10, 20, 30]),
      .sender (.collect 20 4 fun _ => true),
      .arrive (AcceptedLog.sampleWire 1 5 "x") fun _ => true,
      .sender (.perform (.confirm (AcceptedLog.sampleId 1 5 "x") 20) fun _ => true),
      .sender (.collect 20 4 fun _ => true)]
    let world := final (World.step AcceptedLog.sampleCrypto 20)
      (World.start AcceptedLog.sampleLog (sampleGuard 4)) before
    (world.step AcceptedLog.sampleCrypto 20
        (.arrive (AcceptedLog.sampleWire 1 6 "y") fun _ => true)).1 =
      .arrived (AcceptedLog.sampleWire 1 6 "y") (.ok .accepted) := by
  intro before world
  have hallowed : ∀ v ∈ stepsOf AcceptedLog.sampleCrypto 20
      (World.start AcceptedLog.sampleLog (sampleGuard 4))
      (before ++ [.arrive (AcceptedLog.sampleWire 1 6 "y") fun _ => true]),
      Allowed AcceptedLog.sampleCrypto 20 v.before.history v.input v.output := by decide +kernel
  have hlog : EventLog.init AcceptedLog.sampleConfig = some AcceptedLog.sampleLog := by
    decide +kernel
  have hfirst : ∀ u ∈ stepsOf AcceptedLog.sampleCrypto 20
      (World.start AcceptedLog.sampleLog (sampleGuard 4)) before,
      u.output ≠ .arrived (AcceptedLog.sampleWire 1 6 "y") (.ok .accepted) := by decide +kernel
  have hroom : ¬ world.receiver.config.maxOrigins ≤ world.receiver.count := by decide +kernel
  have hcustody := head_of_line_custody AcceptedLog.sampleCrypto 20 hlog
    (show Guard.init ⟨1, 4⟩ = some (sampleGuard 4) from rfl) _ hallowed (visits_append _ before _)
  unfold world at hroom ⊢
  dsimp only at hcustody
  rcases hcustody.1 _ _ rfl hfirst with hok | ⟨-, -, -, -, hfull⟩ | ⟨-, n, hn⟩
  · exact hok
  · exact absurd hfull hroom
  · cases hn

/-- The frame whose arrival is reported. -/
def Report.frame : Report → Option Bytes
  | .sender _ => none
  | .arrived wire _ => some wire
  | .rejected wire => some wire

/-- A receiver with room for one origin refuses the first arrival of an event of a
second origin. -/
theorem first_arrival_refused :
    let world := World.start AcceptedLog.sampleLog (sampleGuard 1)
    let before : List Act := [
      .sender (AcceptedLog.sampleAccept 1 5 "x" 10 none [10, 20]),
      .sender (AcceptedLog.sampleAccept 2 5 "y" 10 none [10, 20]),
      .sender (.collect 20 2 fun _ => true), .arrive (AcceptedLog.sampleWire 1 5 "x") fun _ => true]
    let first : Act := .arrive (AcceptedLog.sampleWire 2 5 "y") fun _ => true
    (∀ v ∈ stepsOf AcceptedLog.sampleCrypto 20 world (before ++ [first]),
      Allowed AcceptedLog.sampleCrypto 20 v.before.history v.input v.output) ∧
    (∀ v ∈ stepsOf AcceptedLog.sampleCrypto 20 world before,
      v.output.frame ≠ some (AcceptedLog.sampleWire 2 5 "y")) ∧
    ((final (World.step AcceptedLog.sampleCrypto 20) world before).step AcceptedLog.sampleCrypto 20
      first).1 = .arrived (AcceptedLog.sampleWire 2 5 "y") (.ok .originCapacity) := by
  decide +kernel

end OnyxServer.Delivery
