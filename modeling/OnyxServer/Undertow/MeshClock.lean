import Mathlib.Data.List.Induction
import Mathlib.Order.MinMax
import OnyxServer.Lib.Saturating
import OnyxServer.Lib.Trace

/-!
# The mesh clock

`mesh_clock.zig`: the hybrid logical clock that stamps what a node says. A stamp has the
milliseconds of the wall clock above sixteen bits of the caller's sequence.
-/
namespace OnyxServer.Undertow

open Lib

def seqMask : UInt64 := 0xffff

inductive ObserveError where
  | futureSkew
  | clockExhausted
  deriving DecidableEq

structure MeshClock where
  lastPhysical : UInt64 := 0
  lastStamp : UInt64 := 0
  deriving DecidableEq

namespace MeshClock

def physicalOf (hlc : UInt64) : UInt64 := hlc >>> 16

def stamp (clock : MeshClock) (wallMs seq : UInt64) : UInt64 × MeshClock :=
  let physical := if clock.lastPhysical < wallMs then wallMs else clock.lastPhysical
  let candidate := (physical <<< 16) ||| (seq &&& seqMask)
  if candidate ≤ clock.lastStamp then
    let next := satAdd clock.lastStamp 1
    (next, ⟨physicalOf next, next⟩)
  else (candidate, ⟨physical, candidate⟩)

def observeChecked (clock : MeshClock) (remoteStamp nowMs maxFutureSkewMs : UInt64) :
    Except ObserveError Unit × MeshClock :=
  if clock.lastStamp.toNat = maxU64 ∨
    remoteStamp.toNat = maxU64 then (.error .clockExhausted, clock)
  else if satAdd nowMs maxFutureSkewMs < physicalOf remoteStamp then (.error .futureSkew, clock)
  else
    let lastStamp := if clock.lastStamp < remoteStamp then remoteStamp else clock.lastStamp
    (.ok (), ⟨max clock.lastPhysical (physicalOf lastStamp), lastStamp⟩)

inductive Call where
  | stamp (wallMs seq : UInt64)
  | observeChecked (remoteStamp nowMs maxFutureSkewMs : UInt64)

inductive Answer where
  | stamped (hlc : UInt64)
  | observed (outcome : Except ObserveError Unit)

def step (clock : MeshClock) : Call → Answer × MeshClock
  | .stamp wallMs seq =>
    let issued := clock.stamp wallMs seq
    (.stamped issued.1, issued.2)
  | .observeChecked remoteStamp nowMs maxFutureSkewMs =>
    let outcome := clock.observeChecked remoteStamp nowMs maxFutureSkewMs
    (.observed outcome.1, outcome.2)

theorem physicalOf_toNat (hlc : UInt64) : (physicalOf hlc).toNat = hlc.toNat / 65536 := by
  rw [physicalOf, UInt64.toNat_shiftRight]
  exact Nat.shiftRight_eq_div_pow _ 16

theorem candidate_toNat {physical : UInt64} (seq : UInt64) (h : physical.toNat < 2 ^ 48) :
    ((physical <<< 16) ||| (seq &&& seqMask)).toNat =
      physical.toNat * 65536 + seq.toNat % 65536 := by
  have hseq : (seq &&& seqMask).toNat = seq.toNat % 65536 :=
    Nat.and_two_pow_sub_one_eq_mod seq.toNat 16
  have hphysical : (physical <<< 16).toNat = physical.toNat <<< 16 := by
    rw [UInt64.toNat_shiftLeft]
    refine Nat.mod_eq_of_lt ?_
    change physical.toNat <<< 16 < 2 ^ 64
    rw [Nat.shiftLeft_eq]
    omega
  rw [UInt64.toNat_or, hphysical, hseq, ← Nat.shiftLeft_add_eq_or_of_lt (Nat.mod_lt _ (by decide)),
    Nat.shiftLeft_eq]

/-- The physical high-water mark is not below the one of the stamps. -/
structure Ordered (clock : MeshClock) : Prop where
  physical : (physicalOf clock.lastStamp).toNat ≤ clock.lastPhysical.toNat
  fits : clock.lastPhysical.toNat < 2 ^ 48

variable {clock : MeshClock} {wallMs nowMs maxFutureSkewMs : UInt64}

/-- A stamp is new, and takes the physical mark at most one above the wall clock. -/
theorem stamp_spec (h : clock.Ordered) (hwall : wallMs.toNat < 2 ^ 48)
    (hopen : clock.lastStamp.toNat < maxU64) (seq : UInt64) :
    clock.lastStamp < (clock.stamp wallMs seq).1 ∧
      (clock.stamp wallMs seq).2.lastStamp = (clock.stamp wallMs seq).1 ∧
      (clock.stamp wallMs seq).2.Ordered ∧
      (clock.stamp wallMs seq).2.lastPhysical.toNat ≤
        max clock.lastPhysical.toNat wallMs.toNat + 1 := by
  obtain ⟨hphysical, hfits⟩ := h
  rw [physicalOf_toNat] at hphysical
  unfold stamp
  generalize hp : (if clock.lastPhysical < wallMs then wallMs else clock.lastPhysical) = physical
  have hmax : physical.toNat = max clock.lastPhysical.toNat wallMs.toNat := by
    rw [← hp]
    simp only [UInt64.lt_iff_toNat_lt]
    split <;> omega
  have hcandidate := candidate_toNat seq (show physical.toNat < 2 ^ 48 by omega)
  have hnext : (satAdd clock.lastStamp 1).toNat = clock.lastStamp.toNat + 1 := by
    rw [satAdd_toNat]
    exact Nat.min_eq_left hopen
  simp only [UInt64.le_iff_toNat_le, hcandidate]
  split
  · next hold =>
    have hle := physicalOf_toNat (satAdd clock.lastStamp 1)
    refine ⟨?_, rfl, ⟨Nat.le_refl _, ?_⟩, ?_⟩
    · rw [UInt64.lt_iff_toNat_lt, hnext]
      exact Nat.lt_succ_self _
    · have := UInt64.toNat_lt (satAdd clock.lastStamp 1)
      simp only [hle]
      omega
    · simp only [hle, hnext]
      omega
  · next hnew =>
    refine ⟨?_, rfl, ⟨?_, ?_⟩, ?_⟩
    · rw [UInt64.lt_iff_toNat_lt, hcandidate]
      omega
    · simp only [physicalOf_toNat, hcandidate]
      omega
    · simp only
      omega
    · simp only
      omega

/-- An observation that is rejected changes nothing; one that is accepted is below the mark. -/
theorem observeChecked_spec (h : clock.Ordered)
    (hsum : nowMs.toNat + maxFutureSkewMs.toNat < 2 ^ 48) (remoteStamp : UInt64) :
    (∃ e, clock.observeChecked remoteStamp nowMs maxFutureSkewMs = (.error e, clock)) ∨
      ∃ after, clock.observeChecked remoteStamp nowMs maxFutureSkewMs = (.ok (), after) ∧
        clock.lastStamp ≤ after.lastStamp ∧ remoteStamp ≤ after.lastStamp ∧ after.Ordered ∧
        after.lastPhysical.toNat ≤
          max clock.lastPhysical.toNat (nowMs.toNat + maxFutureSkewMs.toNat) := by
  obtain ⟨hphysical, hfits⟩ := h
  unfold observeChecked
  split
  · exact .inl ⟨_, rfl⟩
  split
  · exact .inl ⟨_, rfl⟩
  next hnear =>
    refine .inr ⟨_, rfl, ?_⟩
    rw [UInt64.lt_iff_toNat_lt, satAdd_toNat] at hnear
    generalize hlast : (if clock.lastStamp < remoteStamp then remoteStamp else clock.lastStamp) =
      last
    have hstamps : clock.lastStamp ≤ last ∧ remoteStamp ≤ last ∧
        (last = remoteStamp ∨ last = clock.lastStamp) := by
      rw [← hlast]
      split
      · next hlt => exact ⟨UInt64.le_of_lt hlt, UInt64.le_refl _, .inl rfl⟩
      · next hle => exact ⟨UInt64.le_refl _, UInt64.not_lt.mp hle, .inr rfl⟩
    have hmax : (max clock.lastPhysical (physicalOf last)).toNat =
        max clock.lastPhysical.toNat (physicalOf last).toNat :=
      Monotone.map_max (f := UInt64.toNat) fun _ _ hle => UInt64.le_iff_toNat_le.mp hle
    have hbound : (physicalOf last).toNat ≤
        max clock.lastPhysical.toNat (nowMs.toNat + maxFutureSkewMs.toNat) := by
      rcases hstamps.2.2 with rfl | rfl
      · omega
      · omega
    refine ⟨hstamps.1, hstamps.2.1, ⟨?_, ?_⟩, ?_⟩
    · simp only [hmax]
      exact Nat.le_max_right _ _
    · simp only [hmax]
      omega
    · simp only [hmax]
      omega

/-- The readings that the clock is meant for. -/
def Call.Sane : Call → Prop
  | .stamp wallMs _ => wallMs.toNat < 2 ^ 48
  | .observeChecked _ nowMs maxFutureSkewMs => nowMs.toNat + maxFutureSkewMs.toNat < 2 ^ 48

abbrev Visited := Visit MeshClock Call Answer

/-- The stamp that a call returns, or accepts. -/
def carried (v : Visited) : Option UInt64 :=
  match v.input, v.output with
  | .stamp _ _, .stamped hlc => some hlc
  | .observeChecked remoteStamp _ _, .observed (.ok _) => some remoteStamp
  | _, _ => none

/-- The wall clock of a stamp, or the latest instant that an accepted observation allowed. -/
def instant (v : Visited) : Nat :=
  match v.input, v.output with
  | .stamp wallMs _, _ => wallMs.toNat
  | .observeChecked _ nowMs maxFutureSkewMs, .observed (.ok _) =>
      nowMs.toNat + maxFutureSkewMs.toNat
  | _, _ => 0

def latest (past : List Visited) : Nat := (past.map instant).foldl max 0

def issued (past : List Visited) : Nat :=
  past.countP fun v => match v.input with
    | .stamp _ _ => true
    | .observeChecked _ _ _ => false

/-- What the clock knows of its past. -/
structure Causal (past : List Visited) (clock : MeshClock) : Prop where
  ordered : clock.Ordered
  above : ∀ v ∈ past, ∀ hlc, carried v = some hlc → hlc ≤ clock.lastStamp
  bounded : clock.lastPhysical.toNat ≤ latest past + issued past

variable {past : List Visited} {call : Call}

theorem Causal.step (h : Causal past clock) (hsane : call.Sane)
    (hopen : clock.lastStamp.toNat < maxU64) :
    Causal (past ++ [⟨clock, call, (step clock call).1, (step clock call).2⟩])
    (MeshClock.step clock call).2 := by
  obtain ⟨hordered, habove, hbounded⟩ := h
  have hlatest (v : Visited) : latest (past ++ [v]) = max (latest past) (instant v) := by
    rw [latest, List.map_append, List.foldl_append]
    rfl
  cases call with
  | stamp wallMs seq =>
    obtain ⟨hlt, hlast, hnext, hphysical⟩ := stamp_spec hordered hsane hopen seq
    refine ⟨hnext, ?_, ?_⟩
    · intro v hv hlc hcarried
      rcases List.mem_append.mp hv with hv | hv
      · have hold := habove v hv hlc hcarried
        exact UInt64.le_trans hold (UInt64.le_of_lt (hlast ▸ hlt))
      · obtain rfl := List.mem_singleton.mp hv
        cases hcarried
        exact UInt64.le_of_eq hlast.symm
    · rw [hlatest, issued, List.countP_append]
      change _ ≤ max (latest past) wallMs.toNat + (issued past + 1)
      exact hphysical.trans (by omega)
  | observeChecked remoteStamp nowMs maxFutureSkewMs =>
    rcases observeChecked_spec hordered hsane remoteStamp with
      ⟨e, heq⟩ | ⟨after, heq, hle, hremote, hnext, hphysical⟩
    · simp only [MeshClock.step, heq]
      refine ⟨hordered, ?_, ?_⟩
      · intro v hv hlc hcarried
        rcases List.mem_append.mp hv with hv | hv
        · exact habove v hv hlc hcarried
        · obtain rfl := List.mem_singleton.mp hv
          cases hcarried
      · rw [hlatest, issued, List.countP_append]
        exact hbounded.trans (Nat.add_le_add (Nat.le_max_left _ _) (Nat.le_add_right _ _))
    · simp only [MeshClock.step, heq]
      refine ⟨hnext, ?_, ?_⟩
      · intro v hv hlc hcarried
        rcases List.mem_append.mp hv with hv | hv
        · exact UInt64.le_trans (habove v hv hlc hcarried) hle
        · obtain rfl := List.mem_singleton.mp hv
          cases hcarried
          exact hremote
      · rw [hlatest, issued, List.countP_append]
        change _ ≤ max (latest past) (nowMs.toNat + maxFutureSkewMs.toNat) + (issued past + 0)
        omega

theorem run_causal (calls : List Call) (hcalls : ∀ call ∈ calls, call.Sane)
    (hopen : ∀ v ∈ visits step {} calls, v.before.lastStamp.toNat < maxU64) :
    Causal (visits step {} calls) (final step {} calls) := by
  induction calls using List.reverseRecOn with
  | nil => exact ⟨⟨Nat.le_refl _, by decide⟩, nofun, Nat.zero_le _⟩
  | append_singleton calls call ih =>
    rw [visits_append] at hopen ⊢
    rw [final_append]
    have hbefore := ih (fun c hc => hcalls c (List.mem_append_left _ hc)) fun v hv =>
      hopen v (List.mem_append_left _ hv)
    exact hbefore.step (hcalls call (List.mem_append_right _ (List.mem_singleton_self _)))
      (hopen _ (List.mem_append_right _ (List.mem_singleton_self _)))

/-- A stamp is above every stamp returned or accepted before it, and its physical part is at most
the latest reading so far and one more for each stamp issued. A rejected observation changes
nothing, and the physical mark is never below the stamps. -/
theorem causal_clock (calls : List Call) (hcalls : ∀ call ∈ calls, call.Sane)
    (hopen : ∀ v ∈ visits step {} calls, v.before.lastStamp.toNat < maxU64) :
    ∀ earlier v later, visits step {} calls = earlier ++ v :: later →
      (∀ hlc, v.output = .stamped hlc →
        (∀ u ∈ earlier, ∀ known, carried u = some known → known < hlc) ∧
        (physicalOf hlc).toNat ≤ latest (earlier ++ [v]) + issued (earlier ++ [v])) ∧
      (∀ e, v.output = .observed (.error e) → v.after = v.before) ∧
      (physicalOf v.after.lastStamp).toNat ≤ v.after.lastPhysical.toNat := by
  intro earlier v later hsplit
  have hin : ∀ u ∈ earlier ++ v :: later, u ∈ visits step {} calls := fun u hu => hsplit ▸ hu
  have hv : v ∈ earlier ++ v :: later := List.mem_append_right _ List.mem_cons_self
  have hstep := visit_step (hin v hv)
  have hsane := hcalls v.input (visits_input (hin v hv))
  have hroom := hopen v (hin v hv)
  obtain ⟨before, after, rfl, rfl, hbefore⟩ := visits_split hsplit
  have hcausal :=
    run_causal before (fun call hcall => hcalls call (List.mem_append_left _ hcall)) fun u hu =>
    hopen u (hin u (List.mem_append_left _ hu))
  obtain ⟨clock, call, output, next⟩ := v
  rw [← show clock = _ from hbefore] at hcausal
  have hnext := hcausal.step hsane hroom
  simp only at hstep
  rw [hstep] at hnext
  refine ⟨?_, ?_, hnext.ordered.physical⟩
  · rintro hlc rfl
    cases call with
    | observeChecked remoteStamp nowMs maxFutureSkewMs => cases hstep
    | stamp wallMs seq =>
      obtain ⟨hlt, hlast, -⟩ := stamp_spec hcausal.ordered hsane hroom seq
      cases hstep
      refine ⟨fun u hu known hknown => ?_, ?_⟩
      · exact UInt64.lt_of_le_of_lt (hcausal.above u hu known hknown) hlt
      · calc (physicalOf (clock.stamp wallMs seq).1).toNat
            = (physicalOf (clock.stamp wallMs seq).2.lastStamp).toNat := by rw [hlast]
          _ ≤ _ := hnext.ordered.physical.trans hnext.bounded
  · rintro e rfl
    cases call with
    | stamp wallMs seq => cases hstep
    | observeChecked remoteStamp nowMs maxFutureSkewMs =>
      rcases observeChecked_spec hcausal.ordered hsane remoteStamp with ⟨_, heq⟩ | ⟨_, heq, -⟩
      · simp only [MeshClock.step, heq] at hstep
        cases hstep
        rfl
      · simp only [MeshClock.step, heq] at hstep
        cases hstep

/-- A sequence that wraps, a peer that is ahead and a wall clock that steps back. -/
def skewedRun : List Call :=
  [.stamp 5 65535, .stamp 5 65536, .observeChecked 458755 4 10, .stamp 3 1]

theorem causal_clock_skewed :
    (∀ call ∈ skewedRun, call.Sane) ∧
      ∀ earlier v later, visits step {} skewedRun = earlier ++ v :: later →
      ∀ hlc, v.output = .stamped hlc →
        ∀ u ∈ earlier, ∀ known, carried u = some known → known < hlc := by
  have hsane : ∀ call ∈ skewedRun, call.Sane := by simp [skewedRun, Call.Sane]
  refine ⟨hsane, fun earlier v later hsplit hlc hstamped => ?_⟩
  exact ((causal_clock skewedRun hsane (by decide) earlier v later hsplit).1 hlc hstamped).1

end MeshClock

end OnyxServer.Undertow
