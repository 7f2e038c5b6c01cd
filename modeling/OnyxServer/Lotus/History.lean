import OnyxServer.Lotus.Sealed

/-!
# Histories over runs

Whatever the operations of a run and the answers of the allocator, the accounts of the store
stay exact and the store seals. The sealed bytes restore the rings of the store unless the
limit on text is zero, which a restore takes for the mark of another configuration.
-/
namespace OnyxServer.Lotus

open Lib

variable {params : Params} {blake3 : Blake3} {store : Lotus}

/-- The messages of a target, oldest first, or nothing where the target has no ring. -/
def rings (params : Params) (store : Lotus) (target : Bytes) : Option (List StoredMessage) :=
  (store.targets.lookup target).map fun log => log.view params.maxPerTarget

/-- No ring is empty, so the messages tell whether there is one. -/
theorem rings_eq (h : Wf params blake3 store) (target : Bytes) :
    rings params store target = if history params store target = [] then none
      else some (history params store target) := by
  rw [rings, history]
  cases hlookup : store.targets.lookup target with
  | none => rfl
  | some log =>
    have hpos : 0 < (log.view params.maxPerTarget).length := by
      rw [RingBuffer.length_view]
      exact h.nonempty target log hlookup (by simp)
    simp only [Option.map_some]
    rw [if_neg (List.ne_nil_of_length_pos hpos)]

/-- Accounts without fault. -/
structure Accounted (params : Params) (blake3 : Blake3) (store : Lotus) : Prop where
  counted : store.checkpointBodyLen = bodyBytes params store
  budget : checkpointHeaderLen + store.checkpointBodyLen + checkpointChecksumLen ≤
    params.maxCheckpointBytes
  ringBounds : ∀ target log, store.targets.lookup target = some log → 1 ≤ log.len ∧
    log.len ≤ params.maxPerTarget
  sealable : ∀ alloc : Allocator, alloc 0 = true →
    ∃ bytes, encodeCheckpoint params blake3 store alloc = .ok bytes

theorem Draining.accounted (h : Wf params blake3 store) : Accounted params blake3 store where
  counted := h.counted
  budget := (le_min_iff.mp (checkpointBodyFits_iff.mp h.fits)).1
  ringBounds target log hlookup :=
    ⟨h.nonempty target log hlookup nofun, (h.logs target log hlookup).lenBound⟩
  sealable alloc halloc := ⟨_, (encodeCheckpoint_eq h alloc).trans (if_pos halloc)⟩

/-- What the store seals to restores every ring of it, memory permitting. -/
def Restores (params : Params) (blake3 : Blake3) (store : Lotus) : Prop :=
  ∀ (sealing : Allocator) (bytes : Bytes), encodeCheckpoint params blake3 store sealing =
    .ok bytes →
    ∀ alloc : Allocator, (∀ site, alloc site = true) →
      ∃ restored, decodeCheckpoint params blake3 bytes alloc = .done restored ∧
        ∀ target, rings params restored target = rings params store target

theorem restores_iff (hvalid : params.valid = true) (h : Wf params blake3 store) :
    Restores params blake3 store ↔ 0 < params.maxText := by
  have hcap := (@init_wf params blake3 hvalid).2
  have htrue : ∀ site, (fun _ => true : Allocator) site = true := fun _ => rfl
  constructor
  · intro hrestores
    rw [Nat.pos_iff_ne_zero]
    intro hzero
    obtain ⟨restored, hdone, -⟩ := hrestores (fun _ => true) (sealedBytes params blake3 store)
      ((encodeCheckpoint_eq h _).trans (if_pos rfl)) (fun _ => true) htrue
    rw [(decodeCheckpoint_sealed hvalid hcap h htrue).1 hzero] at hdone
    cases hdone
  · intro hpositive sealing bytes hsealed alloc halloc
    rw [encodeCheckpoint_eq h] at hsealed
    split at hsealed
    · cases hsealed
      obtain ⟨restored, hdone, hwf, hsame⟩ :=
        (decodeCheckpoint_sealed hvalid hcap h halloc).2 hpositive
      refine ⟨restored, hdone, fun target => ?_⟩
      rw [rings_eq hwf, rings_eq h, hsame]
    · cases hsealed

/-- Every state of every run is accounted for; no operation faults, and the message that an
operation reports as inserted is the newest of its target. The restore of the sealed bytes
has the rings of the store exactly where the limit on text is positive. -/
theorem history_exact (params : Params) (blake3 : Blake3) (hvalid : params.valid = true) :
    (∀ ops, Accounted params blake3 (final (step params blake3) Lotus.init ops) ∧
      ∀ visit ∈ visits (step params blake3) Lotus.init ops,
        visit.output.Faultless ∧ Inserts params blake3 visit.input visit.output visit.after) ∧
    ((∀ ops, Restores params blake3 (final (step params blake3) Lotus.init ops)) ↔
      0 < params.maxText) := by
  obtain ⟨hinit, hcap⟩ := @init_wf params blake3 hvalid
  have hstep : ∀ s op, Wf params blake3 s → Wf params blake3 (step params blake3 s op).2 :=
    fun s op hs => (step_spec hcap hs op).1
  have hfinal : ∀ ops, Wf params blake3 (final (step params blake3) Lotus.init ops) :=
    fun ops => final_invariant hstep hinit ops
  refine ⟨fun ops => ⟨(hfinal ops).accounted, fun visit hvisit => ?_⟩,
    ⟨fun hall => ?_, fun hpositive ops => ?_⟩⟩
  · have hbefore := (visits_invariant hstep hinit hvisit).1
    have hrun := visit_step hvisit
    have hspec := (step_spec hcap hbefore visit.input).2
    rwa [hrun] at hspec
  · exact (restores_iff hvalid hinit).mp (hall [])
  · exact (restores_iff hvalid (hfinal ops)).mpr hpositive

/-- Two messages for one target, of room for one. -/
def sampleParams : Params where
  maxTargets := 1
  maxPerTarget := 1
  maxText := 2
  maxTarget := 4
  maxMsgid := 4
  maxSender := 4
  maxCommand := 4
  maxClientTags := 4
  maxCheckpointBytes := 4096

def sampleAppend (text : Bytes) : Op := .append [97] ⟨[1], [2], text, 7, [3], none⟩ fun _ => true

/-- A hash that tells no texts apart. -/
def constantHash : Blake3 := fun _ => ⟨List.replicate 32 0, by decide⟩

theorem history_exact_sample :
    (final (step sampleParams constantHash) Lotus.init [sampleAppend [5], sampleAppend [6]]).count =
      1 ∧
      Restores sampleParams constantHash
        (final (step sampleParams constantHash) Lotus.init
          [sampleAppend [5], sampleAppend [6]]) := by
  have h := history_exact sampleParams constantHash (by decide +kernel)
  exact ⟨by decide +kernel, h.2.mpr (by decide) _⟩

/-- The limits that allow only empty texts. -/
def textlessParams : Params := { sampleParams with maxText := 0 }

/-- The bytes the empty store seals to under such limits are refused as those of another
configuration. -/
theorem textless_restore_refused :
    textlessParams.valid = true ∧
      ∃ bytes, encodeCheckpoint textlessParams constantHash Lotus.init (fun _ => true) = .ok bytes ∧
        decodeCheckpoint textlessParams constantHash bytes (fun _ => true) =
          .failed .configMismatch := by
  refine ⟨by decide +kernel, sealedBytes textlessParams constantHash Lotus.init, ?_, ?_⟩
  · exact (encodeCheckpoint_eq (init_wf (by decide +kernel)).1 _).trans (if_pos rfl)
  · exact (decodeCheckpoint_sealed (by decide +kernel) (by decide)
      (init_wf (by decide +kernel)).1 fun _ => rfl).1 rfl

end OnyxServer.Lotus
