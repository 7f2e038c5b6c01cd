import OnyxServer.Lib.Sorted
import OnyxServer.Lib.Wire
import Mathlib.Data.List.AList

/-!
# The replay guard

Per origin key the guard retains the greatest `windowSize` pairs `(hlc, relayId)`
in ascending HLC order, and a watermark below which nothing is ever live again.
Every fallible reservation is answered by an allocator, asked in program order;
the definitions follow `relay_v2_replay_guard.zig`.
-/
namespace OnyxServer.ReplayGuard

open Lib

abbrev PublicKey := FixedBytes 32
abbrev RelayId := FixedBytes 16

def hardMaxWindowSize : Nat := 4096
def hardMaxOrigins : Nat := 65536
def hardMaxCheckpointBytes : Nat := 64 * 1024 * 1024

structure Config where
  windowSize : Nat
  maxOrigins : Nat
  deriving DecidableEq

def Config.valid (config : Config) : Bool :=
  decide (0 < config.windowSize) && decide (config.windowSize ≤ hardMaxWindowSize) &&
    decide (0 < config.maxOrigins) && decide (config.maxOrigins ≤ hardMaxOrigins)

inductive Decision where
  | accepted
  | duplicate
  | equivocation
  | retired
  | originCapacity
  deriving DecidableEq

inductive AllocError where
  | outOfMemory
  deriving DecidableEq

structure Entry where
  hlc : UInt64
  relayId : RelayId
  deriving DecidableEq

structure OriginState where
  retiredThroughHlc : Option UInt64
  entries : List Entry
  deriving DecidableEq

/-- The origin table is a finite map; its iteration order is the order of the
association list and nothing below depends on it. -/
structure Guard where
  config : Config
  origins : AList fun _ : PublicKey => OriginState

def Guard.init (config : Config) : Option Guard :=
  if config.valid then some { config, origins := ∅ } else none

def Guard.count (guard : Guard) : Nat := guard.origins.entries.length

/-- The watermark covers `hlc`. -/
def retires : Option UInt64 → UInt64 → Bool
  | none, _ => false
  | some watermark, hlc => decide (hlc ≤ watermark)

def advanceWatermark (origin : OriginState) (hlc : UInt64) : OriginState :=
  match origin.retiredThroughHlc with
  | none => { origin with retiredThroughHlc := some hlc }
  | some watermark =>
    if watermark < hlc then { origin with retiredThroughHlc := some hlc } else origin

def lowerBound (entries : List Entry) (hlc : UInt64) : Nat :=
  partitionPoint (fun entry => decide (entry.hlc < hlc)) entries

def insertAssumeCapacity (entries : List Entry) (index : Nat) (entry : Entry) : List Entry :=
  insertShift entries index entry

def admitKnown (config : Config) (origin : OriginState) (hlc : UInt64) (relayId : RelayId)
    (alloc : Allocator) : Except AllocError Decision × OriginState :=
  if retires origin.retiredThroughHlc hlc then (.ok .retired, origin)
  else
    let index := lowerBound origin.entries hlc
    match origin.entries[index]?.filter (fun entry => decide (entry.hlc = hlc)) with
    | some entry =>
      (.ok (if entry.relayId = relayId then .duplicate else .equivocation), origin)
    | none =>
      if origin.entries.length < config.windowSize then
        if alloc 0 then
          (.ok .accepted,
            { origin with entries := insertAssumeCapacity origin.entries index ⟨hlc, relayId⟩ })
        else (.error .outOfMemory, origin)
      else if index = 0 then (.ok .retired, advanceWatermark origin hlc)
      else
        match origin.entries.head? with
        | some oldest =>
          -- The boundary moves before the oldest entry leaves the window.
          (.ok .accepted,
            { advanceWatermark origin oldest.hlc with
              entries := rotateInsert origin.entries (index - 1) ⟨hlc, relayId⟩ })
        | none => (.ok .retired, origin)

def Guard.admit (guard : Guard) (pubkey : PublicKey) (hlc : UInt64) (relayId : RelayId)
    (alloc : Allocator) : Except AllocError Decision × Guard :=
  match guard.origins.lookup pubkey with
  | some origin =>
    let known := admitKnown guard.config origin hlc relayId alloc
    (known.1, { guard with origins := guard.origins.insert pubkey known.2 })
  | none =>
    if guard.config.maxOrigins ≤ guard.count then (.ok .originCapacity, guard)
    else if !alloc 0 then (.error .outOfMemory, guard)
    else if !alloc 1 then (.error .outOfMemory, guard)
    else
      (.ok .accepted,
        { guard with
          origins := guard.origins.insert pubkey
            { retiredThroughHlc := none, entries := [⟨hlc, relayId⟩] } })

/-!
## What one admission can do

`Wf` is the representation invariant of an origin: between one and `windowSize`
entries, strictly ascending, all above the watermark. Under it `KnownStep` lists
every outcome of `admitKnown` with the exact next state.
-/

/-- Strictly above an optional watermark. -/
def Above (watermark : Option UInt64) (hlc : UInt64) : Prop := ∀ w, watermark = some w → w < hlc

variable {hlc : UInt64}

theorem above_of_not_retires {watermark : Option UInt64}
    (h : retires watermark hlc = false) : Above watermark hlc := by
  intro w hw
  subst hw
  simpa [retires] using h

theorem not_retires_of_above {watermark : Option UInt64}
    (h : Above watermark hlc) : retires watermark hlc = false := by
  cases watermark with
  | none => rfl
  | some w => simpa [retires] using h w rfl

theorem Config.valid_iff {config : Config} : config.valid = true ↔
    (0 < config.windowSize ∧ config.windowSize ≤ hardMaxWindowSize) ∧
      0 < config.maxOrigins ∧ config.maxOrigins ≤ hardMaxOrigins := by
  simp [Config.valid, and_assoc]

structure OriginState.Wf (windowSize : Nat) (origin : OriginState) : Prop where
  nonempty : 1 ≤ origin.entries.length
  bounded : origin.entries.length ≤ windowSize
  ascending : Ascending Entry.hlc origin.entries
  above : ∀ entry ∈ origin.entries, Above origin.retiredThroughHlc entry.hlc

structure Guard.Wf (guard : Guard) : Prop where
  valid : guard.config.valid = true
  capacity : guard.count ≤ guard.config.maxOrigins
  origins : ∀ pubkey origin, guard.origins.lookup pubkey = some origin →
    origin.Wf guard.config.windowSize

/-- Every outcome of an admission at a known origin. -/
inductive KnownStep (windowSize : Nat) (origin : OriginState) (hlc : UInt64) (relayId : RelayId) :
    Except AllocError Decision → OriginState → Prop
  | below (h : ¬ Above origin.retiredThroughHlc hlc) :
    KnownStep windowSize origin hlc relayId (.ok .retired) origin
  | retained (entry : Entry) (hmem : entry ∈ origin.entries) (hhlc : entry.hlc = hlc) :
    KnownStep windowSize origin hlc relayId
      (.ok (if entry.relayId = relayId then .duplicate else .equivocation)) origin
  | noMemory (hroom : origin.entries.length < windowSize)
      (habove : Above origin.retiredThroughHlc hlc)
      (hnew : ∀ entry ∈ origin.entries, entry.hlc ≠ hlc) :
    KnownStep windowSize origin hlc relayId (.error .outOfMemory) origin
  | grow (l r : List Entry) (hsplit : origin.entries = l ++ r)
      (hroom : origin.entries.length < windowSize) (habove : Above origin.retiredThroughHlc hlc)
      (hl : ∀ entry ∈ l, entry.hlc < hlc) (hr : ∀ entry ∈ r, hlc < entry.hlc) :
    KnownStep windowSize origin hlc relayId (.ok .accepted)
      { origin with entries := l ++ ⟨hlc, relayId⟩ :: r }
  | tooOld (hfull : windowSize ≤ origin.entries.length)
      (habove : Above origin.retiredThroughHlc hlc)
      (hall : ∀ entry ∈ origin.entries, hlc < entry.hlc) :
    KnownStep windowSize origin hlc relayId (.ok .retired)
      { origin with retiredThroughHlc := some hlc }
  | evict (oldest : Entry) (l r : List Entry) (hsplit : origin.entries = oldest :: (l ++ r))
      (hfull : windowSize ≤ origin.entries.length)
      (habove : Above origin.retiredThroughHlc hlc) (hold : oldest.hlc < hlc)
      (hl : ∀ entry ∈ l, entry.hlc < hlc) (hr : ∀ entry ∈ r, hlc < entry.hlc) :
    KnownStep windowSize origin hlc relayId (.ok .accepted)
      { retiredThroughHlc := some oldest.hlc, entries := l ++ ⟨hlc, relayId⟩ :: r }

theorem advanceWatermark_of_above {origin : OriginState}
    (h : Above origin.retiredThroughHlc hlc) :
    advanceWatermark origin hlc = { origin with retiredThroughHlc := some hlc } := by
  unfold advanceWatermark
  split
  · rfl
  · rename_i w hw
    rw [if_pos (h w hw)]

theorem admitKnown_step {config : Config} {origin : OriginState}
    (hwf : origin.Wf config.windowSize) (hlc : UInt64) (relayId : RelayId) (alloc : Allocator) :
    KnownStep config.windowSize origin hlc relayId
      (admitKnown config origin hlc relayId alloc).1
      (admitKnown config origin hlc relayId alloc).2 := by
  unfold admitKnown
  by_cases hret : retires origin.retiredThroughHlc hlc = true
  · rw [if_pos hret]
    refine .below (fun h => ?_)
    rw [not_retires_of_above h] at hret
    cases hret
  have habove := above_of_not_retires (Bool.not_eq_true _ ▸ hret)
  rw [if_neg hret]
  rcases hwf.ascending.locate hlc with
    ⟨l, x, r, hxs, hx, hlb, -, -⟩ | ⟨l, r, hxs, hlb, hl, hr⟩
  · have hget : origin.entries[lowerBound origin.entries hlc]? = some x := by
      rw [lowerBound, hlb, hxs]; simp
    simp only [hget, Option.filter_some, hx, decide_true, ↓reduceIte]
    exact .retained x (by rw [hxs]; simp) hx
  have hnone : origin.entries[lowerBound origin.entries hlc]?.filter
      (fun entry => decide (entry.hlc = hlc)) = none := by
    rw [lowerBound, hlb, hxs]
    cases r with
    | nil => simp
    | cons y r =>
      have hy := (hr y List.mem_cons_self).ne'
      simp [hy]
  have hnew : ∀ entry ∈ origin.entries, entry.hlc ≠ hlc := by
    intro entry hmem
    rw [hxs] at hmem
    rcases List.mem_append.mp hmem with hmem | hmem
    · exact (hl entry hmem).ne
    · exact (hr entry hmem).ne'
  simp only [hnone]
  by_cases hroom : origin.entries.length < config.windowSize
  · rw [if_pos hroom]
    by_cases ha : alloc 0 = true
    · rw [if_pos ha]
      have hins : insertAssumeCapacity origin.entries (lowerBound origin.entries hlc)
          ⟨hlc, relayId⟩ = l ++ ⟨hlc, relayId⟩ :: r := by
        rw [insertAssumeCapacity, lowerBound, hlb, hxs, insertShift_append]
      rw [hins]
      exact .grow l r hxs hroom habove hl hr
    · rw [if_neg ha]
      exact .noMemory hroom habove hnew
  · rw [if_neg hroom]
    cases l with
    | nil =>
      have hzero : lowerBound origin.entries hlc = 0 := hlb
      rw [if_pos hzero, advanceWatermark_of_above habove]
      exact .tooOld (by omega) habove (by simpa [hxs] using hr)
    | cons oldest l =>
      have hpos : lowerBound origin.entries hlc = l.length + 1 := hlb
      have hmem : oldest ∈ origin.entries := by rw [hxs]; simp
      have hhead : origin.entries.head? = some oldest := by rw [hxs]; rfl
      have hrot : rotateInsert origin.entries (lowerBound origin.entries hlc - 1)
          ⟨hlc, relayId⟩ = l ++ ⟨hlc, relayId⟩ :: r := by
        rw [hpos, Nat.add_sub_cancel, hxs, List.cons_append, rotateInsert_append]
      rw [if_neg (by omega), hhead]
      simp only [hrot, advanceWatermark_of_above (hwf.above oldest hmem)]
      exact .evict oldest l r hxs (by omega) habove (hl oldest List.mem_cons_self)
        (fun e he => hl e (List.mem_cons_of_mem _ he)) hr

/-! ## The invariant over one admission -/

variable {answer : Except AllocError Decision}

theorem KnownStep.wf {windowSize : Nat} {origin next : OriginState}
    {relayId : RelayId} (hwf : origin.Wf windowSize)
    (hs : KnownStep windowSize origin hlc relayId answer next) : next.Wf windowSize := by
  cases hs with
  | below => exact hwf
  | retained => exact hwf
  | noMemory => exact hwf
  | grow l r hsplit hroom habove hl hr =>
    have hlen : origin.entries.length = l.length + r.length := by rw [hsplit]; simp
    have hasc := hwf.ascending
    rw [hsplit] at hasc
    refine ⟨by simp; omega, by simp; omega, hasc.insert hl hr, fun entry hmem => ?_⟩
    rcases List.mem_append.mp hmem with hmem | hmem
    · exact hwf.above entry (by rw [hsplit]; exact List.mem_append_left _ hmem)
    · rcases List.mem_cons.mp hmem with rfl | hmem
      · exact habove
      · exact hwf.above entry (by rw [hsplit]; exact List.mem_append_right _ hmem)
  | tooOld hfull habove hall =>
    refine ⟨hwf.nonempty, hwf.bounded, hwf.ascending, fun entry hmem w hw => ?_⟩
    cases hw
    exact hall entry hmem
  | evict oldest l r hsplit hfull habove hold hl hr =>
    have hlen : origin.entries.length = l.length + r.length + 1 := by rw [hsplit]; simp
    have hasc := hwf.ascending
    rw [hsplit] at hasc
    obtain ⟨holdest, hrest⟩ := ascending_cons.mp hasc
    refine ⟨by simp; omega, ?_, hrest.insert hl hr, fun entry hmem w hw => ?_⟩
    · have hb := hwf.bounded
      simp only [List.length_append, List.length_cons]
      omega
    · cases hw
      rcases List.mem_append.mp hmem with hmem | hmem
      · exact holdest entry (List.mem_append_left _ hmem)
      · rcases List.mem_cons.mp hmem with rfl | hmem
        · exact hold
        · exact holdest entry (List.mem_append_right _ hmem)

/-- Every outcome of an admission at the guard. Origins other than the admitted
key are untouched, and no origin is ever dropped. -/
inductive GuardStep (guard : Guard) (pubkey : PublicKey) (hlc : UInt64) (relayId : RelayId) :
    Except AllocError Decision → Guard → Prop
  | known (origin next : OriginState) (answer : Except AllocError Decision)
      (hlookup : guard.origins.lookup pubkey = some origin)
      (hs : KnownStep guard.config.windowSize origin hlc relayId answer next) :
    GuardStep guard pubkey hlc relayId answer
      { guard with origins := guard.origins.insert pubkey next }
  | capacity (hlookup : guard.origins.lookup pubkey = none)
      (hfull : guard.config.maxOrigins ≤ guard.count) :
    GuardStep guard pubkey hlc relayId (.ok .originCapacity) guard
  | noMemory (hlookup : guard.origins.lookup pubkey = none) :
    GuardStep guard pubkey hlc relayId (.error .outOfMemory) guard
  | fresh (hlookup : guard.origins.lookup pubkey = none)
      (hroom : guard.count < guard.config.maxOrigins) :
    GuardStep guard pubkey hlc relayId (.ok .accepted)
      { guard with
        origins := guard.origins.insert pubkey
          { retiredThroughHlc := none, entries := [⟨hlc, relayId⟩] } }

theorem admit_step {guard : Guard} (hwf : guard.Wf) (pubkey : PublicKey) (hlc : UInt64)
    (relayId : RelayId) (alloc : Allocator) :
    let admitted := Guard.admit guard pubkey hlc relayId alloc
    GuardStep guard pubkey hlc relayId admitted.1 admitted.2 := by
  unfold Guard.admit
  cases hlookup : guard.origins.lookup pubkey with
  | some origin =>
    exact .known origin _ _ hlookup
      (admitKnown_step (hwf.origins pubkey origin hlookup) hlc relayId alloc)
  | none =>
    simp only
    split
    · rename_i hfull
      exact .capacity hlookup hfull
    rename_i hroom
    split
    · exact .noMemory hlookup
    · split
      · exact .noMemory hlookup
      · exact .fresh hlookup (by omega)

variable {pubkey : PublicKey}

theorem count_insert_known {guard : Guard} {origin : OriginState}
    (h : guard.origins.lookup pubkey = some origin) (next : OriginState) :
    (guard.origins.insert pubkey next).entries.length = guard.count := by
  have hmem : pubkey ∈ guard.origins := AList.lookup_isSome.mp (by rw [h]; rfl)
  have hnd := (AList.insert pubkey next guard.origins).keys_nodup
  have hperm : (AList.insert pubkey next guard.origins).keys.Perm guard.origins.keys :=
    (List.perm_ext_iff_of_nodup hnd guard.origins.keys_nodup).mpr (fun key => by
      rw [← AList.mem_keys, ← AList.mem_keys, AList.mem_insert]
      exact ⟨fun h => h.elim (fun he => he ▸ hmem) id, Or.inr⟩)
  simpa [AList.keys, List.keys, Guard.count] using hperm.length_eq

theorem count_insert_new {guard : Guard}
    (h : guard.origins.lookup pubkey = none) (next : OriginState) :
    (guard.origins.insert pubkey next).entries.length = guard.count + 1 := by
  rw [AList.entries_insert_of_notMem (AList.lookup_eq_none.mp h)]
  rfl

theorem GuardStep.config {guard next : Guard}
    {relayId : RelayId}
    (hs : GuardStep guard pubkey hlc relayId answer next) : next.config = guard.config := by
  cases hs <;> rfl

theorem GuardStep.wf {guard next : Guard}
    {relayId : RelayId} (hwf : guard.Wf)
    (hs : GuardStep guard pubkey hlc relayId answer next) : next.Wf := by
  cases hs with
  | known origin state answer hlookup hk =>
    refine ⟨hwf.valid, ?_, fun key st hst => ?_⟩
    · exact (count_insert_known hlookup state).trans_le hwf.capacity
    · by_cases hkey : key = pubkey
      · subst hkey
        rw [AList.lookup_insert] at hst
        cases hst
        exact hk.wf (hwf.origins key origin hlookup)
      · rw [AList.lookup_insert_ne hkey] at hst
        exact hwf.origins key st hst
  | capacity => exact hwf
  | noMemory => exact hwf
  | fresh hlookup hroom =>
    refine ⟨hwf.valid, (count_insert_new hlookup _).trans_le hroom, fun key st hst => ?_⟩
    by_cases hkey : key = pubkey
    · subst hkey
      rw [AList.lookup_insert] at hst
      cases hst
      refine ⟨Nat.le_refl 1, (Config.valid_iff.mp hwf.valid).1.1, List.pairwise_singleton _ _, ?_⟩
      intro entry _ w hw
      cases hw
    · rw [AList.lookup_insert_ne hkey] at hst
      exact hwf.origins key st hst

theorem init_wf {config : Config} {guard : Guard} (h : Guard.init config = some guard) :
    guard.Wf := by
  unfold Guard.init at h
  split at h
  · cases h
    rename_i hv
    refine ⟨hv, Nat.zero_le _, fun key st hst => ?_⟩
    rw [AList.lookup_empty] at hst
    cases hst
  · cases h

end OnyxServer.ReplayGuard
