import OnyxServer.Store.TableSlots

/-!
# A table of rows as a map

A table refines a map when its slots hold it and its counters count them. Puts, deletions
and reservations of room keep a table refined, and change the map only as they answer.
-/
namespace OnyxServer.Store

open Lib List

variable {keyHash : KeyHash} {slot : Slot} {slots next : List Slot} {key value : Bytes}
    {i cap : Nat}
  {m r target : Bytes → Option Bytes} {inv : Option Work → Prop} {err : StoreError → Prop}

theorem maxLoad_lt (h : 8 ≤ cap) : maxLoad cap < cap := by
  unfold maxLoad
  omega

theorem eight_le_pow {e : Nat} (h : 3 ≤ e) : 8 ≤ 2 ^ e :=
  show 2 ^ 3 ≤ 2 ^ e from Nat.pow_le_pow_right Nat.two_pos h

theorem capacityLoop_spec {required rounds initial e : Nat} (hinitial : initial = 2 ^ e)
    (h : capacityLoop required rounds initial = some cap) :
    required ≤ maxLoad cap ∧ ∃ e' ≥ e, cap = 2 ^ e' := by
  induction rounds generalizing initial e with
  | zero => cases h
  | succ rounds ih =>
    rw [capacityLoop] at h
    split_ifs at h with hfits
    · cases h
      exact ⟨hfits, e, Nat.le_refl e, hinitial⟩
    cases hmul : checkedMul initial 2 with
    | none =>
      rw [hmul] at h
      cases h
    | some doubled =>
      rw [hmul] at h
      have hdoubled : doubled = 2 ^ (e + 1) := by
        unfold checkedMul at hmul
        split_ifs at hmul
        rw [← Option.some.inj hmul, hinitial, Nat.pow_succ]
      obtain ⟨hload, e', he', hcap⟩ := ih hdoubled h
      exact ⟨hload, e', by omega, hcap⟩

/-- A capacity is large enough for what is required. -/
theorem capacityFor_spec {required initial : Nat} (hinitial : Sized initial)
    (h : capacityFor required initial = .ok cap) : Sized cap ∧ 8 ≤ cap ∧
    required ≤ maxLoad cap := by
  have hstart : ∃ e, max initial 8 = 2 ^ e ∧ 3 ≤ e := by
    rcases hinitial with rfl | ⟨e, rfl, he, -⟩
    · exact ⟨3, rfl, Nat.le_refl 3⟩
    · exact ⟨e, Nat.max_eq_left (eight_le_pow he), he⟩
  obtain ⟨e, hstart, he⟩ := hstart
  unfold capacityFor at h
  cases hloop : capacityLoop required 64 (max initial 8) with
  | none =>
    rw [hloop] at h
    cases h
  | some found =>
    rw [hloop] at h
    simp only at h
    split_ifs at h with hbig
    cases h
    obtain ⟨hload, e', he', rfl⟩ := capacityLoop_spec hstart hloop
    have hsmall : e' < 32 := by
      by_contra hlarge
      have := Nat.pow_le_pow_right (n := 2) (by omega) (Nat.le_of_not_lt hlarge)
      exact hbig (Nat.lt_of_lt_of_le (by decide) this)
    exact ⟨.inr ⟨e', rfl, by omega, hsmall⟩, eight_le_pow (by omega), hload⟩

/-- The rows that the largest table can take. -/
def maxRows : Nat := maxLoad (2 ^ 31)

theorem capacityLoop_fits {required rounds e : Nat} (hfits : required ≤ maxRows) (he : e ≤ 31)
    (hrounds : 31 < rounds + e) : ∃ e' ≤ 31, capacityLoop required rounds (2 ^ e) =
    some (2 ^ e') := by
  induction rounds generalizing e with
  | zero => omega
  | succ rounds ih =>
    rw [capacityLoop]
    split_ifs with hload
    · exact ⟨e, he, rfl⟩
    have hmore : e + 1 ≤ 31 := by
      by_contra hlast
      obtain rfl : e = 31 := by omega
      exact hload hfits
    have hsmall : 2 ^ e * 2 < usizeLimit := by
      rw [← Nat.pow_succ]
      exact Nat.lt_of_le_of_lt (Nat.pow_le_pow_right Nat.two_pos hmore) (by decide)
    rw [checkedMul, if_pos hsmall, ← Nat.pow_succ]
    exact ih hmore (by omega)

/-- Only more rows than the largest table takes are refused a capacity. -/
theorem capacityFor_error {required initial : Nat} {e : StoreError} (hinitial : Sized initial)
    (h : capacityFor required initial = .error e) : e = .outOfMemory ∧ maxRows < required := by
  by_cases hfits : required ≤ maxRows
  · obtain ⟨e', he', hstart⟩ : ∃ e' ≤ 31, max initial 8 = 2 ^ e' := by
      rcases hinitial with rfl | ⟨e', rfl, he, hlt⟩
      · exact ⟨3, by omega, rfl⟩
      · exact ⟨e', by omega, Nat.max_eq_left (eight_le_pow he)⟩
    obtain ⟨last, hlast, hloop⟩ :=
      capacityLoop_fits hfits he' (show 31 < 64 + e' by omega)
    have hsmall : ¬ maxU32 < 2 ^ last :=
      Nat.not_lt.mpr ((Nat.pow_le_pow_right Nat.two_pos hlast).trans (by decide))
    rw [capacityFor, hstart, hloop] at h
    simp only [if_neg hsmall, reduceCtorEq] at h
  · refine ⟨?_, Nat.lt_of_not_le hfits⟩
    unfold capacityFor at h
    split at h
    · exact (Except.error.inj h).symm
    · split_ifs at h
      exact (Except.error.inj h).symm

/-- Why an operation is refused that takes so many stamps, these allocations and new rows. -/
inductive Refused (table : KvTable) (stamps : Nat) (alloc : Bool) (rows : Nat) :
    StoreError → Prop
  | work : Refused table stamps alloc rows .tableWorkExceeded
  | revision (h : maxU64 < table.revision + stamps) :
      Refused table stamps alloc rows .sequenceExhausted
  | alloc (h : alloc = false) : Refused table stamps alloc rows .outOfMemory
  | size (h : maxRows < table.used + rows) : Refused table stamps alloc rows .outOfMemory

theorem Refused.mono {table : KvTable} {stamps more rows : Nat} {alloc alloc' : Bool}
    {e : StoreError} (h : Refused table stamps alloc rows e) (hstamps : stamps ≤ more)
    (halloc : alloc = false → alloc' = false) : Refused table more alloc' rows e := by
  cases h with
  | work => exact .work
  | revision hlate => exact .revision (by omega)
  | alloc hrefused => exact .alloc (halloc hrefused)
  | size hmany => exact .size hmany

/-- New backing on the way to a map. -/
structure Detached (keyHash : KeyHash) (cap : Nat) (target : Bytes → Option Bytes)
    (slots : List Slot) (r : Bytes → Option Bytes) : Prop where
  holds : HoldsMap keyHash slots r
  length_eq : slots.length = cap
  noTombstones : ∀ slot ∈ slots, slot.state ≠ .tombstone
  agrees : ∀ k v, r k = some v → target k = some v

/-- Fewer keys than the load of the backing. -/
def HasRoom (cap : Nat) (target : Bytes → Option Bytes) : Prop :=
  ∃ keys : List Bytes, (∀ k, (target k).isSome → k ∈ keys) ∧ keys.length < cap

/-- The map with some keys as in another one. -/
def walked (target : Bytes → Option Bytes) (keys : List Bytes) (r : Bytes → Option Bytes) :
    Bytes → Option Bytes :=
  fun k => if k ∈ keys then target k else r k

@[simp] theorem walked_nil : walked target [] r = r := by
  funext k
  simp [walked]

theorem walked_cons {keys : List Bytes} :
    walked target (key :: keys) r = walked target keys (Function.update r key (target key)) := by
  funext k
  by_cases hk : k = key
  · subst hk
    simp [walked]
  · simp [walked, hk]

theorem detached_free (h : Sized cap) :
    Detached keyHash cap target (List.replicate cap freeSlot) fun _ => none := by
  refine ⟨holds_free h, length_replicate, fun slot hslot => ?_, nofun⟩
  rw [(mem_replicate.mp hslot).2]
  nofun

/-- One row goes into new backing. -/
theorem Detached.insert (slot : Slot) (hacc : Accounts inv err)
    (h : Detached keyHash cap target slots r)
    (hfits : HasRoom cap target) (habsent : r slot.key = none) (hstate : slot.state = .used)
    (hhash : slot.hash = keyHash slot.key) (htarget : target slot.key = some slot.value) :
    Yields inv err (insertDetached slots slot) fun next =>
      Detached keyHash cap target next (Function.update r slot.key (target slot.key)) := by
  have hnot := h.holds.absent.mpr habsent
  have hroom : (liveKeys cellOf slots).length < slots.length := by
    obtain ⟨keys, hkeys, hlen⟩ := hfits
    have hless := room_of_subset (k := slot.key) keys (nodup_liveKeys h.holds.sound.distinct)
      (fun k hk => ?_) (hkeys _ (by rw [htarget]; rfl)) (fun hmem => ?_)
    · rw [h.length_eq]
      exact Nat.lt_trans hless hlen
    · obtain ⟨v, hv⟩ := Option.isSome_iff_exists.mp ((contains_mem h.holds.contents).mp hk)
      exact hkeys k (by rw [h.agrees k v hv]; rfl)
    · obtain ⟨i, hi⟩ := mem_liveKeys.mp hmem
      exact hnot i hi
  have hfree :
      ∃ p < slots.length, IsFree cellOf slots (places keyHash slots.length slot.key p) := by
    obtain ⟨p, hp, there, hthere, hkey⟩ := (h.holds.sized.cycles keyHash).vacant hroom slot.key
    refine ⟨p, hp, there, hthere, cellOf_eq_free.mpr ?_⟩
    cases hs : there.state with
    | free => rfl
    | used => exact absurd hs (key?_cellOf.mp hkey)
    | tombstone => exact absurd hs (h.noTombstones there (mem_of_getElem? hthere))
  refine (insertDetachedFrom_spec hacc h.holds.toProbed h.noTombstones hhash hnot
    (Nat.zero_add _) hfree fun q hq => absurd hq (Nat.not_lt_zero q)).post ?_
  rintro next ⟨i, hplace, rfl⟩
  have hslot : slot = ⟨.used, keyHash slot.key, slot.key, slot.value⟩ := by
    rw [← hhash, ← hstate]
  refine ⟨?_, by rw [length_set, h.length_eq], fun there hthere => ?_, fun k v hv => ?_⟩
  · rw [htarget]
    have hinsert := h.holds.insert habsent hplace slot.value
    rwa [← hslot] at hinsert
  · rcases mem_or_eq_of_mem_set hthere with hmem | rfl
    · exact h.noTombstones there hmem
    · rw [hstate]
      nofun
  · by_cases hk : k = slot.key
    · rw [hk, Function.update_self] at hv
      rwa [hk]
    · rw [Function.update_of_ne hk] at hv
      exact h.agrees k v hv

/-- A row that is left out. -/
theorem Detached.skip (h : Detached keyHash cap target slots r) (hnone : target key = none) :
    Detached keyHash cap target slots (Function.update r key (target key)) := by
  have hr : r key = none := by
    cases hv : r key with
    | none => rfl
    | some v =>
      rw [h.agrees key v hv] at hnone
      cases hnone
  rwa [hnone, ← hr, Function.update_eq_self]

theorem live_cons_used (hstate : slot.state = .used) :
    liveKeys cellOf (slot :: slots) = slot.key :: liveKeys cellOf slots :=
  filterMap_cons_some (key?_eq_some.mpr (cellOf_eq_used.mpr ⟨hstate, rfl⟩))

theorem live_cons_other (hstate : slot.state ≠ .used) :
    liveKeys cellOf (slot :: slots) = liveKeys cellOf slots :=
  filterMap_cons_none (key?_cellOf.mpr hstate)

/-- Rows still to be copied: none of their keys is in the new backing. -/
structure Copyable (keyHash : KeyHash) (rest : List Slot) (r : Bytes → Option Bytes) : Prop where
  hashed : ∀ slot ∈ rest, slot.state = .used → slot.hash = keyHash slot.key
  nodup : (liveKeys cellOf rest).Nodup
  fresh : ∀ k ∈ liveKeys cellOf rest, r k = none

theorem Copyable.other (h : Copyable keyHash (slot :: slots) r) (hstate : slot.state ≠ .used) :
    Copyable keyHash slots r := by
  obtain ⟨hhashed, hnodup, hfresh⟩ := h
  rw [live_cons_other hstate] at hnodup hfresh
  exact ⟨fun s hs => hhashed s (mem_cons_of_mem slot hs), hnodup, hfresh⟩

theorem Copyable.used (target : Bytes → Option Bytes) (h : Copyable keyHash (slot :: slots) r)
    (hstate : slot.state = .used) :
    r slot.key = none ∧ Copyable keyHash slots (Function.update r slot.key (target slot.key)) := by
  obtain ⟨hhashed, hnodup, hfresh⟩ := h
  rw [live_cons_used hstate] at hnodup hfresh
  obtain ⟨hnew, hnodup⟩ := nodup_cons.mp hnodup
  refine ⟨hfresh _ mem_cons_self, fun s hs => hhashed s (mem_cons_of_mem slot hs), hnodup, ?_⟩
  intro k hk
  have hne : k ≠ slot.key := fun heq => hnew (heq ▸ hk)
  rw [Function.update_of_ne hne]
  exact hfresh k (mem_cons_of_mem _ hk)

theorem HoldsMap.copyable (h : HoldsMap keyHash slots m) : Copyable keyHash slots fun _ => none :=
  ⟨h.hashed, nodup_liveKeys h.sound.distinct, fun _ _ => rfl⟩

/-- All keys in use are walked. -/
theorem walked_all {keys : List Bytes} (h : ∀ k, (target k).isSome → k ∈ keys) :
    walked target keys (fun _ => none) = target := by
  funext k
  unfold walked
  split_ifs with hk
  · rfl
  · cases hv : target k with
    | none => rfl
    | some v => exact absurd (h k (by rw [hv]; rfl)) hk

theorem reinsert_spec (hacc : Accounts inv err) (hfits : HasRoom cap m) {rest : List Slot}
    (h : Detached keyHash cap m slots r) (hcopy : Copyable keyHash rest r)
    (hrows : ∀ slot ∈ rest, slot.state = .used → m slot.key = some slot.value) :
    Yields inv err (KvTable.reinsert rest slots) fun next =>
      Detached keyHash cap m next (walked m (liveKeys cellOf rest) r) := by
  induction rest generalizing slots r with
  | nil =>
    refine Yields.pure ?_
    rwa [liveKeys, filterMap_nil, walked_nil]
  | cons slot rest ih =>
    obtain ⟨hrow, hrows⟩ := forall_mem_cons.mp hrows
    rw [KvTable.reinsert]
    split_ifs with hstate
    · obtain ⟨habsent, hcopy'⟩ := hcopy.used m hstate
      have hhash := hcopy.hashed slot mem_cons_self hstate
      refine (h.insert slot hacc hfits habsent hstate hhash (hrow hstate)).bind fun next hnext => ?_
      rw [live_cons_used hstate, walked_cons]
      exact ih hnext hcopy' hrows
    · rw [live_cons_other hstate]
      exact ih h (hcopy.other hstate) hrows

/-- The table is the map, and its counters are right. -/
structure Refined (keyHash : KeyHash) (table : KvTable) (m : Bytes → Option Bytes) : Prop where
  holds : HoldsMap keyHash table.slots m
  used_eq : table.used = usedCount table.slots
  tombstones_eq : table.tombstones = tombstoneCount table.slots
  load : table.used + table.tombstones ≤ maxLoad table.slots.length

variable {table : KvTable}

theorem Refined.getEntry_found (h : Refined keyHash table m) (key : Bytes) :
    Found table.slots key (table.getEntry keyHash key) := by
  obtain ⟨found, account, hrun, -, hfound⟩ := (find_spec accounts_none h.holds.toProbed key).run rfl
  unfold KvTable.getEntry
  rw [hrun]
  exact hfound

theorem HoldsMap.row (h : HoldsMap keyHash slots m) (hslot : slot ∈ slots)
    (hstate : slot.state = .used) :
    m slot.key = some slot.value := by
  obtain ⟨i, hi⟩ := mem_iff_getElem?.mp hslot
  exact contains_some h.contents hi (cellOf_eq_used.mpr ⟨hstate, rfl⟩)

/-- The counts of the other slots stay. -/
theorem counts_update (hslot : slots[i]? = some slot) (value : Bytes) :
    usedCount (slots.set i { slot with value }) = usedCount slots ∧
      tombstoneCount (slots.set i { slot with value }) = tombstoneCount slots := by
  have hused := countP_set_add (fun slot => slot.state = .used) { slot with value } hslot
  have htombs := countP_set_add (fun slot => slot.state = .tombstone) { slot with value } hslot
  exact ⟨Nat.add_right_cancel hused, Nat.add_right_cancel htombs⟩

theorem counts_remove (hslot : slots[i]? = some slot) (hstate : slot.state = .used) :
    usedCount (slots.set i tombstoneSlot) + 1 = usedCount slots ∧
      tombstoneCount (slots.set i tombstoneSlot) = tombstoneCount slots + 1 := by
  have hused := countP_set_add (fun slot => slot.state = .used) tombstoneSlot hslot
  have htombs := countP_set_add (fun slot => slot.state = .tombstone) tombstoneSlot hslot
  rw [hstate] at hused htombs
  exact ⟨hused, htombs⟩

theorem counts_insert (hslot : slots[i]? = some slot) (hstate : slot.state ≠ .used)
    (key value : Bytes) (hash : UInt64) :
    usedCount (slots.set i ⟨.used, hash, key, value⟩) = usedCount slots + 1 ∧
      tombstoneCount (slots.set i ⟨.used, hash, key, value⟩) =
        if slot.state = .tombstone then tombstoneCount slots - 1 else tombstoneCount slots := by
  have hused := countP_set_add (fun slot => slot.state = .used) ⟨.used, hash, key, value⟩ hslot
  have htombs :=
    countP_set_add (fun slot => slot.state = .tombstone) ⟨.used, hash, key, value⟩ hslot
  cases hs : slot.state with
  | used => exact absurd hs hstate
  | free =>
    rw [hs] at hused htombs
    exact ⟨hused, htombs⟩
  | tombstone =>
    rw [hs] at hused htombs
    exact ⟨hused, (Nat.sub_eq_of_eq_add htombs.symm).symm⟩

theorem Detached.tombstoneCount (h : Detached keyHash cap target slots r) :
    tombstoneCount slots = 0 :=
  countP_eq_zero.mpr fun slot hslot hstate =>
    h.noTombstones slot hslot (of_decide_eq_true hstate)

/-- New backing has the rows of the old one. -/
theorem usedCount_eq {other : List Slot} (h : HoldsMap keyHash slots m)
    (h' : HoldsMap keyHash other m) :
    usedCount slots = usedCount other := by
  rw [← length_keys, ← length_keys]
  refine List.Perm.length_eq ((perm_ext_iff_of_nodup (nodup_liveKeys h.sound.distinct)
    (nodup_liveKeys h'.sound.distinct)).mpr fun k => ?_)
  rw [contains_mem h.contents, contains_mem h'.contents]

section

variable (h : Refined keyHash table m)
include h

theorem Refined.ensureUnusedCapacity {additional : Nat} {alloc : Bool}
    {result : Except StoreError Unit} {after : KvTable}
    (hrun : table.ensureUnusedCapacity additional alloc = (result, after)) :
    Refined keyHash after m ∧
      (result = .ok () → after.used + after.tombstones + additional ≤ maxLoad after.slots.length ∧
        after.revision ≤ table.revision + 1) ∧
      ∀ e, result = .error e → Refused table 1 alloc additional e := by
  unfold KvTable.ensureUnusedCapacity at hrun
  by_cases hrevision : table.revision = maxU64
  · rw [if_pos hrevision] at hrun
    cases hrun
    exact ⟨h, nofun, fun e he => Except.error.inj he ▸ .revision (by omega)⟩
  rw [if_neg hrevision] at hrun
  cases hcap : capacityFor (table.used + additional) table.slots.length with
  | error e =>
    rw [hcap] at hrun
    cases hrun
    obtain ⟨rfl, hmany⟩ := capacityFor_error h.holds.sized hcap
    exact ⟨h, nofun, fun e he => Except.error.inj he ▸ .size hmany⟩
  | ok cap =>
    rw [hcap] at hrun
    obtain ⟨hsized, height, hload⟩ := capacityFor_spec h.holds.sized hcap
    dsimp only at hrun
    split_ifs at hrun with hfits halloc
    · cases hrun
      exact ⟨h, fun _ => ⟨hfits.1 ▸ hfits.2, Nat.le_succ _⟩, nofun⟩
    · cases hrun
      exact ⟨h, nofun, fun e he => Except.error.inj he ▸ .alloc (by simpa using halloc)⟩
    · have hroom : HasRoom cap m := by
        refine ⟨liveKeys cellOf table.slots, fun k hk => (contains_mem h.holds.contents).mpr hk, ?_⟩
        rw [length_keys, ← h.used_eq]
        have := maxLoad_lt height
        omega
      have hcopied :=
        reinsert_spec (accounts_some (Refused table 1 alloc additional) .work) hroom
          (detached_free hsized)
        h.holds.copyable (fun slot hslot hstate => h.holds.row hslot hstate)
          (some ⟨0, maxU64⟩) trivial
      cases hnext : KvTable.reinsert table.slots (List.replicate cap freeSlot)
        (some ⟨0, maxU64⟩) with
      | error e =>
        rw [hnext] at hrun hcopied
        cases hrun
        exact ⟨h, nofun, fun e he => Except.error.inj he ▸ hcopied⟩
      | ok answer =>
        rw [hnext] at hrun hcopied
        obtain ⟨next, account⟩ := answer
        cases hrun
        have hdone := hcopied.2
        rw [walked_all fun k hk => (contains_mem h.holds.contents).mpr hk] at hdone
        have hused := usedCount_eq hdone.holds h.holds
        have hlength := hdone.length_eq
        refine ⟨⟨hdone.holds, h.used_eq.trans hused.symm, hdone.tombstoneCount.symm, ?_⟩,
          fun _ => ⟨?_, ?_⟩, nofun⟩
        · show table.used + 0 ≤ maxLoad next.length
          rw [hlength]
          omega
        · show table.used + 0 + additional ≤ maxLoad next.length
          rw [hlength]
          omega
        · exact Nat.le_refl _

theorem Refined.placed (habsent : m key = none)
    (hload : table.used + table.tombstones + 1 ≤ maxLoad table.slots.length)
    (hplace : Place keyHash table.slots key i) (value : Bytes) (revision : Nat) :
    Refined keyHash
      { slots := table.slots.set i ⟨.used, keyHash key, key, value⟩
        used := table.used + 1
        tombstones :=
          if (table.slots.getD i freeSlot).state = .tombstone then table.tombstones - 1
            else table.tombstones
        revision } (Function.update m key (some value)) := by
  obtain ⟨there, hthere, hstate⟩ := hplace.vacant
  obtain ⟨hused, htombs⟩ := counts_insert hthere hstate key value (keyHash key)
  rw [getD_of_slot hthere]
  refine ⟨h.holds.insert habsent hplace value, ?_, ?_, ?_⟩
  · rw [hused, h.used_eq]
  · rw [htombs, h.tombstones_eq]
  · dsimp only
    rw [length_set]
    split_ifs <;> omega

/-- A key in use is written over. -/
theorem Refined.setValue (huse : Uses cellOf table.slots i key) (value : Bytes) :
    Refined keyHash (table.setValue i value) (Function.update m key (some value)) := by
  obtain ⟨there, hthere, hcell⟩ := huse
  have hstate := (cellOf_eq_used.mp hcell).1
  obtain ⟨hused, htombs⟩ := counts_update hthere value
  unfold KvTable.setValue
  rw [getD_of_slot hthere]
  have hrewrite := h.holds.rewrite hthere hcell { there with value } (.inl rfl)
  rw [if_pos hstate] at hrewrite
  refine ⟨hrewrite, ?_, ?_, ?_⟩
  · exact h.used_eq.trans hused.symm
  · exact h.tombstones_eq.trans htombs.symm
  · dsimp only
    rw [length_set]
    exact h.load

theorem Refined.removeByPtr (huse : Uses cellOf table.slots i key)
    (hrevision : table.revision ≠ maxU64) :
    ∃ after, table.removeByPtr i = some after ∧
    Refined keyHash after (Function.update m key none) := by
  obtain ⟨there, hthere, hcell⟩ := huse
  have hstate := (cellOf_eq_used.mp hcell).1
  obtain ⟨hused, htombs⟩ := counts_remove hthere hstate
  have hrewrite := h.holds.rewrite hthere hcell tombstoneSlot (.inr rfl)
  unfold KvTable.removeByPtr
  rw [getD_of_slot hthere, if_neg (by rintro (hmax | hne); exacts [hrevision hmax, hne hstate])]
  have husedEq := h.used_eq
  have htombsEq := h.tombstones_eq
  have hload := h.load
  refine ⟨_, rfl, hrewrite, ?_, ?_, ?_⟩
  · dsimp only
    omega
  · dsimp only
    omega
  · dsimp only
    rw [length_set]
    omega

theorem Refined.withRevision (revision : Nat) :
    Refined keyHash { table with revision } m :=
  ⟨h.holds, h.used_eq, h.tombstones_eq, h.load⟩

/-- There is a free slot below the load. -/
theorem Refined.free (hload : table.used + table.tombstones < table.slots.length)
    (key : Bytes) : ∃ p < table.slots.length,
      IsFree cellOf table.slots (places keyHash table.slots.length key p) := by
  by_contra hnone
  have hall : ∀ slot ∈ table.slots, slot.state = .used ∨ slot.state = .tombstone := by
    intro slot hslot
    obtain ⟨i, hi⟩ := mem_iff_getElem?.mp hslot
    obtain ⟨p, hp, rfl⟩ :=
      (h.holds.sized.cycles keyHash).onto key i (List.getElem?_eq_some_iff.mp hi).1
    cases hstate : slot.state with
    | free => exact absurd ⟨p, hp, slot, hi, cellOf_eq_free.mpr hstate⟩ hnone
    | used => exact .inl rfl
    | tombstone => exact .inr rfl
  have hcount : usedCount table.slots + tombstoneCount table.slots = table.slots.length := by
    rw [usedCount, tombstoneCount,
      length_eq_countP_add_countP (fun slot : Slot => decide (slot.state = .used)) (l :=
        table.slots)]
    congr 1
    refine countP_congr fun slot hslot => ?_
    rcases hall slot hslot with hstate | hstate <;> simp [hstate]
  have husedEq := h.used_eq
  have htombsEq := h.tombstones_eq
  omega

theorem Refined.getOrPutAssumeCapacity (habsent : m key = none)
    (hrevision : table.revision ≠ maxU64)
    (hload : table.used + table.tombstones + 1 ≤ maxLoad table.slots.length) :
    ∃ i after, table.getOrPutAssumeCapacity keyHash key = some ((i, false), after) ∧
      Refined keyHash after (Function.update m key (some [])) ∧ Uses cellOf after.slots i key ∧
      after.revision = table.revision + 1 := by
  have hsmall : maxLoad table.slots.length ≤ table.slots.length := Nat.sub_le _ _
  have hmore : table.used + table.tombstones < table.slots.length := by omega
  obtain ⟨i, hfrom, hplace⟩ := placeFrom_spec none h.holds.sized (Nat.zero_add _) (h.free hmore key)
    (fun q hq => absurd hq (Nat.not_lt_zero q)) nofun
  have hentry : { table with revision := table.revision + 1 : KvTable }.getEntry keyHash key =
    none := by
    have hfound := (h.withRevision (table.revision + 1)).getEntry_found key
    cases hentry : { table with revision := table.revision + 1 : KvTable }.getEntry keyHash key with
    | none => rfl
    | some j =>
      rw [hentry] at hfound
      exact absurd hfound (h.holds.absent.mpr habsent j)
  unfold KvTable.getOrPutAssumeCapacity
  rw [if_neg hrevision]
  dsimp only
  rw [hentry]
  dsimp only
  rw [hfrom]
  refine ⟨i, _, rfl, (h.placed habsent hload hplace [] _), ?_, rfl⟩
  obtain ⟨there, hthere, -⟩ := hplace.vacant
  exact ⟨_, List.getElem?_set_self (List.getElem?_eq_some_iff.mp hthere).1, rfl⟩

end

/-- What a put finds or makes: the slot of the key, or nothing. -/
def Offered (keyHash : KeyHash) (m : Bytes → Option Bytes) (key : Bytes)
    (refused : StoreError → Prop) : Except StoreError (Nat × Bool) × KvTable → Prop
  | (.error e, after) => Refined keyHash after m ∧ refused e
  | (.ok (i, true), after) => Refined keyHash after m ∧ Uses cellOf after.slots i key
  | (.ok (i, false), after) =>
    m key = none ∧ Refined keyHash after (Function.update m key (some [])) ∧
      Uses cellOf after.slots i key ∧
      after.revision ≠ maxU64

theorem Refined.getOrPut (h : Refined keyHash table m) (key : Bytes) (alloc : Bool) :
    ∃ answer, table.getOrPut keyHash key alloc = some answer ∧
      Offered keyHash m key (Refused table 3 alloc 1) answer := by
  have hfound := h.getEntry_found key
  unfold KvTable.getOrPut
  by_cases hrevision : table.revision = maxU64
  · rw [if_pos hrevision]
    exact ⟨_, rfl, h, .revision (by omega)⟩
  rw [if_neg hrevision]
  cases hentry : table.getEntry keyHash key with
  | some i =>
    rw [hentry] at hfound
    exact ⟨_, rfl, h.withRevision _, hfound⟩
  | none =>
    rw [hentry] at hfound
    have habsent := h.holds.absent.mp hfound
    dsimp only
    by_cases hlate : maxU64 - 3 < table.revision
    · rw [if_pos hlate]
      exact ⟨_, rfl, h, .revision (by omega)⟩
    rw [if_neg hlate]
    cases hensure : table.ensureUnusedCapacity 1 alloc with
    | mk result grown =>
      obtain ⟨hgrown, hroom, hrefused⟩ := h.ensureUnusedCapacity hensure
      cases result with
      | error e => exact ⟨_, rfl, hgrown, (hrefused e rfl).mono (by decide) id⟩
      | ok _ =>
        -- Growth and the new row take two of the three stamps that are left.
        obtain ⟨hload, hstamp⟩ := hroom rfl
        have hlimit : maxU64 = 18446744073709551615 := rfl
        obtain ⟨i, after, hput, hafter, huse, hnext⟩ :=
          hgrown.getOrPutAssumeCapacity habsent (by omega) hload
        refine ⟨(.ok (i, false), after), ?_, habsent, hafter, huse, by omega⟩
        dsimp only
        rw [hput]
        rfl

/-- A put that is refused leaves the map as it was. -/
theorem Refined.put (h : Refined keyHash table m) (key value : Bytes) (allocs : KvTable.PutAllocs) :
    ∃ result after, table.put keyHash key value allocs = some (result, after) ∧
      Refined keyHash after (if result.isOk then Function.update m key (some value) else m) ∧
      ∀ e, result = .error e → Refused table 3 (allocs.grow && allocs.key && allocs.value) 1 e := by
  obtain ⟨answer, hrun, hanswer⟩ := h.getOrPut key allocs.grow
  have hback : ∀ {after : KvTable} {i : Nat}, (allocs.key && allocs.value) = false →
      m key = none →
      Refined keyHash after (Function.update m key (some [])) → Uses cellOf after.slots i key →
      after.revision ≠ maxU64 →
      ∃ result final,
        ((after.removeByPtr i).map fun table =>
          ((.error .outOfMemory : Except StoreError Unit), table)) =
        some (result, final) ∧
        Refined keyHash final (if result.isOk then Function.update m key (some value) else m) ∧
        ∀ e, result = .error e →
          Refused table 3 (allocs.grow && allocs.key && allocs.value) 1 e := by
    intro after i halloc habsent hafter huse hstamp
    obtain ⟨final, hremove, hfinal⟩ := hafter.removeByPtr huse hstamp
    rw [Function.update_idem, ← habsent, Function.update_eq_self] at hfinal
    refine ⟨.error .outOfMemory, final, ?_, hfinal, fun e he => ?_⟩
    · rw [hremove]
      rfl
    · rw [← Except.error.inj he, Bool.and_assoc]
      exact .alloc (by rw [halloc, Bool.and_false])
  unfold KvTable.put
  rw [hrun]
  match answer, hanswer with
  | (.error e, after), ⟨hafter, hrefused⟩ =>
    refine ⟨_, after, rfl, hafter, fun e' he => Except.error.inj he ▸ ?_⟩
    exact hrefused.mono (Nat.le_refl 3) fun hgrow => by rw [hgrow, Bool.false_and, Bool.false_and]
  | (.ok (i, true), after), ⟨hafter, huse⟩ =>
    dsimp only
    split_ifs with halloc
    · rw [Bool.not_eq_true'] at halloc
      refine ⟨_, after, rfl, hafter, fun e he => Except.error.inj he ▸ .alloc ?_⟩
      rw [halloc, Bool.and_false]
    · exact ⟨_, _, rfl, hafter.setValue huse value, nofun⟩
  | (.ok (i, false), after), ⟨habsent, hafter, huse, hstamp⟩ =>
    dsimp only
    split_ifs with hkey hvalue
    · rw [Bool.not_eq_true'] at hkey
      cases hentry : after.getEntry keyHash key with
      | none =>
        have hfound := hafter.getEntry_found key
        rw [hentry] at hfound
        exact absurd huse (hfound i)
      | some j =>
        have hfound := hafter.getEntry_found key
        rw [hentry] at hfound
        exact hback (by rw [hkey, Bool.false_and]) habsent hafter hfound hstamp
    · rw [Bool.not_eq_true'] at hvalue
      exact hback (by rw [hvalue, Bool.and_false]) habsent hafter huse hstamp
    · refine ⟨_, _, rfl, ?_, nofun⟩
      have hset := hafter.setValue huse value
      rwa [Function.update_idem] at hset

/-- A deletion has no answer only where a row has to be removed and no stamp is left. -/
theorem Refined.delete (h : Refined keyHash table m) (key : Bytes) :
    (∃ after, table.delete keyHash key = some after ∧
      Refined keyHash after (Function.update m key none)) ∨
      (table.delete keyHash key = none ∧ m key ≠ none ∧ table.revision = maxU64) := by
  have hfound := h.getEntry_found key
  unfold KvTable.delete
  cases hentry : table.getEntry keyHash key with
  | none =>
    rw [hentry] at hfound
    refine .inl ⟨table, rfl, ?_⟩
    rwa [← h.holds.absent.mp hfound, Function.update_eq_self]
  | some i =>
    rw [hentry] at hfound
    by_cases hrevision : table.revision = maxU64
    · refine .inr ⟨?_, ?_, hrevision⟩
      · dsimp only
        rw [KvTable.removeByPtr, if_pos (.inl hrevision)]
      · rw [h.holds.present hfound]
        nofun
    · exact .inl (h.removeByPtr hfound hrevision)

end OnyxServer.Store
