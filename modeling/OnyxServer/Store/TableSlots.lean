import OnyxServer.Lib.OpenAddressing
import OnyxServer.Lib.Yields
import OnyxServer.Store.Table

/-!
# Searching the slots of a table

The slots are an open-addressed table under the hash of the key. Every search of the
program is specified once, for any account its work is charged to.
-/
namespace OnyxServer.Store

open Lib List Option

def cellOf (slot : Slot) : Cell Bytes :=
  match slot.state with
  | .free => .free
  | .used => .used slot.key
  | .tombstone => .tombstone

variable {slot there : Slot} {slots : List Slot} {key : Bytes} {i cap : Nat}

@[simp] theorem cellOf_eq_free : cellOf slot = .free ↔ slot.state = .free := by
  unfold cellOf
  cases slot.state <;> simp

@[simp] theorem cellOf_eq_tombstone : cellOf slot = .tombstone ↔ slot.state = .tombstone := by
  unfold cellOf
  cases slot.state <;> simp

@[simp] theorem cellOf_eq_used : cellOf slot = .used key ↔ slot.state = .used ∧ slot.key = key := by
  unfold cellOf
  cases slot.state <;> simp

theorem key?_cellOf : (cellOf slot).key? = none ↔ slot.state ≠ .used := by
  unfold cellOf
  cases slot.state <;> simp [Cell.key?]

variable (keyHash : KeyHash)

def places (cap : Nat) (key : Bytes) (probe : Nat) : Nat := probeIndex cap (keyHash key) probe

/-- No slots yet, or a power of two of them. -/
def Sized (cap : Nat) : Prop := cap = 0 ∨ ∃ e, cap = 2 ^ e ∧ 3 ≤ e ∧ e < 32

/-- What every search relies on. -/
structure Probed (slots : List Slot) : Prop where
  sized : Sized slots.length
  sound : Sound cellOf (places keyHash slots.length) slots
  hashed : ∀ slot ∈ slots, slot.state = .used → slot.hash = keyHash slot.key

variable {keyHash : KeyHash}

theorem probeIndex_eq {e : Nat} (he : e < 32) (hash : UInt64) (probe : Nat) :
    probeIndex (2 ^ e) hash probe = (hash.toNat + probe) % 2 ^ e := by
  unfold probeIndex
  rw [Nat.and_two_pow_sub_one_eq_mod, Nat.mod_mod_of_dvd]
  exact Nat.pow_dvd_pow 2 (by omega)

theorem Sized.cycles (keyHash : KeyHash) (h : Sized cap) : Cycles (places keyHash cap) cap := by
  rcases h with rfl | ⟨e, rfl, -, he⟩
  · exact ⟨fun _ _ hp => absurd hp (Nat.not_lt_zero _), fun _ _ hi => absurd hi (Nat.not_lt_zero _)⟩
  have hpos : 0 < 2 ^ e := Nat.two_pow_pos e
  constructor
  · intro k p _
    rw [places, probeIndex_eq he]
    exact Nat.mod_lt _ hpos
  · -- The probe is as far as the place is ahead of the hash, around the slots.
    intro k i hi
    refine ⟨(i + (2 ^ e - (keyHash k).toNat % 2 ^ e)) % 2 ^ e, Nat.mod_lt _ hpos, ?_⟩
    have hhash := Nat.mod_lt (keyHash k).toNat hpos
    rw [places, probeIndex_eq he, Nat.add_mod, Nat.mod_mod, ← Nat.add_mod, ← Nat.mod_add_mod]
    have hsum : (keyHash k).toNat % 2 ^ e + (i + (2 ^ e - (keyHash k).toNat % 2 ^ e)) =
        i + 2 ^ e := by
      omega
    rw [hsum, Nat.add_mod_right, Nat.mod_eq_of_lt hi]

theorem getD_slot (h : i < slots.length) : slots[i]? = some (slots.getD i freeSlot) := by
  rw [getD_eq_getElem?_getD, List.getElem?_eq_getElem h, Option.getD_some]

theorem getD_of_slot (h : slots[i]? = some slot) : slots.getD i freeSlot = slot := by
  rw [getD_eq_getElem?_getD, h, Option.getD_some]

theorem Sized.slot_at (keyHash : KeyHash) (h : Sized slots.length) (key : Bytes) {probe : Nat}
    (hp : probe < slots.length) :
    slots[places keyHash slots.length key probe]? =
      some (slots.getD (probeIndex slots.length (keyHash key) probe) freeSlot) :=
  getD_slot ((h.cycles keyHash).inside key probe hp)

/-- A slot that is there is not in use under the key. -/
theorem not_uses (hslot : slots[i]? = some slot) (h : ¬ (slot.state = .used ∧ slot.key = key)) :
    ¬ Uses cellOf slots i key := by
  rintro ⟨other, hother, hcell⟩
  rw [hslot] at hother
  cases hother
  exact h (cellOf_eq_used.mp hcell)

variable {inv : Option Work → Prop} {err : StoreError → Prop}

/-- Charging work keeps the account, or fails as allowed. -/
def Accounts (inv : Option Work → Prop) (err : StoreError → Prop) : Prop :=
  ∀ n, Yields inv err (charge n) fun _ => True

theorem accounts_none : Accounts (fun account => account = none) fun _ => False := by
  rintro n _ rfl
  exact ⟨rfl, trivial⟩

theorem accounts_some (err : StoreError → Prop) (h : err .tableWorkExceeded) :
    Accounts (fun _ => True) err := by
  intro n account _
  cases account with
  | none => exact ⟨trivial, trivial⟩
  | some work =>
    unfold charge
    simp only
    split_ifs
    · exact h
    · exact ⟨trivial, trivial⟩

theorem compare_spec (hacc : Accounts inv err) (a b : Bytes) :
    Yields inv err (compare a b) fun equal => equal = true ↔ a = b := by
  refine (hacc 1).bind fun _ _ => ?_
  split_ifs with hlen
  · refine Yields.pure ⟨nofun, ?_⟩
    rintro rfl
    exact absurd rfl hlen
  · exact (hacc a.length).bind fun _ _ => Yields.pure beq_iff_eq

/-- What a search for a key answers. -/
def Found (slots : List Slot) (key : Bytes) : Option Nat → Prop
  | some i => Uses cellOf slots i key
  | none => ∀ i, ¬ Uses cellOf slots i key

variable {remaining probe : Nat}

theorem findFrom_spec (hacc : Accounts inv err) (h : Probed keyHash slots)
    (hall : probe + remaining = slots.length)
    (hnot : ∀ q < probe, ¬ Uses cellOf slots (places keyHash slots.length key q) key) :
    Yields inv err (findFrom keyHash slots key remaining probe) (Found slots key) := by
  induction remaining generalizing probe with
  | zero => exact Yields.pure (h.sound.absent_of_all (hall ▸ hnot))
  | succ remaining ih =>
    have hslot := h.sized.slot_at keyHash key (by omega : probe < slots.length)
    have hnext : ¬ Uses cellOf slots (places keyHash slots.length key probe) key →
        Yields inv err (findFrom keyHash slots key remaining (probe + 1)) (Found slots key) :=
          fun hhere =>
      ih (by omega) (Nat.forall_lt_succ_right.mpr ⟨hnot, hhere⟩)
    rw [findFrom]
    refine (hacc 1).bind fun _ _ => ?_
    dsimp only
    generalize slots.getD (probeIndex slots.length (keyHash key) probe) freeSlot = slot at hslot ⊢
    cases hstate : slot.state with
    | free =>
      exact Yields.pure (h.sound.absent_of_free ⟨slot, hslot, cellOf_eq_free.mpr hstate⟩ hnot)
    | tombstone => exact hnext (not_uses hslot fun hu => by rw [hstate] at hu; cases hu.1)
    | used =>
      dsimp only
      split_ifs with hhash
      · refine (compare_spec hacc slot.key key).bind fun equal hequal => ?_
        split_ifs with heq
        · exact Yields.pure ⟨slot, hslot, cellOf_eq_used.mpr ⟨hstate, hequal.mp heq⟩⟩
        · exact hnext (not_uses hslot fun hu => heq (hequal.mpr hu.2))
      · -- Another hash is the hash of another key.
        refine hnext (not_uses hslot fun hu => hhash ?_)
        rw [h.hashed slot (mem_of_getElem? hslot) hstate, hu.2]

theorem find_spec (hacc : Accounts inv err) (h : Probed keyHash slots) (key : Bytes) :
    Yields inv err (find keyHash slots key) (Found slots key) := by
  unfold find
  split_ifs with hempty
  · rw [length_eq_zero_iff] at hempty
    subst hempty
    refine Yields.pure ?_
    rintro i ⟨slot, hslot, -⟩
    rw [List.getElem?_nil] at hslot
    cases hslot
  · exact (hacc key.length).bind fun _ _ =>
      findFrom_spec hacc h (Nat.zero_add _) fun q hq => absurd hq (Nat.not_lt_zero q)

/-- The place of an insertion: no key uses it, and the searches for the key come by. -/
structure Place (keyHash : KeyHash) (slots : List Slot) (key : Bytes) (i : Nat) : Prop where
  vacant : ∃ slot, slots[i]? = some slot ∧ slot.state ≠ .used
  reach : Reachable cellOf (places keyHash slots.length) slots key i

/-- A slot that is not in use, on a way without a free slot. -/
theorem place_at {probe : Nat} (hp : probe < slots.length)
    (hslot : slots[places keyHash slots.length key probe]? = some slot)
    (hstate : slot.state ≠ .used)
    (hnot : ∀ q < probe, ¬ IsFree cellOf slots (places keyHash slots.length key q)) :
    Place keyHash slots key (places keyHash slots.length key probe) :=
  ⟨⟨slot, hslot, hstate⟩, probe, hp, rfl, hnot⟩

theorem not_isFree (hslot : slots[i]? = some slot) (h : slot.state ≠ .free) :
    ¬ IsFree cellOf slots i := by
  rintro ⟨other, hother, hcell⟩
  rw [hslot] at hother
  cases hother
  exact h (cellOf_eq_free.mp hcell)

theorem insertDetachedFrom_spec (hacc : Accounts inv err) (h : Probed keyHash slots)
    (htombs : ∀ slot ∈ slots, slot.state ≠ .tombstone) (hhash : slot.hash = keyHash slot.key)
    (habsent : ∀ i, ¬ Uses cellOf slots i slot.key)
    (hall : probe + remaining = slots.length)
    (hfree : ∃ p < slots.length, IsFree cellOf slots (places keyHash slots.length slot.key p))
    (hnot : ∀ q < probe, ¬ IsFree cellOf slots (places keyHash slots.length slot.key q)) :
    Yields inv err (insertDetachedFrom slots slot remaining probe) fun next =>
      ∃ i, Place keyHash slots slot.key i ∧ next = slots.set i slot := by
  induction remaining generalizing probe with
  | zero =>
    obtain ⟨p, hp, hfree⟩ := hfree
    exact absurd hfree (hnot p (by omega))
  | succ remaining ih =>
    have hslot := h.sized.slot_at keyHash slot.key (by omega : probe < slots.length)
    rw [insertDetachedFrom]
    refine (hacc 1).bind fun _ _ => ?_
    dsimp only
    rw [hhash]
    generalize hthere : slots.getD (probeIndex slots.length (keyHash slot.key) probe) freeSlot =
      there at hslot ⊢
    have hnext : there.state ≠ .free →
        Yields inv err (insertDetachedFrom slots slot remaining (probe + 1)) fun next =>
          ∃ i, Place keyHash slots slot.key i ∧ next = slots.set i slot := fun hhere =>
      ih (by omega) (Nat.forall_lt_succ_right.mpr ⟨hnot, not_isFree hslot hhere⟩)
    split_ifs with hstate hsame
    · exact Yields.pure ⟨_, place_at (by omega) hslot (by rw [hstate]; nofun) hnot, rfl⟩
    · refine (compare_spec hacc there.key slot.key).bind fun equal hequal => ?_
      split_ifs with heq
      · have hused : there.state = .used := by
          cases hs : there.state with
          | free => exact absurd hs hstate
          | tombstone => exact absurd hs (htombs there (mem_of_getElem? hslot))
          | used => rfl
        exact absurd ⟨there, hslot, cellOf_eq_used.mpr ⟨hused, hequal.mp heq⟩⟩ (habsent _)
      · exact hnext hstate
    · exact hnext hstate

/-- A place is found as long as a slot is free. -/
theorem placeFrom_spec (tomb : Option Nat) (h : Sized slots.length)
    (hall : probe + remaining = slots.length)
    (hfree : ∃ p < slots.length, IsFree cellOf slots (places keyHash slots.length key p))
    (hnot : ∀ q < probe, ¬ IsFree cellOf slots (places keyHash slots.length key q))
    (htomb : ∀ i, tomb = some i → Place keyHash slots key i) :
    ∃ i, KvTable.placeFrom slots (keyHash key) remaining probe tomb = some i ∧
    Place keyHash slots key i := by
  induction remaining generalizing probe tomb with
  | zero =>
    obtain ⟨p, hp, hfree⟩ := hfree
    exact absurd hfree (hnot p (by omega))
  | succ remaining ih =>
    have hslot := h.slot_at keyHash key (by omega : probe < slots.length)
    have htake : ∀ slot, slots[places keyHash slots.length key probe]? = some slot →
        slot.state ≠ .used →
        Place keyHash slots key (tomb.getD (places keyHash slots.length key probe)) := by
      intro slot hslot hstate
      cases htomb' : tomb with
      | none => exact place_at (by omega) hslot hstate hnot
      | some i => exact htomb i htomb'
    rw [KvTable.placeFrom]
    generalize slots.getD (probeIndex slots.length (keyHash key) probe) freeSlot = slot at hslot ⊢
    have hnext : slot.state ≠ .free →
        ∀ q < probe + 1, ¬ IsFree cellOf slots (places keyHash slots.length key q) := fun hstate =>
      Nat.forall_lt_succ_right.mpr ⟨hnot, not_isFree hslot hstate⟩
    cases hstate : slot.state with
    | free => exact ⟨_, rfl, htake slot hslot (by rw [hstate]; nofun)⟩
    | used => exact ih tomb (by omega) (hnext (by rw [hstate]; nofun)) htomb
    | tombstone =>
      refine ih _ (by omega) (hnext (by rw [hstate]; nofun)) fun i hi => ?_
      cases hi
      exact htake slot hslot (by rw [hstate]; nofun)

/-- The slots hold the map, and searches find all of it. -/
structure HoldsMap (keyHash : KeyHash) (slots : List Slot) (m : Bytes → Option Bytes) : Prop
    extends Probed keyHash slots where
  contents : Contains cellOf slots Slot.value m

def usedCount (slots : List Slot) : Nat := slots.countP fun slot => slot.state = .used

def tombstoneCount (slots : List Slot) : Nat := slots.countP fun slot => slot.state = .tombstone

variable {m : Bytes → Option Bytes} {value : Bytes}

theorem length_keys : (liveKeys cellOf slots).length = usedCount slots := by
  rw [liveKeys, length_filterMap_eq_countP, usedCount]
  refine countP_congr fun slot _ => ?_
  rw [Function.comp_apply, Option.isSome_iff_ne_none, Ne, key?_cellOf, not_not, decide_eq_true_iff]

theorem HoldsMap.absent (h : HoldsMap keyHash slots m) :
    (∀ i, ¬ Uses cellOf slots i key) ↔ m key = none :=
  (contains_none h.contents).symm

theorem HoldsMap.present (h : HoldsMap keyHash slots m) (huse : Uses cellOf slots i key) :
    m key = some (slots.getD i freeSlot).value := by
  obtain ⟨slot, hslot, hcell⟩ := huse
  rw [getD_of_slot hslot]
  exact contains_some h.contents hslot hcell

theorem Probed.hashed_set (h : Probed keyHash slots)
    (hnew : slot.state = .used → slot.hash = keyHash slot.key) :
    ∀ there ∈ slots.set i slot, there.state = .used → there.hash = keyHash there.key := by
  intro there hthere
  rcases mem_or_eq_of_mem_set hthere with hmem | rfl
  · exact h.hashed there hmem
  · exact hnew

theorem HoldsMap.insert (h : HoldsMap keyHash slots m) (habsent : m key = none)
    (hplace : Place keyHash slots key i) (value : Bytes) :
    HoldsMap keyHash (slots.set i ⟨.used, keyHash key, key, value⟩)
    (Function.update m key (some value)) := by
  obtain ⟨⟨there, hthere, hstate⟩, hreach⟩ := hplace
  have hvacant : ∀ k', cellOf there ≠ .used k' := fun k' hk' => hstate (cellOf_eq_used.mp hk').1
  have hcell : cellOf ⟨.used, keyHash key, key, value⟩ = .used key := rfl
  obtain ⟨hsound, hcontents⟩ := h.sound.place h.contents habsent hthere hvacant hreach hcell
  refine ⟨⟨?_, ?_, h.hashed_set fun _ => rfl⟩, hcontents⟩
  · rw [length_set]
    exact h.sized
  · rw [length_set]
    exact hsound

/-- The slot of a key is written with another value, or with a tombstone. -/
theorem HoldsMap.rewrite (h : HoldsMap keyHash slots m) (hthere : slots[i]? = some there)
    (hcell : cellOf there = .used key) (next : Slot)
    (hnext : next = { there with value := next.value } ∨ next = tombstoneSlot) :
    HoldsMap keyHash (slots.set i next)
      (Function.update m key (if next.state = .used then some next.value else none)) := by
  have hused := cellOf_eq_used.mp hcell
  have hnew : cellOf next = .used key ∨ cellOf next = .tombstone := by
    rcases hnext with hnext | rfl
    · rw [hnext]
      exact .inl (cellOf_eq_used.mpr hused)
    · exact .inr rfl
  obtain ⟨hsound, hcontents⟩ := h.sound.rewrite h.contents hthere hcell hnew
  have hif : (cellOf next = .used key) ↔ next.state = .used := by
    rcases hnew with hnew | hnew
    · exact ⟨fun _ => (cellOf_eq_used.mp hnew).1, fun _ => hnew⟩
    rw [hnew]
    refine ⟨nofun, fun hstate => ?_⟩
    rw [cellOf_eq_tombstone.mp hnew] at hstate
    cases hstate
  simp only [hif] at hcontents
  refine ⟨⟨?_, ?_, h.hashed_set fun hstate => ?_⟩, hcontents⟩
  · rw [length_set]
    exact h.sized
  · rw [length_set]
    exact hsound
  · rcases hnext with hnext | rfl
    · rw [hnext]
      exact h.hashed there (mem_of_getElem? hthere) hused.1
    · cases hstate

theorem holds_free (h : Sized cap) :
    HoldsMap keyHash (List.replicate cap freeSlot) fun _ => none := by
  have hnone : ∀ (i : Nat) (s : Slot) (k : Bytes),
      (List.replicate cap freeSlot)[i]? = some s → cellOf s ≠ .used k := by
    intro i s k hs hcell
    obtain rfl := (mem_replicate.mp (mem_of_getElem? hs)).2
    cases hcell
  refine ⟨⟨?_, ⟨?_, ?_⟩, ?_⟩, ?_⟩
  · rwa [length_replicate]
  · rintro i j k ⟨s, hs, hcell⟩
    exact absurd hcell (hnone i s k hs)
  · rintro i k ⟨s, hs, hcell⟩
    exact absurd hcell (hnone i s k hs)
  · intro s hs hused
    obtain rfl := (mem_replicate.mp hs).2
    cases hused
  · intro k v
    refine ⟨nofun, ?_⟩
    rintro ⟨i, s, hs, hcell, -⟩
    exact absurd hcell (hnone i s k hs)

end OnyxServer.Store
