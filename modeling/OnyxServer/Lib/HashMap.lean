import Mathlib.Data.List.AList

/-!
# Hash maps

A hash map is a finite map. The order of its entries stands for the order in which an
iterator meets them, which the program must not depend on.
-/
namespace OnyxServer.Lib

section

open List AList Option

variable {κ ν : Type}

abbrev HashMap (κ ν : Type) := AList fun _ : κ => ν

namespace HashMap

def count (m : HashMap κ ν) : Nat := m.entries.length

/-- Every value rewritten where it stands. -/
def mapValues (f : κ → ν → ν) (m : HashMap κ ν) : HashMap κ ν :=
  ⟨m.entries.map fun e => ⟨e.1, f e.1 e.2⟩, by
    rw [List.NodupKeys, List.keys, List.map_map]
    exact m.nodupKeys⟩

/-- The entries whose value passes the test. -/
def keep (p : κ → ν → Bool) (m : HashMap κ ν) : HashMap κ ν :=
  ⟨m.entries.filter fun e => p e.1 e.2, m.nodupKeys.sublist List.filter_sublist⟩

theorem count_keys (m : HashMap κ ν) : count m = m.keys.length := by
  rw [count, AList.keys, List.keys, length_map]

theorem count_eq_zero {m : HashMap κ ν} : count m = 0 ↔ ∀ k, k ∉ m := by
  rw [count_keys, length_eq_zero_iff, eq_nil_iff_forall_not_mem]
  rfl

/-- How many values pass the test. -/
def countIf (p : ν → Bool) (m : HashMap κ ν) : Nat := m.entries.countP fun e => p e.2

theorem countIf_true (m : HashMap κ ν) : countIf (fun _ => true) m = count m :=
  congrFun countP_true _

theorem count_mapValues (f : κ → ν → ν) (m : HashMap κ ν) : count (mapValues f m) = count m :=
  length_map _

variable {p : ν → Bool}

theorem countIf_mapValues {f : κ → ν → ν} (m : HashMap κ ν) (h : ∀ k v, p (f k v) = p v) :
    countIf p (mapValues f m) = countIf p m := by
  rw [countIf, countIf, mapValues, countP_map]
  exact countP_congr fun e _ => by simp [h]

variable [DecidableEq κ] {m : HashMap κ ν} {k k' : κ} {v : ν}

theorem mem_entries : (⟨k, v⟩ : Sigma fun _ : κ => ν) ∈ m.entries ↔ m.lookup k = some v :=
  mem_lookup_iff.symm

theorem lookup_insert_eq (m : HashMap κ ν) (k k' : κ) (v : ν) :
    (AList.insert k v m).lookup k' = if k' = k then some v else m.lookup k' := by
  by_cases h : k' = k
  · rw [if_pos h, h, lookup_insert]
  · rw [if_neg h, lookup_insert_ne h]

theorem lookup_erase_eq (m : HashMap κ ν) (k k' : κ) :
    (AList.erase k m).lookup k' = if k' = k then none else m.lookup k' := by
  by_cases h : k' = k
  · rw [if_pos h, h, lookup_erase]
  · rw [if_neg h, lookup_erase_ne h]

/-- One row is put in the place of another, or of none: what held of every row still does. -/
theorem forall_put {P : κ → ν → Prop} {m' : HashMap κ ν} {row : Option ν}
    (heq : ∀ k', m'.lookup k' = if k' = k then row else m.lookup k')
    (hnew : ∀ v, row = some v → P k v)
    (hold : ∀ k' v, m.lookup k' = some v → P k' v) (k' : κ) (v : ν) (h : m'.lookup k' = some v) :
    P k' v := by
  rw [heq] at h
  split at h
  · next hk => exact hk ▸ hnew v h
  · exact hold k' v h

theorem forall_insert {P : κ → ν → Prop} (hnew : P k v)
    (hold : ∀ k' v, m.lookup k' = some v → P k' v) :
    ∀ k' v', (AList.insert k v m).lookup k' = some v' → P k' v' :=
  forall_put (lookup_insert_eq m k · v) (fun _ h => some.inj h ▸ hnew) hold

theorem lookup_mapValues (f : κ → ν → ν) (m : HashMap κ ν) (k : κ) :
    (mapValues f m).lookup k = (m.lookup k).map (f k) := by
  apply Option.ext
  intro v
  rw [← mem_def, mem_lookup_iff, map_eq_some_iff]
  constructor
  · intro h
    obtain ⟨⟨k', w⟩, he, heq⟩ := mem_map.mp h
    obtain ⟨rfl, hv⟩ := Sigma.mk.inj heq
    exact ⟨w, mem_entries.mp he, eq_of_heq hv⟩
  · rintro ⟨w, hw, rfl⟩
    exact mem_map.mpr ⟨⟨k, w⟩, mem_entries.mpr hw, rfl⟩

/-- One value rewritten where it stands. -/
def adjust (k : κ) (f : ν → ν) (m : HashMap κ ν) : HashMap κ ν :=
  mapValues (fun k' v => if k' = k then f v else v) m

theorem lookup_adjust (k k' : κ) (f : ν → ν) (m : HashMap κ ν) :
    (adjust k f m).lookup k' = if k' = k then (m.lookup k').map f else m.lookup k' := by
  rw [adjust, lookup_mapValues]
  split
  · rfl
  · exact map_id'

theorem lookup_keep (p : κ → ν → Bool) (m : HashMap κ ν) (k : κ) :
    (keep p m).lookup k = (m.lookup k).filter (p k) := by
  apply Option.ext
  intro v
  rw [← mem_def, mem_lookup_iff, filter_eq_some_iff, ← mem_entries]
  exact mem_filter

theorem erase_of_none (h : m.lookup k = none) : AList.erase k m = m :=
  AList.ext (kerase_of_notMem_keys (lookup_eq_none.mp h))

theorem mem_keys_iff : k ∈ m.keys ↔ (m.lookup k).isSome := lookup_isSome.symm

/-- Every one of the keys erased. -/
def eraseAll (keys : List κ) (m : HashMap κ ν) : HashMap κ ν :=
  keys.foldl (fun m k => AList.erase k m) m

theorem lookup_eraseAll (keys : List κ) (m : HashMap κ ν) (k : κ) :
    (eraseAll keys m).lookup k = if k ∈ keys then none else m.lookup k := by
  induction keys generalizing m with
  | nil => rfl
  | cons key keys ih =>
    refine (ih (AList.erase key m)).trans ?_
    rw [lookup_erase_eq]
    by_cases hk : k = key <;> by_cases hks : k ∈ keys <;> simp [hk, hks]

theorem count_erase_new (h : m.lookup k = none) : count (AList.erase k m) = count m := by
  rw [count_keys, count_keys, keys_erase, erase_of_not_mem (lookup_eq_none.mp h)]

theorem count_erase_old (h : (m.lookup k).isSome) : count (AList.erase k m) + 1 = count m := by
  have hmem : k ∈ m.keys := lookup_isSome.mp h
  have hpos := length_pos_of_mem hmem
  rw [count_keys, count_keys, keys_erase, length_erase_of_mem hmem]
  omega

theorem count_erase_le (m : HashMap κ ν) (k : κ) : count (AList.erase k m) ≤ count m := by
  cases h : m.lookup k with
  | none => exact Nat.le_of_eq (count_erase_new h)
  | some v =>
    have hcount := count_erase_old (m := m) (k := k) (by rw [h]; rfl)
    omega

theorem count_insert_new (h : m.lookup k = none) : count (AList.insert k v m) = count m + 1 := by
  rw [count, entries_insert_of_notMem (lookup_eq_none.mp h), length_cons, count]

theorem count_insert_old (h : (m.lookup k).isSome) : count (AList.insert k v m) = count m := by
  rw [count, entries_insert, length_cons]
  exact count_erase_old h

/-! ## Counting the values that pass a test -/

theorem entries_perm_erase (h : m.lookup k = some v) :
    m.entries.Perm (⟨k, v⟩ :: (AList.erase k m).entries) := by
  have hmem : k ∈ m := lookup_isSome.mp (by rw [h]; rfl)
  obtain ⟨w, l, r, -, hsplit, herase⟩ := exists_of_kerase hmem
  have hw : w = v := by
    have hin : (⟨k, w⟩ : Sigma fun _ : κ => ν) ∈ m.entries := by
      rw [hsplit]
      simp
    rw [mem_entries, h] at hin
    exact (some.inj hin).symm
  rw [show (AList.erase k m).entries = l ++ r from herase, hsplit, hw]
  exact perm_middle

theorem countIf_erase_old (h : m.lookup k = some v) :
    countIf p (AList.erase k m) + (if p v then 1 else 0) = countIf p m := by
  rw [countIf, countIf, (entries_perm_erase h).countP_eq, countP_cons]

theorem countIf_erase_new (h : m.lookup k = none) :
    countIf p (AList.erase k m) = countIf p m := by
  have hsame : (AList.erase k m).entries = m.entries := kerase_of_notMem_keys (lookup_eq_none.mp h)
  rw [countIf, countIf, hsame]

theorem countIf_insert :
    countIf p (AList.insert k v m) = countIf p (AList.erase k m) + if p v then 1 else 0 := by
  rw [countIf, countIf, entries_insert, countP_cons]
  rfl

variable {m' : HashMap κ ν}

/-- Two maps that answer alike have the same size, whatever their order. -/
theorem perm_of_lookup (h : ∀ k, m'.lookup k = m.lookup k) :
    m'.entries.Perm m.entries := by
  refine (perm_ext_iff_of_nodup ?_ ?_).mpr fun e => ?_
  · exact List.NodupKeys.nodup m'.nodupKeys
  · exact List.NodupKeys.nodup m.nodupKeys
  · rw [mem_entries, mem_entries, h]

theorem count_congr (h : ∀ k, m'.lookup k = m.lookup k) : count m' = count m :=
  (perm_of_lookup h).length_eq

theorem countIf_congr (h : ∀ k, m'.lookup k = m.lookup k) :
    countIf p m' = countIf p m :=
  (perm_of_lookup h).countP_eq _

/-- A table whose counted keys are all counted in the other one has no more of them. -/
theorem countIf_le_of_lookup {ω : Type} {m' : HashMap κ ω} {q : ω → Bool}
    (h : ∀ k v, m.lookup k = some v → p v = true → ∃ w, m'.lookup k = some w ∧ q w = true) :
    countIf p m ≤ countIf q m' := by
  have hnodup : ((m.entries.filter fun e => p e.2).map (·.1)).Nodup :=
    (filter_sublist.map _).nodup m.nodupKeys
  have hsubset : ((m.entries.filter fun e => p e.2).map (·.1)) ⊆
      (m'.entries.filter fun e => q e.2).map (·.1) := by
    intro k hk
    obtain ⟨⟨k, v⟩, he, rfl⟩ := mem_map.mp hk
    obtain ⟨hin, hp⟩ := mem_filter.mp he
    obtain ⟨w, hw, hq⟩ := h k v (mem_entries.mp hin) hp
    exact mem_map.mpr ⟨⟨k, w⟩, mem_filter.mpr ⟨mem_entries.mpr hw, hq⟩, rfl⟩
  have hlength := (subperm_of_subset hnodup hsubset).length_le
  rw [length_map, length_map] at hlength
  rw [countIf, countIf, countP_eq_length_filter, countP_eq_length_filter]
  exact hlength

theorem count_le_of_lookup {ω : Type} {m' : HashMap κ ω}
    (h : ∀ k v, m.lookup k = some v → (m'.lookup k).isSome) : count m ≤ count m' := by
  rw [← countIf_true m, ← countIf_true m']
  refine countIf_le_of_lookup fun k v hv _ => ?_
  obtain ⟨w, hw⟩ := isSome_iff_exists.mp (h k v hv)
  exact ⟨w, hw, rfl⟩

end HashMap

end

/-!
## The order of an iterator

A rehash may leave the rows of a table in any order. Every order comes from exchanges of
neighbours, so a fact that an exchange keeps is one of the table and not of its order.
-/
section

variable {α κ ν : Type}

/-- The elements at `i` and `i + 1` in each other's place. -/
def exchange : Nat → List α → List α
  | 0, x :: y :: rest => y :: x :: rest
  | i + 1, x :: rest => x :: exchange i rest
  | _, xs => xs

theorem exchange_perm (i : Nat) (xs : List α) : (exchange i xs).Perm xs := by
  induction xs generalizing i with
  | nil => cases i <;> exact List.Perm.refl _
  | cons x rest ih =>
    cases i with
    | succ i => exact (ih i).cons x
    | zero =>
      cases rest with
      | nil => exact List.Perm.refl _
      | cons y rest => exact List.Perm.swap x y rest

namespace HashMap

def rehash (i : Nat) (m : HashMap κ ν) : HashMap κ ν :=
  ⟨exchange i m.entries, by
    rw [List.nodupKeys_iff_pairwise] at *
    exact (exchange_perm i m.entries).symm.pairwise
      (List.nodupKeys_iff_pairwise.mp m.nodupKeys) fun h => h.symm⟩

variable [DecidableEq κ]

theorem lookup_rehash (i : Nat) (m : HashMap κ ν) (k : κ) : (rehash i m).lookup k = m.lookup k :=
  AList.perm_lookup (exchange_perm i m.entries)

end HashMap

end

end OnyxServer.Lib
