import Mathlib.Data.List.Perm.Subperm
import Mathlib.Logic.Function.Basic
import OnyxServer.Lib.Search

/-!
# Open addressing

A table of slots where every key has a sequence of places to be looked for. A slot is free,
in use under a key, or a tombstone. A search may stop at a free slot, because every key in
use is behind no free slot of its sequence. Writing anything but a free slot keeps this.
-/
namespace OnyxServer.Lib

open List Option

/-- What a search sees of a slot. -/
inductive Cell (κ : Type) where
  | free
  | tombstone
  | used (key : κ)
  deriving DecidableEq

variable {σ κ ν : Type}

section Table

variable (cell : σ → Cell κ) (probe : κ → Nat → Nat) (slots : List σ)

def Uses (i : Nat) (k : κ) : Prop := ∃ s, slots[i]? = some s ∧ cell s = .used k

def IsFree (i : Nat) : Prop := ∃ s, slots[i]? = some s ∧ cell s = .free

/-- The place is one of the key, and no free slot comes before it. -/
def Reachable (k : κ) (i : Nat) : Prop :=
  ∃ p < slots.length, probe k p = i ∧ ∀ q < p, ¬ IsFree cell slots (probe k q)

/-- Keys in use are distinct, and searches find them. -/
structure Sound : Prop where
  distinct : ∀ i j k, Uses cell slots i k → Uses cell slots j k → i = j
  reached : ∀ i k, Uses cell slots i k → Reachable cell probe slots k i

/-- A probe sequence visits every slot, and nothing else. -/
structure Cycles (length : Nat) : Prop where
  inside : ∀ k p, p < length → probe k p < length
  onto : ∀ k i, i < length → ∃ p < length, probe k p = i

def Cell.key? : Cell κ → Option κ
  | .used key => some key
  | _ => none

def liveKeys : List κ := slots.filterMap (Cell.key? ∘ cell)

/-- The table holds the map. -/
def Contains (value : σ → ν) (m : κ → Option ν) : Prop :=
  ∀ k v, m k = some v ↔ ∃ (i : Nat) (s : σ), slots[i]? = some s ∧ cell s = .used k ∧ value s = v

end Table

variable {cell : σ → Cell κ} {probe : κ → Nat → Nat} {slots : List σ} {value : σ → ν}
    {m : κ → Option ν}
  {s s' : σ} {i : Nat} {k : κ}

section Search

/-- A key that was not met before a free slot is not in the table. -/
theorem Sound.absent_of_free (h : Sound cell probe slots) {p : Nat}
    (hfree : IsFree cell slots (probe k p))
    (hnot : ∀ q < p, ¬ Uses cell slots (probe k q) k) (i : Nat) : ¬ Uses cell slots i k := by
  intro huse
  obtain ⟨p', -, rfl, hclear⟩ := h.reached i k huse
  rcases Nat.lt_trichotomy p' p with hlt | rfl | hgt
  · exact hnot p' hlt huse
  · obtain ⟨s, hs, hcell⟩ := hfree
    obtain ⟨t, ht, hused⟩ := huse
    rw [hs] at ht
    cases ht
    rw [hcell] at hused
    cases hused
  · exact hclear p hgt hfree

theorem Sound.absent_of_all (h : Sound cell probe slots)
    (hnot : ∀ q < slots.length, ¬ Uses cell slots (probe k q) k) (i : Nat) :
    ¬ Uses cell slots i k := by
  intro huse
  obtain ⟨p, hp, rfl, -⟩ := h.reached i k huse
  exact hnot p hp huse

theorem contains_some (h : Contains cell slots value m) (hslot : slots[i]? = some s)
    (hcell : cell s = .used k) :
    m k = some (value s) :=
  (h k (value s)).mpr ⟨i, s, hslot, hcell, rfl⟩

theorem contains_none (h : Contains cell slots value m) :
    m k = none ↔ ∀ i, ¬ Uses cell slots i k := by
  constructor
  · rintro hnone i ⟨s, hs, hcell⟩
    rw [contains_some h hs hcell] at hnone
    cases hnone
  · intro hnot
    cases hm : m k with
    | none => rfl
    | some v =>
      obtain ⟨i, s, hs, hcell, -⟩ := (h k v).mp hm
      exact absurd ⟨s, hs, hcell⟩ (hnot i)

end Search

section Keys

theorem key?_eq_some {c : Cell κ} : c.key? = some k ↔ c = .used k := by
  cases c <;> simp [Cell.key?]

theorem mem_liveKeys : k ∈ liveKeys cell slots ↔ ∃ i, Uses cell slots i k := by
  simp only [liveKeys, mem_filterMap, Function.comp_apply, key?_eq_some]
  constructor
  · rintro ⟨s, hs, hcell⟩
    obtain ⟨i, hi⟩ := mem_iff_getElem?.mp hs
    exact ⟨i, s, hi, hcell⟩
  · rintro ⟨i, s, hi, hcell⟩
    exact ⟨s, mem_of_getElem? hi, hcell⟩

theorem nodup_liveKeys (h : ∀ i j k, Uses cell slots i k → Uses cell slots j k → i = j) :
    (liveKeys cell slots).Nodup := by
  induction slots with
  | nil => exact nodup_nil
  | cons s rest ih =>
    have hrest := ih fun i j k hi hj => Nat.succ.inj (h (i + 1) (j + 1) k hi hj)
    unfold liveKeys at hrest ⊢
    cases hkey : (Cell.key? ∘ cell) s with
    | none =>
      rw [filterMap_cons_none hkey]
      exact hrest
    | some k =>
      rw [filterMap_cons_some hkey, nodup_cons]
      refine ⟨fun hmem => ?_, hrest⟩
      obtain ⟨i, hi⟩ := mem_liveKeys.mp hmem
      exact absurd (h 0 (i + 1) k ⟨s, rfl, key?_eq_some.mp hkey⟩ hi) (Nat.succ_ne_zero i).symm

theorem contains_mem (h : Contains cell slots value m) :
    k ∈ liveKeys cell slots ↔ (m k).isSome := by
  rw [mem_liveKeys, Option.isSome_iff_ne_none, Ne, contains_none h, not_forall_not]

/-- Fewer keys than slots leave a slot that is not in use, on the way of every key. -/
theorem Cycles.vacant (h : Cycles probe slots.length)
    (hroom : (liveKeys cell slots).length < slots.length)
    (k : κ) : ∃ p < slots.length, ∃ s, slots[probe k p]? = some s ∧ (cell s).key? = none := by
  by_contra hnone
  have hall : ∀ s ∈ slots, ((Cell.key? ∘ cell) s).isSome := by
    intro s hs
    obtain ⟨i, hi⟩ := mem_iff_getElem?.mp hs
    obtain ⟨p, hp, rfl⟩ := h.onto k i (List.getElem?_eq_some_iff.mp hi).1
    rw [Option.isSome_iff_ne_none]
    exact fun hfree => hnone ⟨p, hp, s, hi, hfree⟩
  rw [liveKeys, length_filterMap_eq_countP, countP_eq_length.mpr hall] at hroom
  exact Nat.lt_irrefl _ hroom

/-- A new key beside the others of a larger set. -/
theorem room_of_subset (keys : List κ) (hnodup : (liveKeys cell slots).Nodup)
    (hsub : ∀ k ∈ liveKeys cell slots, k ∈ keys) (hkey : k ∈ keys)
    (hnew : k ∉ liveKeys cell slots) :
    (liveKeys cell slots).length < keys.length := by
  have hcons : (k :: liveKeys cell slots).Nodup := nodup_cons.mpr ⟨hnew, hnodup⟩
  exact (subperm_of_subset hcons (cons_subset.mpr ⟨hkey, hsub⟩)).length_le

theorem countP_set_add (p : σ → Bool) (s' : σ) (hs : slots[i]? = some s) :
    (slots.set i s').countP p + (p s).toNat = slots.countP p + (p s').toNat := by
  obtain ⟨l, r, rfl, rfl⟩ := getElem?_split hs
  rw [set_split]
  simp only [countP_append, countP_cons, Bool.toNat, Bool.cond_eq_ite]
  omega

end Keys

section Write

theorem uses_set (hs : slots[i]? = some s) {j : Nat} :
    Uses cell (slots.set i s') j k ↔ (j = i ∧ cell s' = .used k) ∨
    (j ≠ i ∧ Uses cell slots j k) := by
  obtain ⟨hlt, -⟩ := List.getElem?_eq_some_iff.mp hs
  by_cases hj : j = i
  · subst hj
    simp [Uses, List.getElem?_set_self hlt]
  · simp [Uses, List.getElem?_set_ne (Ne.symm hj), hj]

theorem isFree_set (hs : slots[i]? = some s) (hnew : cell s' ≠ .free) {j : Nat}
    (h : IsFree cell (slots.set i s') j) : IsFree cell slots j := by
  obtain ⟨hlt, -⟩ := List.getElem?_eq_some_iff.mp hs
  obtain ⟨t, ht, hfree⟩ := h
  by_cases hj : j = i
  · subst hj
    rw [List.getElem?_set_self hlt] at ht
    cases ht
    exact absurd hfree hnew
  · rw [List.getElem?_set_ne (Ne.symm hj)] at ht
    exact ⟨t, ht, hfree⟩

theorem Reachable.set (h : Reachable cell probe slots k i) {j : Nat} {t t' : σ}
    (ht : slots[j]? = some t)
    (hnew : cell t' ≠ .free) : Reachable cell probe (slots.set j t') k i := by
  obtain ⟨p, hp, heq, hclear⟩ := h
  exact ⟨p, by rwa [length_set], heq, fun q hq hfree => hclear q hq (isFree_set ht hnew hfree)⟩

theorem Sound.set (h : Sound cell probe slots) (hs : slots[i]? = some s) (hnew : cell s' ≠ .free)
    (hkey : ∀ k, cell s' = .used k → (∀ j, Uses cell slots j k → j = i) ∧
      Reachable cell probe slots k i) :
    Sound cell probe (slots.set i s') := by
  constructor
  · intro a b k ha hb
    rcases (uses_set hs).mp ha with ⟨hai, hcell⟩ | ⟨-, ha⟩
    · rcases (uses_set hs).mp hb with ⟨hbi, -⟩ | ⟨-, hb⟩
      · exact hai.trans hbi.symm
      · exact hai.trans ((hkey k hcell).1 b hb).symm
    · rcases (uses_set hs).mp hb with ⟨hbi, hcell⟩ | ⟨-, hb⟩
      · exact ((hkey k hcell).1 a ha).trans hbi.symm
      · exact h.distinct a b k ha hb
  · intro a k ha
    rcases (uses_set hs).mp ha with ⟨rfl, hcell⟩ | ⟨-, ha⟩
    · exact (hkey k hcell).2.set hs hnew
    · exact (h.reached a k ha).set hs hnew

/-- What the other slots hold, with what is written. -/
theorem contains_set [DecidableEq κ] (h : Contains cell slots value m) (hs : slots[i]? = some s)
    (hrest : ∀ j, Uses cell slots j k → j = i) (hold : ∀ k', cell s = .used k' → k' = k)
    (hnew : ∀ k', cell s' = .used k' → k' = k) :
    Contains cell (slots.set i s') value
      (Function.update m k (if cell s' = .used k then some (value s') else none)) := by
  obtain ⟨hlt, -⟩ := List.getElem?_eq_some_iff.mp hs
  intro k' v
  by_cases hk : k' = k
  · subst hk
    rw [Function.update_self]
    constructor
    · intro hv
      split at hv
      · next hcell =>
        exact ⟨i, s', List.getElem?_set_self hlt, hcell, some.inj hv⟩
      · cases hv
    · rintro ⟨j, t, ht, hcell, rfl⟩
      by_cases hj : j = i
      · subst hj
        rw [List.getElem?_set_self hlt] at ht
        cases ht
        rw [if_pos hcell]
      · rw [List.getElem?_set_ne (Ne.symm hj)] at ht
        exact absurd (hrest j ⟨t, ht, hcell⟩) hj
  · rw [Function.update_of_ne hk, h k' v]
    constructor
    · rintro ⟨j, t, ht, hcell, hv⟩
      have hj : j ≠ i := by
        rintro rfl
        rw [hs] at ht
        cases ht
        exact hk (hold k' hcell)
      exact ⟨j, t, by rwa [List.getElem?_set_ne (Ne.symm hj)], hcell, hv⟩
    · rintro ⟨j, t, ht, hcell, hv⟩
      have hj : j ≠ i := by
        rintro rfl
        rw [List.getElem?_set_self hlt] at ht
        cases ht
        exact hk (hnew k' hcell)
      exact ⟨j, t, by rwa [List.getElem?_set_ne (Ne.symm hj)] at ht, hcell, hv⟩

/-- A new key goes to a place that is not in use. -/
theorem Sound.place [DecidableEq κ] (h : Sound cell probe slots)
    (hmap : Contains cell slots value m)
    (habsent : m k = none) (hs : slots[i]? = some s) (hvacant : ∀ k', cell s ≠ .used k')
    (hreach : Reachable cell probe slots k i) (hcell : cell s' = .used k) :
    Sound cell probe (slots.set i s') ∧
      Contains cell (slots.set i s') value (Function.update m k (some (value s'))) := by
  have hnone := (contains_none hmap).mp habsent
  have hkey : ∀ k', cell s' = .used k' → k' = k := fun k' hk' => by
    rw [hcell] at hk'
    injection hk' with heq
    exact heq.symm
  refine ⟨h.set hs (by rw [hcell]; nofun) fun k' hk' => ?_, ?_⟩
  · obtain rfl := hkey k' hk'
    exact ⟨fun j hj => absurd hj (hnone j), hreach⟩
  · have hset := contains_set (k := k) hmap hs (fun j hj => absurd hj (hnone j))
      (fun k' hk' => absurd hk' (hvacant k')) hkey
    rwa [if_pos hcell] at hset

/-- The slot of a key is written again. -/
theorem Sound.rewrite [DecidableEq κ] (h : Sound cell probe slots)
    (hmap : Contains cell slots value m)
    (hs : slots[i]? = some s) (hold : cell s = .used k)
    (hcell : cell s' = .used k ∨ cell s' = .tombstone) :
    Sound cell probe (slots.set i s') ∧
      Contains cell (slots.set i s') value
        (Function.update m k (if cell s' = .used k then some (value s') else none)) := by
  have hrest : ∀ j, Uses cell slots j k → j = i := fun j hj => h.distinct j i k hj ⟨s, hs, hold⟩
  have hnew : ∀ k', cell s' = .used k' → k' = k := by
    intro k' hk'
    rcases hcell with hcell | hcell
    · rw [hcell] at hk'
      injection hk' with heq
      exact heq.symm
    · rw [hcell] at hk'
      cases hk'
  refine ⟨h.set hs (by rcases hcell with hcell | hcell <;> rw [hcell] <;> nofun) fun k' hk' => ?_,
    ?_⟩
  · obtain rfl := hnew k' hk'
    exact ⟨hrest, h.reached i k' ⟨s, hs, hold⟩⟩
  · refine contains_set hmap hs hrest (fun k' hk' => ?_) hnew
    rw [hold] at hk'
    injection hk' with heq
    exact heq.symm

end Write

end OnyxServer.Lib
