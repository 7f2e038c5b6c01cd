import Mathlib.Data.List.Nodup
import OnyxServer.Lib.Search

/-!
# Keyed lists

A flat array whose elements have distinct keys. Writing over an element, removing it and
appending one with a new key are described by what is then in the array.
-/
namespace OnyxServer.Lib

open List

variable {α κ : Type} {key : α → κ} {l r xs : List α} {x y a : α}

def DistinctKeys (key : α → κ) (xs : List α) : Prop := (xs.map key).Nodup

instance [DecidableEq κ] : Decidable (DistinctKeys key xs) :=
  inferInstanceAs (Decidable (xs.map key).Nodup)

theorem distinctKeys_nil (key : α → κ) : DistinctKeys key [] := nodup_nil

theorem DistinctKeys.sublist {ys : List α} (h : DistinctKeys key xs) (hsub : ys.Sublist xs) :
    DistinctKeys key ys :=
  List.Nodup.sublist (hsub.map key) h

theorem distinctKeys_split (key : α → κ) (l r : List α) (x : α) :
    DistinctKeys key (l ++ x :: r) ↔
      DistinctKeys key (l ++ r) ∧ ∀ y ∈ l ++ r, key y ≠ key x := by
  simp only [DistinctKeys, map_append, map_cons, nodup_middle, nodup_cons,
    mem_append, mem_map, not_or, not_exists, not_and]
  constructor
  · rintro ⟨⟨hl, hr⟩, hnodup⟩
    exact ⟨hnodup, fun y hy => hy.elim (hl y) (hr y)⟩
  · rintro ⟨hnodup, hne⟩
    exact ⟨⟨fun y hy => hne y (.inl hy), fun y hy => hne y (.inr hy)⟩, hnodup⟩

theorem DistinctKeys.erase (h : DistinctKeys key (l ++ x :: r)) : DistinctKeys key (l ++ r) :=
  ((distinctKeys_split key l r x).mp h).1

theorem DistinctKeys.replace (h : DistinctKeys key (l ++ x :: r)) (hkey : key y = key x) :
    DistinctKeys key (l ++ y :: r) := by
  obtain ⟨hrest, hne⟩ := (distinctKeys_split key l r x).mp h
  exact (distinctKeys_split key l r y).mpr ⟨hrest, fun z hz => hkey ▸ hne z hz⟩

theorem DistinctKeys.concat (h : DistinctKeys key xs) (hnew : ∀ z ∈ xs, key z ≠ key x) :
    DistinctKeys key (xs ++ [x]) :=
  (distinctKeys_split key xs [] x).mpr
    ⟨(append_nil xs).symm ▸ h, (append_nil xs).symm ▸ hnew⟩

theorem DistinctKeys.perm {ys : List α} (h : DistinctKeys key xs) (hperm : ys.Perm xs) :
    DistinctKeys key ys :=
  (hperm.map key).nodup_iff.mpr h

theorem distinctKeys_pairwise : DistinctKeys key xs ↔ xs.Pairwise fun x y => key x ≠ key y :=
  pairwise_map

theorem distinctKeys_map (f : α → α) :
    DistinctKeys key (xs.map f) ↔ xs.Pairwise fun x y => key (f x) ≠ key (f y) :=
  distinctKeys_pairwise.trans pairwise_map

theorem mem_split : a ∈ l ++ x :: r ↔ a = x ∨ a ∈ l ++ r := by
  simp only [mem_append, mem_cons]
  tauto

theorem DistinctKeys.mem_erase (h : DistinctKeys key (l ++ x :: r)) :
    a ∈ l ++ r ↔ a ∈ l ++ x :: r ∧ key a ≠ key x := by
  obtain ⟨-, hne⟩ := (distinctKeys_split key l r x).mp h
  rw [mem_split]
  constructor
  · exact fun ha => ⟨.inr ha, hne a ha⟩
  · rintro ⟨rfl | ha, hkey⟩
    · exact absurd rfl hkey
    · exact ha

theorem DistinctKeys.mem_replace (h : DistinctKeys key (l ++ x :: r)) :
    a ∈ l ++ y :: r ↔ a = y ∨ (a ∈ l ++ x :: r ∧ key a ≠ key x) := by
  rw [mem_split, h.mem_erase]

theorem DistinctKeys.index_eq (h : DistinctKeys key xs) {i j : Nat} (hx : xs[i]? = some x)
    (hy : xs[j]? = some y) (hkey : key x = key y) : i = j := by
  obtain ⟨hlt, -⟩ := List.getElem?_eq_some_iff.mp hx
  refine (List.getElem?_inj (by simpa using hlt) h).mp ?_
  rw [List.getElem?_map, List.getElem?_map, hx, hy, Option.map_some, Option.map_some, hkey]

/-- Two elements of one key are one element. -/
theorem DistinctKeys.eq_of_key (h : DistinctKeys key xs) (hx : x ∈ xs) (hy : y ∈ xs)
    (hkey : key x = key y) : x = y :=
  inj_on_of_nodup_map h hx hy hkey

end OnyxServer.Lib
