import Mathlib.Data.List.AList
import Mathlib.Data.Nat.ModEq

/-!
# Rings and tables of rings

A ring of fixed capacity keeps its entries in slots that wrap around. Its view is the list
of entries, oldest first; appending and removing on the slots are appending and removing on
the view. The sum of a weight over a table changes with one entry at a time.
-/
namespace OnyxServer.Lib

open List

/-- Slots outside the `len` entries from `start` hold anything. -/
structure RingBuffer (α : Type) where
  slots : Nat → α
  start : Nat
  len : Nat

namespace RingBuffer

variable {α : Type} (cap : Nat) (ring : RingBuffer α)

def slot (index : Nat) : Nat := (ring.start + index) % cap

def entry (index : Nat) : α := ring.slots (ring.slot cap index)

/-- The entries, oldest first. -/
def view : List α := (List.range ring.len).map (ring.entry cap)

def setEntry (index : Nat) (x : α) : RingBuffer α :=
  { ring with slots := fun other => if other = ring.slot cap index then x else ring.slots other }

/-- Append, over the oldest entry when the ring is full. -/
def appendTake (x : α) : RingBuffer α :=
  if ring.len = cap then
    { ring with
      slots := fun other => if other = ring.start then x else ring.slots other
      start := (ring.start + 1) % cap }
  else { ring.setEntry cap ring.len x with len := ring.len + 1 }

/-- Move every later entry one slot down. -/
def shiftDown : Nat → Nat → RingBuffer α → RingBuffer α
  | 0, _, ring => ring
  | rounds + 1, index, ring =>
    if index + 1 < ring.len then
      shiftDown rounds (index + 1) (ring.setEntry cap index (ring.entry cap (index + 1)))
    else ring

def removeAt (index : Nat) : RingBuffer α :=
  let shifted := shiftDown cap ring.len index ring
  { shifted with len := shifted.len - 1 }

variable {cap} {ring}

theorem length_view : (ring.view cap).length = ring.len := by
  rw [view, length_map, length_range]

theorem getElem?_view {index : Nat} (h : index < ring.len) :
    (ring.view cap)[index]? = some (ring.entry cap index) := by
  rw [view, List.getElem?_map, List.getElem?_range h]
  rfl

theorem mem_view {x : α} : x ∈ ring.view cap ↔ ∃ index < ring.len, ring.entry cap index = x := by
  rw [view, mem_map]
  simp only [mem_range]

/-- Entries within the capacity have slots of their own. -/
theorem slot_inj {i j : Nat} (hi : i < cap) (hj : j < cap) (h : ring.slot cap i = ring.slot cap j) :
    i = j := by
  have hmod : i ≡ j [MOD cap] := Nat.ModEq.add_left_cancel' ring.start h
  rwa [Nat.ModEq, Nat.mod_eq_of_lt hi, Nat.mod_eq_of_lt hj] at hmod

theorem entry_setEntry {i j : Nat} (hi : i < cap) (hj : j < cap) (x : α) :
    (ring.setEntry cap i x).entry cap j = if j = i then x else ring.entry cap j := by
  show (if ring.slot cap j = ring.slot cap i then x else ring.slots (ring.slot cap j)) = _
  by_cases h : j = i
  · rw [h, if_pos rfl, if_pos rfl]
  · rw [if_neg fun hslot => h (slot_inj hj hi hslot), if_neg h]
    rfl

theorem view_setEntry (hlen : ring.len ≤ cap) {index : Nat} (hindex : index < ring.len) (x : α) :
    (ring.setEntry cap index x).view cap = (ring.view cap).set index x := by
  apply ext_getElem?
  intro i
  by_cases hi : i < ring.len
  · rw [getElem?_view (show i < (ring.setEntry cap index x).len from hi),
      entry_setEntry (by omega) (by omega), List.getElem?_set, length_view, getElem?_view hi]
    by_cases h : i = index
    · rw [if_pos h, if_pos h.symm, if_pos hindex]
    · rw [if_neg h, if_neg (Ne.symm h)]
  · rw [List.getElem?_eq_none (by rw [length_view]; exact Nat.le_of_not_lt hi),
      List.getElem?_eq_none (by rw [length_set, length_view]; omega)]

theorem view_appendTake (hlen : ring.len < cap) (x : α) :
    (ring.appendTake cap x).view cap = ring.view cap ++ [x] := by
  rw [appendTake, if_neg (by omega), view, range_succ, map_append]
  congr 1
  · refine map_congr_left fun index hindex => ?_
    rw [mem_range] at hindex
    show (ring.setEntry cap ring.len x).entry cap index = _
    rw [entry_setEntry hlen (by omega), if_neg (by omega)]
  · show [(ring.setEntry cap ring.len x).entry cap ring.len] = _
    rw [entry_setEntry hlen hlen, if_pos rfl]

theorem shiftDown_spec (hlen : ring.len ≤ cap) {rounds index : Nat}
    (hrounds : ring.len ≤ index + rounds) :
    (shiftDown cap rounds index ring).len = ring.len ∧ ∀ j < ring.len,
      (shiftDown cap rounds index ring).entry cap j =
        if index ≤ j ∧ j + 1 < ring.len then ring.entry cap (j + 1) else ring.entry cap j := by
  induction rounds generalizing index ring with
  | zero =>
    refine ⟨rfl, fun j hj => ?_⟩
    rw [if_neg (by omega)]
    rfl
  | succ rounds ih =>
    rw [shiftDown]
    split
    · next hindex =>
      obtain ⟨hsame, hentry⟩ :=
        @ih (ring.setEntry cap index (ring.entry cap (index + 1))) hlen (index + 1)
        (by show ring.len ≤ _; omega)
      refine ⟨hsame, fun j hj => ?_⟩
      rw [hentry j hj]
      show (if index + 1 ≤ j ∧ j + 1 < ring.len then _ else _) = _
      by_cases hlater : index + 1 ≤ j ∧ j + 1 < ring.len
      · rw [if_pos hlater, if_pos (by omega), entry_setEntry (by omega) (by omega),
          if_neg (by omega)]
      rw [if_neg hlater, entry_setEntry (by omega) (by omega)]
      by_cases hat : j = index
      · rw [if_pos hat, if_pos (by omega), hat]
      · rw [if_neg hat, if_neg (by omega)]
    · refine ⟨rfl, fun j hj => ?_⟩
      rw [if_neg (by omega)]

theorem view_removeAt (hlen : ring.len ≤ cap) {index : Nat} (hindex : index < ring.len) :
    (ring.removeAt cap index).view cap = (ring.view cap).eraseIdx index ∧
    (ring.removeAt cap index).len = ring.len - 1 := by
  obtain ⟨hsame, hentry⟩ := @shiftDown_spec α cap ring hlen ring.len index (by omega)
  have hnew : (ring.removeAt cap index).len = ring.len - 1 := by
    show (shiftDown cap ring.len index ring).len - 1 = _
    rw [hsame]
  refine ⟨?_, hnew⟩
  apply ext_getElem?
  intro i
  by_cases hi : i < ring.len - 1
  · rw [getElem?_view (by rw [hnew]; exact hi), List.getElem?_eraseIdx]
    have hmoved : (ring.removeAt cap index).entry cap i =
        (shiftDown cap ring.len index ring).entry cap i := rfl
    rw [hmoved, hentry i (by omega)]
    by_cases hbefore : i < index
    · rw [if_pos hbefore, if_neg (by omega), getElem?_view (by omega)]
    · rw [if_neg hbefore, if_pos (by omega), getElem?_view (by omega)]
  · rw [List.getElem?_eq_none (by rw [length_view, hnew]; omega),
      List.getElem?_eq_none
      (by rw [length_eraseIdx_of_lt (by rw [length_view]; exact hindex), length_view]; omega)]

end RingBuffer

section Table

variable {κ β : Type} [DecidableEq κ] (weight : κ → β → Nat)

def tableSum (table : AList fun _ : κ => β) : Nat :=
  (table.entries.map fun row => weight row.1 row.2).sum

variable {weight} {table : AList fun _ : κ => β} {k : κ} {v : β}

theorem tableSum_erase (h : table.lookup k = some v) :
    tableSum weight table = weight k v + tableSum weight (table.erase k) := by
  have hmem : (⟨k, v⟩ : Sigma fun _ : κ => β) ∈ table.entries := AList.mem_lookup_iff.mp h
  have hkey : k ∈ table.entries.keys := mem_keys_of_mem hmem
  obtain ⟨w, l, r, hl, hsplit, hkerase⟩ := exists_of_kerase hkey
  have hw : w = v := by
    have hw : (⟨k, w⟩ : Sigma fun _ : κ => β) ∈ table.entries := by simp [hsplit]
    have hlookup := AList.mem_lookup_iff.mpr hw
    rw [Option.mem_def, h] at hlookup
    exact (Option.some.inj hlookup).symm
  show (table.entries.map _).sum = _ + ((table.entries.kerase k).map _).sum
  rw [hkerase, hsplit, hw]
  simp only [map_append, map_cons, sum_append, sum_cons]
  omega

theorem tableSum_insert :
    tableSum weight (table.insert k v) = weight k v + tableSum weight (table.erase k) := rfl

theorem tableSum_insert_new (h : table.lookup k = none) :
    tableSum weight (table.insert k v) = weight k v + tableSum weight table := by
  show ((table.insert k v).entries.map _).sum = _
  rw [AList.entries_insert_of_notMem (AList.lookup_eq_none.mp h)]
  rfl

theorem tableSum_le (h : table.lookup k = some v) : weight k v ≤ tableSum weight table := by
  rw [tableSum_erase h]
  exact Nat.le_add_right _ _

end Table

end OnyxServer.Lib
