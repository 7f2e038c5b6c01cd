import Mathlib.Data.List.Induction
import OnyxServer.Lib.Bytes

/-!
# Sorted sequences kept in flat arrays

Binary search, insertion by shifting the tail up one slot and removal by shifting
it down, as loops over positions. The specifications speak of the two halves a
position splits a list into, so that a caller never computes with indices.
-/
namespace OnyxServer.Lib

open List

variable {α κ : Type}

def partitionPointLoop (below : α → Bool) (xs : List α) : Nat → Nat → Nat → Nat
  | 0, lo, _ => lo
  | fuel + 1, lo, hi =>
    if lo < hi then
      let mid := lo + (hi - lo) / 2
      match xs[mid]? with
      | some x =>
        if below x then partitionPointLoop below xs fuel (mid + 1) hi
        else partitionPointLoop below xs fuel lo mid
      | none => lo
    else lo

/-- The first position whose element is not `below`. -/
def partitionPoint (below : α → Bool) (xs : List α) : Nat :=
  partitionPointLoop below xs xs.length 0 xs.length

/-- Every element before a `below` element is itself `below`. -/
def Partitioned (below : α → Bool) (xs : List α) : Prop :=
  xs.Pairwise fun a b => below b = true → below a = true

variable {below : α → Bool}

theorem Partitioned.at {xs : List α} (hp : Partitioned below xs)
    {i j : Nat} {a b : α} (hij : i ≤ j) (ha : xs[i]? = some a) (hb : xs[j]? = some b)
    (h : below b = true) : below a = true := by
  obtain ⟨hi, rfl⟩ := List.getElem?_eq_some_iff.mp ha
  obtain ⟨hj, rfl⟩ := List.getElem?_eq_some_iff.mp hb
  rcases Nat.lt_or_eq_of_le hij with hlt | rfl
  · exact pairwise_iff_getElem.mp hp i j hi hj hlt h
  · exact h

theorem partitionPointLoop_spec {xs : List α} (hp : Partitioned below xs) :
    ∀ fuel lo hi, hi - lo ≤ fuel → lo ≤ hi → hi ≤ xs.length →
      (∀ i x, i < lo → xs[i]? = some x → below x = true) →
      (∀ i x, hi ≤ i → xs[i]? = some x → below x = false) →
      partitionPointLoop below xs fuel lo hi ≤ xs.length ∧
      (∀ i x, i < partitionPointLoop below xs fuel lo hi → xs[i]? = some x → below x = true) ∧
      (∀ i x, partitionPointLoop below xs fuel lo hi ≤ i → xs[i]? = some x → below x = false) := by
  intro fuel
  induction fuel with
  | zero =>
    intro lo hi hf hle hlen hlo hhi
    obtain rfl : lo = hi := by omega
    exact ⟨hlen, hlo, hhi⟩
  | succ fuel ih =>
    intro lo hi hf hle hlen hlo hhi
    by_cases hlt : lo < hi
    · have hmid : lo + (hi - lo) / 2 < hi := by omega
      have hsome : xs[lo + (hi - lo) / 2]? = some (xs[lo + (hi - lo) / 2]) :=
        List.getElem?_eq_getElem (by omega)
      simp only [partitionPointLoop, hlt, ↓reduceIte, hsome]
      split
      · rename_i hb
        refine ih _ _ (by omega) (by omega) hlen (fun i x hi' hx => ?_) hhi
        exact hp.at (by omega) hx hsome hb
      · rename_i hb
        refine ih _ _ (by omega) (by omega) (by omega) hlo (fun i x hi' hx => ?_)
        have hnot := mt (hp.at (by omega) hsome hx) hb
        simpa using hnot
    · obtain rfl : lo = hi := by omega
      simp only [partitionPointLoop, hlt, ↓reduceIte]
      exact ⟨hlen, hlo, hhi⟩

theorem partitionPoint_split {xs : List α} (hp : Partitioned below xs) :
    ∃ l r, xs = l ++ r ∧ partitionPoint below xs = l.length ∧
      (∀ x ∈ l, below x = true) ∧ (∀ x ∈ r, below x = false) := by
  obtain ⟨hlen, hlo, hhi⟩ := partitionPointLoop_spec hp xs.length 0 xs.length (by omega) (by omega)
    (by omega) (by omega) (fun i x hi hx => by
      rw [List.getElem?_eq_none hi] at hx; cases hx)
  refine ⟨xs.take (partitionPoint below xs), xs.drop (partitionPoint below xs),
    (take_append_drop _ _).symm, ?_, ?_, ?_⟩
  · rw [length_take]; exact (Nat.min_eq_left hlen).symm
  · intro x hx
    obtain ⟨i, hi, rfl⟩ := mem_take_iff_getElem.mp hx
    exact hlo i _ (by unfold partitionPoint at hi; omega) (List.getElem?_eq_getElem (by omega))
  · intro x hx
    obtain ⟨i, hi, rfl⟩ := mem_drop_iff_getElem.mp hx
    exact hhi (partitionPoint below xs + i) _ (by unfold partitionPoint; omega)
      (List.getElem?_eq_getElem (by omega))

/-- `items[cursor] = items[cursor - 1]` for `cursor` descending to `index + 1`. -/
def shiftUp (xs : List α) (index : Nat) : Nat → List α
  | 0 => xs
  | c + 1 =>
    if index < c + 1 then
      match xs[c]? with
      | some x => shiftUp (xs.set (c + 1) x) index c
      | none => xs
    else xs

/-- Grow by one slot, shift the tail up, and write the freed slot. The grown slot
is overwritten before it is read, so its initial content is immaterial. -/
def insertShift (xs : List α) (index : Nat) (x : α) : List α :=
  (shiftUp (xs ++ [x]) index xs.length).set index x

/-- Drop the oldest slot, shift the younger tail up, and write the freed slot. -/
def rotateInsert (xs : List α) (index : Nat) (x : α) : List α :=
  match xs.getLast? with
  | some last => (shiftUp (xs.tail ++ [last]) index (xs.length - 1)).set index x
  | none => xs

theorem shiftUp_append (l : List α) (r t : List α) (u x : α) :
    (shiftUp (l ++ r ++ u :: t) l.length (l ++ r).length).set l.length x = l ++ x :: r ++ t := by
  induction r using List.reverseRecOn generalizing u t with
  | nil =>
    cases hl : l.length with
    | zero => obtain rfl := length_eq_zero_iff.mp hl; simp [shiftUp]
    | succ n =>
      rw [show (l ++ ([] : List α)).length = n + 1 by simpa using hl]
      simp only [shiftUp, Nat.lt_irrefl, ↓reduceIte, append_nil]
      rw [← hl, set_append_right _ _ (Nat.le_refl _)]
      simp
  | append_singleton r y ih =>
    have hlen : (l ++ (r ++ [y])).length = (l ++ r).length + 1 := by simp; omega
    have hget : (l ++ (r ++ [y]) ++ u :: t)[(l ++ r).length]? = some y := by
      rw [show l ++ (r ++ [y]) ++ u :: t = (l ++ r) ++ (y :: u :: t) by simp,
        List.getElem?_append_right (Nat.le_refl _)]
      simp
    have hset : (l ++ (r ++ [y]) ++ u :: t).set ((l ++ r).length + 1) y =
        l ++ r ++ y :: (y :: t) := by
      rw [show l ++ (r ++ [y]) ++ u :: t = (l ++ r) ++ (y :: u :: t) by simp,
        set_append_right _ _ (by omega)]
      simp
    rw [hlen]
    simp only [shiftUp, hget]
    rw [if_pos (by rw [length_append]; omega), hset, ih (y :: t) y]
    simp

theorem insertShift_append (l r : List α) (x : α) :
    insertShift (l ++ r) l.length x = l ++ x :: r := by
  have h := shiftUp_append l r [] x x
  simpa [insertShift] using h

theorem rotateInsert_append (first : α) (l r : List α) (x : α) :
    rotateInsert (first :: (l ++ r)) l.length x = l ++ x :: r := by
  have hlast : (first :: (l ++ r)).getLast? = some ((first :: (l ++ r)).getLast (by simp)) :=
    List.getLast?_eq_some_getLast (by simp)
  have h := shiftUp_append l r [] ((first :: (l ++ r)).getLast (by simp)) x
  simp only [rotateInsert, hlast, tail_cons, length_cons, Nat.add_sub_cancel]
  simpa using h

/-- `items[cursor] = items[cursor + 1]` for `cursor` ascending to the end. -/
def shiftDown (xs : List α) : Nat → Nat → List α
  | 0, _ => xs
  | fuel + 1, cursor =>
    match xs[cursor + 1]? with
    | some x => shiftDown (xs.set cursor x) fuel (cursor + 1)
    | none => xs

/-- Shift the tail down over one slot and shrink by one. -/
def removeShift (xs : List α) (index : Nat) : List α :=
  (shiftDown xs xs.length index).dropLast

theorem shiftDown_append (l r : List α) (x : α) (fuel : Nat) (hf : r.length ≤ fuel) :
    (shiftDown (l ++ x :: r) fuel l.length).dropLast = l ++ r := by
  induction r generalizing l x fuel with
  | nil =>
    cases fuel with
    | zero => simp [shiftDown]
    | succ fuel => simp [shiftDown]
  | cons y r ih =>
    cases fuel with
    | zero => simp at hf
    | succ fuel =>
      have hget : (l ++ x :: y :: r)[l.length + 1]? = some y := by
        rw [List.getElem?_append_right (by omega)]
        simp
      have hset : (l ++ x :: y :: r).set l.length y = (l ++ [y]) ++ y :: r := by
        rw [set_append_right _ _ (Nat.le_refl _)]
        simp
      simp only [shiftDown, hget, hset]
      have h := ih (l ++ [y]) y fuel (by simpa using hf)
      simpa using h

theorem removeShift_append (l r : List α) (x : α) :
    removeShift (l ++ x :: r) l.length = l ++ r :=
  shiftDown_append l r x _ (by simp; omega)

/-! ## Lists ascending in a key -/

section Ascending

variable [LinearOrder κ] {key : α → κ} {xs : List α}

/-- Strictly ascending in `key`. -/
def Ascending (key : α → κ) (xs : List α) : Prop := xs.Pairwise fun a b => key a < key b

theorem Ascending.partitioned (h : Ascending key xs) (k : κ) :
    Partitioned (fun x => decide (key x < k)) xs := by
  refine List.Pairwise.imp ?_ h
  intro a b hab hb
  simp only [decide_eq_true_eq] at hb ⊢
  exact hab.trans hb

/-- The search hits the only element with the key, or misses between the elements
below it and those above it. -/
theorem Ascending.locate (h : Ascending key xs) (k : κ) :
    (∃ l x r, xs = l ++ x :: r ∧ key x = k ∧
      partitionPoint (fun x => decide (key x < k)) xs = l.length ∧
      (∀ y ∈ l, key y < k) ∧ ∀ y ∈ r, k < key y) ∨
    (∃ l r, xs = l ++ r ∧ partitionPoint (fun x => decide (key x < k)) xs = l.length ∧
      (∀ y ∈ l, key y < k) ∧ ∀ y ∈ r, k < key y) := by
  obtain ⟨l, r, hxs, hlb, hl, hr⟩ := partitionPoint_split (h.partitioned k)
  simp only [decide_eq_true_eq, decide_eq_false_iff_not, not_lt] at hl hr
  cases r with
  | nil => exact Or.inr ⟨l, [], hxs, hlb, hl, by simp⟩
  | cons x r =>
    have hasc : ∀ y ∈ r, key x < key y := by
      rw [hxs] at h
      exact fun _ hy => rel_of_pairwise_cons (pairwise_append.mp h).2.1 hy
    have hx := hr x mem_cons_self
    rcases hx.lt_or_eq with hlt | heq
    · refine Or.inr ⟨l, x :: r, hxs, hlb, hl, fun y hy => ?_⟩
      rcases mem_cons.mp hy with rfl | hy
      · exact hlt
      · exact hlt.trans (hasc y hy)
    · exact Or.inl ⟨l, x, r, hxs, heq.symm, hlb, hl, fun y hy => heq.trans_lt (hasc y hy)⟩

/-- The first position whose key is not below `k`. -/
def lowerBoundBy (key : α → κ) (xs : List α) (k : κ) : Nat :=
  partitionPoint (fun x => decide (key x < k)) xs

/-- The element at the lower bound, when its key is `k`, with its position. -/
def findBy (key : α → κ) (xs : List α) (k : κ) : Option (Nat × α) :=
  match xs[lowerBoundBy key xs k]? with
  | some x => if key x = k then some (lowerBoundBy key xs k, x) else none
  | none => none

theorem getElem?_middle (l r : List α) (x : α) : (l ++ x :: r)[l.length]? = some x := by
  rw [List.getElem?_append_right (Nat.le_refl _)]
  simp

theorem Ascending.findBy_cases (h : Ascending key xs) (k : κ) :
    (∃ l x r, xs = l ++ x :: r ∧ key x = k ∧ lowerBoundBy key xs k = l.length ∧
      findBy key xs k = some (l.length, x) ∧ (∀ y ∈ l, key y < k) ∧ ∀ y ∈ r, k < key y) ∨
    (∃ l r, xs = l ++ r ∧ lowerBoundBy key xs k = l.length ∧ findBy key xs k = none ∧
      (∀ y ∈ l, key y < k) ∧ ∀ y ∈ r, k < key y) := by
  rcases h.locate k with ⟨l, x, r, hxs, hx, hlb, hl, hr⟩ | ⟨l, r, hxs, hlb, hl, hr⟩
  · refine Or.inl ⟨l, x, r, hxs, hx, hlb, ?_, hl, hr⟩
    have hat : xs[lowerBoundBy key xs k]? = some x := by
      rw [lowerBoundBy, hlb, hxs, getElem?_middle]
    simp only [findBy, hat, if_pos hx]
    rw [lowerBoundBy, hlb]
  · refine Or.inr ⟨l, r, hxs, hlb, ?_, hl, hr⟩
    have hat : xs[lowerBoundBy key xs k]? = r[0]? := by
      rw [lowerBoundBy, hlb, hxs, List.getElem?_append_right (Nat.le_refl _), Nat.sub_self]
    rw [findBy, hat]
    cases hhead : r[0]? with
    | none => rfl
    | some y => exact if_neg (hr y (mem_of_getElem? hhead)).ne'

theorem Ascending.findBy_mem {x : α} (h : Ascending key xs) (hx : x ∈ xs) :
    ∃ l r, xs = l ++ x :: r ∧ findBy key xs (key x) = some (l.length, x) := by
  rcases h.findBy_cases (key x) with ⟨l, y, r, hxs, hy, -, hf, hl, hr⟩ | ⟨l, r, hxs, -, -, hl, hr⟩
  · have hmem := hx
    rw [hxs] at hmem
    rcases mem_append.mp hmem with hmem | hmem
    · exact absurd (hl x hmem) (lt_irrefl _)
    · rcases mem_cons.mp hmem with rfl | hmem
      · exact ⟨l, r, hxs, hf⟩
      · exact absurd (hr x hmem) (lt_irrefl _)
  · rw [hxs] at hx
    rcases mem_append.mp hx with hx | hx
    · exact absurd (hl x hx) (lt_irrefl _)
    · exact absurd (hr x hx) (lt_irrefl _)

theorem Ascending.findBy_isSome (h : Ascending key xs) (k : κ) :
    (findBy key xs k).isSome = true ↔ ∃ x ∈ xs, key x = k := by
  rcases h.findBy_cases k with ⟨l, x, r, hxs, hx, -, hf, -, -⟩ | ⟨l, r, hxs, -, hf, hl, hr⟩
  · rw [hf]
    exact ⟨fun _ => ⟨x, by rw [hxs]; simp, hx⟩, fun _ => rfl⟩
  rw [hf]
  refine ⟨nofun, ?_⟩
  rintro ⟨y, hy, hyk⟩
  rw [hxs] at hy
  rcases mem_append.mp hy with hy | hy
  · exact absurd hyk (hl y hy).ne
  · exact absurd hyk (hr y hy).ne'

theorem ascending_append {l r : List α} :
    Ascending key (l ++ r) ↔
      Ascending key l ∧ Ascending key r ∧ ∀ a ∈ l, ∀ b ∈ r, key a < key b :=
  pairwise_append

theorem ascending_cons {x : α} {r : List α} :
    Ascending key (x :: r) ↔ (∀ b ∈ r, key x < key b) ∧ Ascending key r :=
  pairwise_cons

/-- The order checks of a scan that remembers its previous key. -/
theorem order_checks {κ : Type} [Preorder κ] [DecidableLT κ] {previous : Option κ} {next : κ}
    (h : ∀ prior ∈ previous, prior < next) :
    previous ≠ some next ∧ previous.any (fun prior => decide (next < prior)) = false ∧
      previous.any (fun prior => !decide (prior < next)) = false := by
  cases previous with
  | none => exact ⟨nofun, rfl, rfl⟩
  | some prior =>
    have hlt := h prior rfl
    exact ⟨fun heq => hlt.ne (Option.some.inj heq), by simpa using hlt.asymm, by simpa using hlt⟩

theorem Ascending.insert {l r : List α} {x : α} (h : Ascending key (l ++ r))
    (hl : ∀ y ∈ l, key y < key x) (hr : ∀ y ∈ r, key x < key y) :
    Ascending key (l ++ x :: r) := by
  obtain ⟨h1, h2, h3⟩ := ascending_append.mp h
  refine ascending_append.mpr ⟨h1, ascending_cons.mpr ⟨hr, h2⟩, fun a ha b hb => ?_⟩
  rcases mem_cons.mp hb with rfl | hb
  · exact hl a ha
  · exact h3 a ha b hb

variable {ys : List α}

theorem Ascending.sublist (h : Ascending key xs) (hs : ys.Sublist xs) :
    Ascending key ys :=
  List.Pairwise.sublist hs h

/-- Elements of an ascending list are determined by their keys. -/
theorem Ascending.eq_of_key {a b : α} (h : Ascending key xs) (ha : a ∈ xs) (hb : b ∈ xs)
    (hk : key a = key b) : a = b := by
  induction xs with
  | nil => cases ha
  | cons x xs ih =>
    obtain ⟨hx, hasc⟩ := ascending_cons.mp h
    rcases mem_cons.mp ha with ha' | ha' <;> rcases mem_cons.mp hb with hb' | hb'
    · rw [ha', hb']
    · exact absurd (ha' ▸ hk) (ne_of_lt (hx b hb'))
    · exact absurd (hb' ▸ hk.symm) (ne_of_lt (hx a ha'))
    · exact ih hasc ha' hb'

theorem Ascending.nodup (h : Ascending key xs) : xs.Nodup := by
  refine List.Pairwise.imp ?_ h
  rintro a _ hab rfl
  exact lt_irrefl _ hab

/-- An ascending list is determined by its members. -/
theorem Ascending.ext (hx : Ascending key xs) (hy : Ascending key ys)
    (h : ∀ a, a ∈ xs ↔ a ∈ ys) : xs = ys := by
  refine List.Perm.eq_of_pairwise (fun a b _ _ hab hba => ?_) hx hy
    ((perm_ext_iff_of_nodup hx.nodup hy.nodup).mpr h)
  exact absurd hba (lt_asymm hab)

/-- Sorting by a key. -/
def sortByKey (key : α → κ) (xs : List α) : List α := xs.insertionSort fun a b => key a ≤ key b

theorem sortByKey_perm (key : α → κ) (xs : List α) : (sortByKey key xs).Perm xs :=
  perm_insertionSort _ _

theorem sortByKey_sorted (key : α → κ) (xs : List α) :
    (sortByKey key xs).Pairwise fun a b => key a ≤ key b := by
  have : Std.Total fun a b : α => key a ≤ key b := ⟨fun a b => le_total _ _⟩
  have : IsTrans α fun a b : α => key a ≤ key b := ⟨fun _ _ _ => le_trans⟩
  exact pairwise_insertionSort (fun a b : α => key a ≤ key b) xs

theorem sortByKey_ascending (h : (xs.map key).Nodup) : Ascending key (sortByKey key xs) := by
  have hle := sortByKey_sorted key xs
  have hne : (sortByKey key xs).Pairwise fun a b => key a ≠ key b :=
    pairwise_map.mp (((sortByKey_perm key xs).map key).nodup_iff.mpr h)
  exact (hle.and hne).imp fun hab => lt_of_le_of_ne hab.1 hab.2

/-- Sorted lists of distinct keys are equal when they have the same elements. -/
theorem sortByKey_eq_iff (hx : (xs.map key).Nodup) (hy : (ys.map key).Nodup) :
    sortByKey key xs = sortByKey key ys ↔ ∀ a, a ∈ xs ↔ a ∈ ys := by
  constructor
  · intro h a
    rw [← (sortByKey_perm key xs).mem_iff, h, (sortByKey_perm key ys).mem_iff]
  · intro h
    refine (sortByKey_ascending hx).ext (sortByKey_ascending hy) fun a => ?_
    rw [(sortByKey_perm key xs).mem_iff, (sortByKey_perm key ys).mem_iff, h]

end Ascending

end OnyxServer.Lib
