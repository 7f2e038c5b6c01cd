import OnyxServer.Lib.Sorted

/-!
# Linear search in flat arrays

The first element that satisfies a test splits the array. What is then written over it,
removed from its place or swapped out is stated on the two halves.
-/
namespace OnyxServer.Lib

section

open List

variable {α : Type}

theorem findIdx?_split {p : α → Bool} {xs : List α} {i : Nat} (h : xs.findIdx? p = some i) :
    ∃ l x r, xs = l ++ x :: r ∧ l.length = i ∧ p x = true ∧ ∀ y ∈ l, p y = false := by
  obtain ⟨hlt, hx, hbefore⟩ := List.findIdx?_eq_some_iff_getElem.mp h
  refine ⟨xs.take i, xs[i], xs.drop (i + 1), ?_, List.length_take_of_le (Nat.le_of_lt hlt), hx, ?_⟩
  · exact (List.take_append_drop i xs).symm.trans (by rw [List.drop_eq_getElem_cons hlt])
  · intro y hy
    obtain ⟨j, hj, rfl⟩ := mem_iff_getElem.mp hy
    have hji : j < i := by
      rw [length_take] at hj
      omega
    rw [getElem_take]
    exact Bool.not_eq_true _ ▸ hbefore j hji

theorem set_split (l r : List α) (x y : α) : (l ++ x :: r).set l.length y = l ++ y :: r := by
  rw [set_append_right _ _ (Nat.le_refl _)]
  simp

theorem take_succ_set {xs : List α} {count : Nat} (h : count < xs.length) (x : α) :
    (xs.set count x).take (count + 1) = xs.take count ++ [x] := by
  rw [take_add_one, List.getElem?_set_self h, take_set_of_le (Nat.le_refl _)]
  rfl

theorem modify_split (l r : List α) (x : α) (f : α → α) :
    (l ++ x :: r).modify l.length f = l ++ f x :: r := by
  induction l with
  | nil => rfl
  | cons y l ih => simp [ih]

/-- Exchanges the elements at `i` and `j`. -/
def swapAt (xs : List α) (i j : Nat) : List α :=
  match xs[i]?, xs[j]? with
  | some x, some y => (xs.set i y).set j x
  | _, _ => xs

theorem swapAt_split (l r : List α) (x y : α) :
    swapAt (l ++ x :: y :: r) l.length (l.length + 1) = l ++ y :: x :: r := by
  have hfirst : (l ++ x :: y :: r)[l.length]? = some x := by simp
  have hsecond : (l ++ x :: y :: r)[l.length + 1]? = some y := by simp
  have hset : (l ++ y :: y :: r).set (l.length + 1) x = l ++ y :: x :: r := by
    simp
  unfold swapAt
  rw [hfirst, hsecond]
  show ((l ++ x :: y :: r).set l.length y).set (l.length + 1) x = _
  rw [set_split, hset]

theorem eraseIdx_split (l r : List α) (x : α) : (l ++ x :: r).eraseIdx l.length = l ++ r := by
  rw [eraseIdx_append_of_length_le (Nat.le_refl _)]
  simp

/-- Removes the element at `i`; the last one takes its place. -/
def swapRemove (xs : List α) (i : Nat) : List α :=
  match xs.getLast? with
  | none => []
  | some last => (xs.set i last).dropLast

theorem swapRemove_last (l : List α) (x : α) : swapRemove (l ++ [x]) l.length = l := by
  simp [swapRemove]

theorem swapRemove_swap (l r : List α) (x y : α) :
    swapRemove (l ++ x :: (r ++ [y])) l.length = l ++ y :: r := by
  have hlast : (l ++ x :: (r ++ [y])).getLast? = some y := by
    rw [← cons_append, ← append_assoc]
    exact List.getLast?_concat
  simp only [swapRemove, hlast, set_split]
  rw [← cons_append, ← append_assoc, dropLast_concat]

/-- What stands behind the place keeps its elements, in another order. -/
theorem swapRemove_split (l r : List α) (x : α) :
    ∃ r', r'.Perm r ∧ swapRemove (l ++ x :: r) l.length = l ++ r' := by
  rcases eq_nil_or_concat r with rfl | ⟨rest, y, rfl⟩
  · exact ⟨[], .refl [], by rw [swapRemove_last, append_nil]⟩
  · rw [concat_eq_append, swapRemove_swap]
    exact ⟨y :: rest, (perm_append_singleton y rest).symm, rfl⟩

theorem swapRemove_perm (l r : List α) (x : α) :
    (swapRemove (l ++ x :: r) l.length).Perm (l ++ r) := by
  obtain ⟨r', hperm, heq⟩ := swapRemove_split l r x
  rw [heq]
  exact hperm.append_left l

/-- Removes every element that passes the test, each time in the place it stands. -/
def swapSweep (p : α → Bool) : Nat → Nat → List α → List α
  | 0, _, xs => xs
  | fuel + 1, i, xs =>
    match xs[i]? with
    | none => xs
    | some x =>
      if p x then swapSweep p fuel i (swapRemove xs i) else swapSweep p fuel (i + 1) xs

theorem getElem?_split {xs : List α} {i : Nat} {x : α} (h : xs[i]? = some x) :
    ∃ l r, xs = l ++ x :: r ∧ l.length = i := by
  obtain ⟨hlt, hx⟩ := List.getElem?_eq_some_iff.mp h
  refine ⟨xs.take i, xs.drop (i + 1), ?_, List.length_take_of_le (Nat.le_of_lt hlt)⟩
  rw [← hx]
  exact (List.take_append_drop i xs).symm.trans (by rw [List.drop_eq_getElem_cons hlt])

/-- What stays is what does not pass, whatever the order. -/
theorem swapSweep_perm (p : α → Bool) (fuel : Nat) (kept rest : List α)
    (hfuel : rest.length ≤ fuel) :
    (swapSweep p fuel kept.length (kept ++ rest)).Perm (kept ++ rest.filter (!p ·)) := by
  induction fuel generalizing kept rest with
  | zero =>
    obtain rfl := length_eq_zero_iff.mp (Nat.le_zero.mp hfuel)
    exact List.Perm.refl _
  | succ fuel ih =>
    cases rest with
    | nil => simp [swapSweep]
    | cons x rest =>
      have hat : (kept ++ x :: rest)[kept.length]? = some x := by simp
      simp only [swapSweep, hat]
      rw [length_cons] at hfuel
      by_cases hx : p x = true
      · rw [if_pos hx, filter_cons_of_neg (by simpa using hx)]
        obtain ⟨rest', hperm, hswap⟩ := swapRemove_split kept rest x
        rw [hswap]
        refine (ih kept rest' (by rw [hperm.length_eq]; omega)).trans ?_
        exact (hperm.filter _).append_left kept
      · rw [if_neg hx, filter_cons_of_pos (by simpa using hx)]
        have hnext := ih (kept ++ [x]) rest (by omega)
        rw [length_append, length_singleton, append_assoc] at hnext
        simpa using hnext

end

/-!
## Binary search with a three-way comparison

The search over an ascending array returns early on a hit, with the position of the
only element of that key, and otherwise the position the key belongs at.
-/
section

variable {α κ : Type} [LinearOrder κ]

structure FindResult where
  index : Nat
  present : Bool

def searchLoop (key : α → κ) (xs : List α) (k : κ) : Nat → Nat → Nat → FindResult
  | 0, low, _ => ⟨low, false⟩
  | fuel + 1, low, high =>
    if low < high then
      let mid := low + (high - low) / 2
      match xs[mid]? with
      | none => ⟨low, false⟩
      | some x =>
        if key x < k then searchLoop key xs k fuel (mid + 1) high
        else if key x = k then ⟨mid, true⟩
        else searchLoop key xs k fuel low mid
    else ⟨low, false⟩

def searchBy (key : α → κ) (xs : List α) (k : κ) : FindResult :=
  searchLoop key xs k xs.length 0 xs.length

variable {key : α → κ} {xs : List α}

/-- What a search may answer: the element of the key and its place, or a gap. -/
inductive Located (key : α → κ) (xs : List α) (k : κ) : FindResult → Prop where
  | hit (l r : List α) (x : α) (hxs : xs = l ++ x :: r) (hkey : key x = k) : Located key xs k
      ⟨l.length, true⟩
  | miss (l r : List α) (hxs : xs = l ++ r) (hl : ∀ y ∈ l, key y < k) (hr : ∀ y ∈ r, k < key y) :
    Located key xs k ⟨l.length, false⟩

theorem Ascending.getElem_lt (h : Ascending key xs) {i j : Nat} {a b : α} (hij : i < j)
    (ha : xs[i]? = some a) (hb : xs[j]? = some b) : key a < key b := by
  obtain ⟨hi, rfl⟩ := List.getElem?_eq_some_iff.mp ha
  obtain ⟨hj, rfl⟩ := List.getElem?_eq_some_iff.mp hb
  exact List.pairwise_iff_getElem.mp h i j hi hj hij

/-- Between the bounds nothing is left: what is before is below, what is after is above. -/
theorem located_gap {k : κ} {low : Nat} (hlow : low ≤ xs.length)
    (hbelow : ∀ i x, i < low → xs[i]? = some x → key x < k)
    (habove : ∀ i x, low ≤ i → xs[i]? = some x → k < key x) : Located key xs k ⟨low, false⟩ := by
  have hlen : (xs.take low).length = low := List.length_take_of_le hlow
  have hmiss : Located key xs k ⟨(xs.take low).length, false⟩ :=
    .miss _ (xs.drop low) (List.take_append_drop low xs).symm
    (fun y hy => by
      obtain ⟨i, hi, rfl⟩ := List.mem_take_iff_getElem.mp hy
      exact hbelow i _ (by omega) (List.getElem?_eq_getElem (by omega)))
    (fun y hy => by
      obtain ⟨i, hi, rfl⟩ := List.mem_drop_iff_getElem.mp hy
      exact habove (low + i) _ (by omega) (List.getElem?_eq_getElem (by omega)))
  rwa [hlen] at hmiss

theorem searchLoop_spec (h : Ascending key xs) (k : κ) (fuel low high : Nat)
    (hfuel : high - low ≤ fuel) (hle : low ≤ high) (hlen : high ≤ xs.length)
    (hbelow : ∀ i x, i < low → xs[i]? = some x → key x < k)
    (habove : ∀ i x, high ≤ i → xs[i]? = some x → k < key x) :
    Located key xs k (searchLoop key xs k fuel low high) := by
  induction fuel generalizing low high with
  | zero =>
    obtain rfl : low = high := by omega
    exact located_gap hlen hbelow habove
  | succ fuel ih =>
    unfold searchLoop
    split
    · have hmid : low + (high - low) / 2 < high := by omega
      have hat : xs[low + (high - low) / 2]? = some xs[low + (high - low) / 2] :=
        List.getElem?_eq_getElem (by omega)
      simp only [hat]
      split
      · rename_i hlt
        refine ih _ _ (by omega) (by omega) hlen (fun i x hi hx => ?_) habove
        rcases Nat.lt_or_eq_of_le (Nat.le_of_lt_succ hi) with hbefore | rfl
        · exact (h.getElem_lt hbefore hx hat).trans hlt
        · rw [hat] at hx
          injection hx with hx
          exact hx ▸ hlt
      split
      · rename_i hkey
        have hsplit :=
          Located.hit (xs.take (low + (high - low) / 2)) (xs.drop (low + (high - low) / 2 + 1)) _
          (by rw [← List.drop_eq_getElem_cons, List.take_append_drop]) hkey
        rwa [List.length_take_of_le (by omega)] at hsplit
      rename_i hnot hne
      have hgt : k < key xs[low + (high - low) / 2] := lt_of_le_of_ne (not_lt.mp hnot) (Ne.symm hne)
      refine ih _ _ (by omega) (by omega) (by omega) hbelow fun i x hi hx => ?_
      rcases Nat.lt_or_eq_of_le hi with hafter | rfl
      · exact hgt.trans (h.getElem_lt hafter hat hx)
      · rw [hat] at hx
        injection hx with hx
        exact hx ▸ hgt
    · obtain rfl : low = high := by omega
      exact located_gap hlen hbelow habove

/-- A search of an ascending array finds the key or the gap it belongs in. -/
theorem Ascending.located (h : Ascending key xs) (k : κ) :
    Located key xs k (searchBy key xs k) := by
  refine searchLoop_spec h k xs.length 0 xs.length (by omega) (by omega)
    (by omega) ?_ fun i x hi hx => ?_
  · intro i x hi
    omega
  · rw [List.getElem?_eq_none hi] at hx
    cases hx

end

end OnyxServer.Lib
