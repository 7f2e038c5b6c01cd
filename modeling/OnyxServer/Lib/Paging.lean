import Mathlib.Order.RelClasses
import Mathlib.Data.List.Basic

/-!
# Paging by a bound

A query answers the first elements of a scan whose keys lie beyond a bound, and the next
query is bounded by the key of the last page that lies farthest. The scan itself need not
be in the order of the keys: the pages visit all of it in order exactly if it is.
-/
namespace OnyxServer.Lib

open List

variable {α κ : Type} (r : κ → κ → Prop) [DecidableRel r] (key : α → κ) (n : Nat) (scan : List α)

def beyond (bound : κ) : List α := scan.filter fun x => decide (r (key x) bound)

def page (bound : κ) : List α := (beyond r key scan bound).take n

/-- The farthest of a key and the keys of a list. -/
def farthest (first : κ) (rest : List α) : κ :=
  rest.foldl (fun bound x => if r (key x) bound then key x else bound) first

/-- Every element visited by paging from a bound until a page is empty. -/
def pages : Nat → κ → List α
  | 0, _ => []
  | rounds + 1, bound =>
    match page r key n scan bound with
    | [] => []
    | first :: rest => first :: rest ++ pages rounds (farthest r key (key first) rest)

/-- Later elements lie farther. -/
def Outward (xs : List α) : Prop := xs.Pairwise fun x y => r (key y) (key x)

variable {r} {key} {n} {scan} {bound : κ} {rounds : Nat}

theorem page_nil (hn : 0 < n) (h : page r key n scan bound = []) :
    beyond r key scan bound = [] := by
  rw [page, take_eq_nil_iff] at h
  exact h.resolve_left (Nat.ne_of_gt hn)

theorem page_cons {first : α} {rest : List α} (h : page r key n scan bound = first :: rest) :
    beyond r key scan bound = first :: rest ++ (beyond r key scan bound).drop n := by
  rw [← h, page, take_append_drop]

theorem drop_length {first : α} {rest : List α} (h : page r key n scan bound = first :: rest)
    (hrounds : (beyond r key scan bound).length ≤ rounds + 1) :
    ((beyond r key scan bound).drop n).length ≤ rounds := by
  rw [page_cons h, length_append, length_cons] at hrounds
  omega

variable [IsStrictTotalOrder κ r]

theorem farthest_spec (key : α → κ) (start : κ) (rest : List α) :
    (farthest r key start rest = start ∨ ∃ x ∈ rest, key x = farthest r key start rest) ∧
      ¬ r start (farthest r key start rest) ∧
      ∀ x ∈ rest, ¬ r (key x) (farthest r key start rest) := by
  induction rest generalizing start with
  | nil => exact ⟨.inl rfl, irrefl start, nofun⟩
  | cons x rest ih =>
    by_cases hx : r (key x) start
    · have hfold : farthest r key start (x :: rest) = farthest r key (key x) rest := by
        simp [farthest, hx]
      obtain ⟨hmem, hstart, hrest⟩ := ih (key x)
      rw [hfold]
      refine ⟨.inr ?_, fun hlt => hstart (trans_of r hx hlt), forall_mem_cons.mpr ⟨hstart, hrest⟩⟩
      rcases hmem with heq | ⟨y, hy, heq⟩
      · exact ⟨x, mem_cons_self, heq.symm⟩
      · exact ⟨y, mem_cons_of_mem x hy, heq⟩
    · have hfold : farthest r key start (x :: rest) = farthest r key start rest := by
        simp [farthest, hx]
      obtain ⟨hmem, hstart, hrest⟩ := ih start
      rw [hfold]
      refine ⟨?_, hstart, forall_mem_cons.mpr ⟨fun hlt => ?_, hrest⟩⟩
      · rcases hmem with heq | ⟨y, hy, heq⟩
        · exact .inl heq
        · exact .inr ⟨y, mem_cons_of_mem x hy, heq⟩
      · rcases trichotomous_of r (key x) start with hlt' | heq | hgt
        · exact hx hlt'
        · exact hstart (heq ▸ hlt)
        · exact hstart (trans_of r hgt hlt)

/-- The query behind a page that what follows lies beyond. -/
theorem beyond_next {first : α} {rest later : List α}
    (hsplit : beyond r key scan bound = first :: rest ++ later)
    (hcross : ∀ x ∈ first :: rest, ∀ y ∈ later, r (key y) (key x)) :
    beyond r key scan (farthest r key (key first) rest) = later := by
  obtain ⟨hmem, hfirst, hrest⟩ := farthest_spec (r := r) key (key first) rest
  generalize farthest r key (key first) rest = next at hmem hfirst hrest
  obtain ⟨x, hx, hkey⟩ : ∃ x ∈ first :: rest, key x = next := by
    rcases hmem with heq | ⟨y, hy, heq⟩
    · exact ⟨first, mem_cons_self, heq.symm⟩
    · exact ⟨y, mem_cons_of_mem first hy, heq⟩
  have hbound : r next bound := by
    have hin : x ∈ beyond r key scan bound := by
      rw [hsplit]
      exact mem_append_left later hx
    rw [← hkey]
    exact of_decide_eq_true (mem_filter.mp hin).2
  have hnarrow : beyond r key scan next = (beyond r key scan bound).filter fun y =>
      decide (r (key y) next) := by
    rw [beyond, beyond, filter_filter]
    refine filter_congr fun y _ => ?_
    by_cases hy : r (key y) next
    · simp [hy, (trans_of r hy hbound : r (key y) bound)]
    · simp [hy]
  rw [hnarrow, hsplit, filter_append]
  have hnone : (first :: rest).filter (fun y => decide (r (key y) next)) = [] := by
    refine filter_eq_nil_iff.mpr fun y hy => ?_
    rw [decide_eq_true_eq]
    rcases mem_cons.mp hy with rfl | hy
    · exact hfirst
    · exact hrest y hy
  rw [hnone, nil_append]
  exact filter_eq_self.mpr fun y hy => decide_eq_true (hkey ▸ hcross x hx y hy)

theorem pages_of_outward (hn : 0 < n) (hordered : Outward r key (beyond r key scan bound))
    (hrounds : (beyond r key scan bound).length ≤ rounds) :
    pages r key n scan rounds bound = beyond r key scan bound := by
  induction rounds generalizing bound with
  | zero => exact (length_eq_zero_iff.mp (Nat.le_zero.mp hrounds)).symm
  | succ rounds ih =>
    rw [pages]
    cases hpage : page r key n scan bound with
    | nil => exact (page_nil hn hpage).symm
    | cons first rest =>
      have hsplit := page_cons hpage
      rw [hsplit] at hordered
      obtain ⟨-, hlater, hcross⟩ := pairwise_append.mp hordered
      have hnext := beyond_next hsplit hcross
      simp only
      rw [ih (hnext ▸ hlater) (hnext ▸ drop_length hpage hrounds), hnext, ← hsplit]

theorem outward_of_pages (hn : 0 < n)
    (hperm : (pages r key n scan rounds bound).Perm (beyond r key scan bound))
    (hordered : Outward r key (pages r key n scan rounds bound))
    (hrounds : (beyond r key scan bound).length ≤ rounds) :
    Outward r key (beyond r key scan bound) := by
  induction rounds generalizing bound with
  | zero =>
    rw [length_eq_zero_iff.mp (Nat.le_zero.mp hrounds)]
    exact List.Pairwise.nil
  | succ rounds ih =>
    rw [pages] at hperm hordered
    cases hpage : page r key n scan bound with
    | nil =>
      rw [page_nil hn hpage]
      exact List.Pairwise.nil
    | cons first rest =>
      have hsplit := page_cons hpage
      simp only [hpage] at hperm hordered
      obtain ⟨hfirst, hwalk, hcross⟩ := pairwise_append.mp hordered
      have hlater : (pages r key n scan rounds (farthest r key (key first) rest)).Perm
          ((beyond r key scan bound).drop n) :=
        (perm_append_left_iff _).mp (hperm.trans (List.Perm.of_eq hsplit))
      have hcross' : ∀ x ∈ first :: rest, ∀ y ∈ (beyond r key scan bound).drop n,
          r (key y) (key x) :=
        fun x hx y hy => hcross x hx y (hlater.mem_iff.mpr hy)
      have hnext := beyond_next hsplit hcross'
      have hrest := ih (hnext ▸ hlater) hwalk (hnext ▸ drop_length hpage hrounds)
      rw [hnext] at hrest
      rw [hsplit]
      exact pairwise_append.mpr ⟨hfirst, hrest, hcross'⟩

/-- The pages visit everything beyond the bound once and in order exactly if the scan has it
in order. -/
theorem pages_ordered_iff (hn : 0 < n) (hrounds : (beyond r key scan bound).length ≤ rounds) :
    ((pages r key n scan rounds bound).Perm (beyond r key scan bound) ∧
        Outward r key (pages r key n scan rounds bound)) ↔
          Outward r key (beyond r key scan bound) := by
  constructor
  · rintro ⟨hperm, hordered⟩
    exact outward_of_pages hn hperm hordered hrounds
  · intro hordered
    rw [pages_of_outward hn hordered hrounds]
    exact ⟨List.Perm.refl _, hordered⟩

end OnyxServer.Lib
