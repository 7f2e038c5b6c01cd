import Mathlib.Algebra.GroupWithZero.Nat
import Mathlib.Data.List.Basic
import Mathlib.Data.List.Perm.Basic
import Mathlib.Data.List.Nodup

/-!
# Rounds over a line of rows

Rows stand in a line. A page takes rows from the front, serves those that are due and puts
all it took at the back. Between pages rows leave the line, and others join it anywhere.
As long as two rows stay and are due, neither is served twice without the other.
-/
namespace OnyxServer.Lib

open List

variable {τ α κ : Type}

/-- One step as the rows see it: the call for a page, if it is one, and how many joined. -/
structure Stop (τ α : Type) where
  before : List α
  call : Option (τ × Nat)
  page : List α
  after : List α
  joined : Nat

def calls (stops : List (Stop τ α)) : Nat := stops.countP fun stop => stop.call.isSome

def joiners (stops : List (Stop τ α)) : Nat := (stops.map Stop.joined).sum

/-- The rows at the start and those that joined since. -/
def rowsMet : List (Stop τ α) → Nat
  | [] => 0
  | stop :: stops => stop.before.length + joiners (stop :: stops)

section Fairness

variable (due : τ → α → Bool)

/-- The row is due whenever a page is asked for, and the page has room. -/
def DueAt (y : α) (stops : List (Stop τ α)) : Prop :=
  ∀ stop ∈ stops, ∀ t room, stop.call = some (t, room) → 1 ≤ room ∧ due t y = true

/-- Between two pages with `x`, both rows there and `y` due, `y` has been on a page. -/
def RoundRobin (stops : List (Stop τ α)) : Prop :=
  ∀ earlier first between second later x y, stops =
    earlier ++ first :: (between ++ second :: later) →
    x ∈ first.page → x ∈ second.page →
      (∀ stop ∈ first :: between, x ∈ stop.after ∧ y ∈ stop.after) →
      DueAt due y (first :: (between ++ [second])) →
        ∃ stop ∈ first :: (between ++ [second]), y ∈ stop.page

/-- A row that stays and is due is on one of so many pages. -/
def ServedWithin (bound : List (Stop τ α) → Nat) (stops : List (Stop τ α)) : Prop :=
  ∀ earlier first span later y, stops = earlier ++ first :: (span ++ later) → y ∈ first.before →
    (∀ stop ∈ first :: span, y ∈ stop.after) → DueAt due y (first :: span) →
      bound (first :: span) ≤ calls (first :: span) → ∃ stop ∈ first :: span, y ∈ stop.page

end Fairness

/-- `y` stands before `x`. -/
def Ahead (y x : α) (line : List α) : Prop := [y, x].Sublist line

section Line

variable {x y z : α} {line next taken rest : List α} {due : α → Bool}

/-- A page that takes `x` but not `y` leaves `y` ahead. -/
theorem ahead_of_taken (hx : x ∈ taken) (hy : y ∈ rest) : Ahead y x (rest ++ taken) :=
  List.Sublist.append (singleton_sublist.mpr hy) (singleton_sublist.mpr hx)

theorem not_taken (hy : y ∉ taken.filter due) (hdue : due y = true) : y ∉ taken :=
  fun hmem => hy (mem_filter.mpr ⟨hmem, hdue⟩)

/-- As long as `y` is not taken, `x` behind it is not taken either. -/
theorem Ahead.page (h : Ahead y x (taken ++ rest)) (hnodup : (taken ++ rest).Nodup)
    (hy : y ∉ taken) :
    x ∉ taken ∧ Ahead y x (rest ++ taken) := by
  have hrest : [y, x].Sublist rest := by
    obtain ⟨l, r, hsplit, hl, hr⟩ := sublist_append_iff.mp h
    cases l with
    | nil =>
      rw [nil_append] at hsplit
      rwa [hsplit]
    | cons z l =>
      obtain ⟨rfl, -⟩ := List.cons.inj hsplit
      exact absurd (hl.subset mem_cons_self) hy
  have hx : x ∈ rest := hrest.subset (mem_cons_of_mem _ mem_cons_self)
  exact ⟨fun htaken => disjoint_of_nodup_append hnodup htaken hx,
    hrest.trans (sublist_append_left _ _)⟩

variable [DecidableEq α]

/-- A page that does not take `y` brings it forward. -/
theorem idxOf_page (hmem : y ∈ taken ++ rest) (hy : y ∉ taken) :
    (rest ++ taken).idxOf y + taken.length = (taken ++ rest).idxOf y := by
  have hrest := (mem_append.mp hmem).resolve_left hy
  rw [idxOf_append_of_mem hrest, idxOf_append_of_notMem hy, Nat.add_comm]

/-- What other steps do to a line: rows that stay keep their order, and `joined` others at
most come before any of them. -/
structure Kept (key : α → κ) (joined : Nat) (line next : List α) : Prop where
  keys : (next.map key).Nodup
  order : ∀ x y, x ∈ next → y ∈ next → Ahead y x line → Ahead y x next
  place : ∀ y, y ∈ next → y ∈ line → next.idxOf y ≤ line.idxOf y + joined

variable {key : α → κ}

theorem Kept.refl (h : (line.map key).Nodup) : Kept key 0 line line :=
  ⟨h, fun _ _ _ _ hahead => hahead, fun _ _ _ => Nat.le_refl _⟩

theorem Kept.leave {front back : List α} (h : ((front ++ z :: back).map key).Nodup) :
    Kept key 0 (front ++ z :: back) (front ++ back) := by
  have hsub : (front ++ back).Sublist (front ++ z :: back) :=
    (sublist_cons_self z back).append_left front
  have hnodup := List.Nodup.of_map key h
  have hz : z ∉ front ++ back := (nodup_middle.mp hnodup |> nodup_cons.mp).1
  refine ⟨h.sublist (hsub.map key), fun x y hx hy hahead => ?_, fun y hy _ => ?_⟩
  · -- What is left is the line without `z`.
    have hfilter := hahead.filter (fun u => decide (u ≠ z))
    have hxz : x ≠ z := fun heq => hz (heq ▸ hx)
    have hyz : y ≠ z := fun heq => hz (heq ▸ hy)
    have hkept : (front ++ z :: back).filter (fun u => decide (u ≠ z)) = front ++ back := by
      rw [filter_append, filter_cons_of_neg (by simp), ← filter_append, filter_eq_self]
      exact fun u hu => decide_eq_true fun heq => hz (heq ▸ hu)
    rwa [hkept, filter_eq_self.mpr (by simp [hxz, hyz])] at hfilter
  · by_cases hfront : y ∈ front
    · rw [idxOf_append_of_mem hfront, idxOf_append_of_mem hfront]
      exact Nat.le_refl _
    · have hyz : z ≠ y := fun heq => hz (heq ▸ hy)
      rw [idxOf_append_of_notMem hfront, idxOf_append_of_notMem hfront, idxOf_cons_ne _ hyz]
      omega

theorem Kept.join {front back news : List α} (h : ((front ++ news ++ back).map key).Nodup) :
    Kept key news.length (front ++ back) (front ++ news ++ back) := by
  have hnodup := List.Nodup.of_map key h
  refine ⟨h, fun x y _ _ hahead => ?_, fun y _ hold => ?_⟩
  · refine hahead.trans ?_
    rw [append_assoc]
    exact (sublist_append_right news back).append_left front
  · rw [append_assoc]
    by_cases hfront : y ∈ front
    · rw [idxOf_append_of_mem hfront, idxOf_append_of_mem hfront]
      omega
    have hback := (mem_append.mp hold).resolve_left hfront
    have hnews : y ∉ news := fun hnew => by
      rw [append_assoc] at hnodup
      exact disjoint_of_nodup_append (List.Nodup.of_append_right hnodup) hnew hback
    rw [idxOf_append_of_notMem hfront, idxOf_append_of_notMem hfront, idxOf_append_of_notMem hnews]
    omega

end Line

section Runs

variable [DecidableEq α] (due : τ → α → Bool) (key : α → κ)

/-- The stops are those of the line. -/
inductive Rounds : List α → List (Stop τ α) → Prop
  | done (line : List α) : Rounds line []
  | page {taken rest before after : List α} {t : τ} {room : Nat} {stops : List (Stop τ α)}
      (hbefore : before.Perm (taken ++ rest)) (hafter : after.Perm (rest ++ taken))
      (hfull : rest = [] ∨ (taken.filter (due t)).length = room)
        (hstops : Rounds (rest ++ taken) stops) :
      Rounds (taken ++ rest) (⟨before, some (t, room), taken.filter (due t), after, 0⟩ :: stops)
  | other {line next before after : List α} {joined : Nat} {stops : List (Stop τ α)}
      (hbefore : before.Perm line) (hafter : after.Perm next) (hkept : Kept key joined line next)
      (hstops : Rounds next stops) : Rounds line (⟨before, none, [], after, joined⟩ :: stops)

variable {due key} {line : List α} {stops : List (Stop τ α)} {x y : α}

theorem Rounds.drop {earlier : List (Stop τ α)} (h : Rounds due key line (earlier ++ stops))
    (hkeys : (line.map key).Nodup) : ∃ next, Rounds due key next stops ∧ (next.map key).Nodup := by
  induction earlier generalizing line with
  | nil => exact ⟨line, h, hkeys⟩
  | cons stop earlier ih =>
    cases h with
    | page hbefore hafter hfull hstops =>
      exact ih hstops ((perm_append_comm.map key).nodup_iff.mp hkeys)
    | other hbefore hafter hkept hstops => exact ih hstops hkept.keys

/-- As long as `y` is on no page, `x` behind it is on none. -/
theorem Rounds.not_served {between later : List (Stop τ α)} {second : Stop τ α}
    (h : Rounds due key line (between ++ second :: later)) (hkeys : (line.map key).Nodup)
    (hahead : Ahead y x line)
    (hstay : ∀ stop ∈ between, x ∈ stop.after ∧ y ∈ stop.after)
    (hdue : DueAt due y (between ++ [second]))
    (hnot : ∀ stop ∈ between ++ [second], y ∉ stop.page) : x ∉ second.page := by
  induction between generalizing line with
  | nil =>
    cases h with
    | page hbefore hafter hfull hstops =>
      have hy := not_taken (hnot _ mem_cons_self) (hdue _ mem_cons_self _ _ rfl).2
      have hx := (hahead.page (List.Nodup.of_map key hkeys) hy).1
      exact fun hmem => hx (mem_of_mem_filter hmem)
    | other => exact not_mem_nil
  | cons stop between ih =>
    obtain ⟨hhere, hstays⟩ := forall_mem_cons.mp hstay
    have hdue' : DueAt due y (between ++ [second]) := fun s hs => hdue s (mem_cons_of_mem _ hs)
    have hnot' : ∀ s ∈ between ++ [second], y ∉ s.page := fun s hs => hnot s (mem_cons_of_mem _ hs)
    cases h with
    | page hbefore hafter hfull hstops =>
      have hy := not_taken (hnot _ mem_cons_self) (hdue _ mem_cons_self _ _ rfl).2
      have hnext := (hahead.page (List.Nodup.of_map key hkeys) hy).2
      exact ih hstops ((perm_append_comm.map key).nodup_iff.mp hkeys) hnext hstays hdue' hnot'
    | other hbefore hafter hkept hstops =>
      have hnext := hkept.order x y (hafter.mem_iff.mp hhere.1) (hafter.mem_iff.mp hhere.2) hahead
      exact ih hstops hkept.keys hnext hstays hdue' hnot'

theorem Rounds.roundRobin (h : Rounds due key line stops) (hkeys : (line.map key).Nodup) :
    RoundRobin due stops := by
  rintro earlier first between second later x y rfl hfirst hsecond hstay hdue
  by_contra hnone
  have hnot : ∀ stop ∈ first :: (between ++ [second]), y ∉ stop.page := fun stop hstop hmem =>
    hnone ⟨stop, hstop, hmem⟩
  obtain ⟨next, hrounds, hkeys⟩ := h.drop hkeys
  obtain ⟨hhere, hstays⟩ := forall_mem_cons.mp hstay
  have hdue' : DueAt due y (between ++ [second]) := fun s hs => hdue s (mem_cons_of_mem _ hs)
  have hnot' : ∀ s ∈ between ++ [second], y ∉ s.page := fun s hs => hnot s (mem_cons_of_mem _ hs)
  cases hrounds with
  | page hbefore hafter hfull hstops =>
    have hy := not_taken (hnot _ mem_cons_self) (hdue _ mem_cons_self _ _ rfl).2
    have hrest := (mem_append.mp (hafter.mem_iff.mp hhere.2)).resolve_right hy
    have hahead := ahead_of_taken (mem_of_mem_filter hfirst) hrest
    exact hstops.not_served ((perm_append_comm.map key).nodup_iff.mp hkeys) hahead hstays hdue'
      hnot' hsecond
  | other => cases hfirst

theorem Rounds.distinct (h : Rounds due key line stops) (hkeys : (line.map key).Nodup) :
    ∀ stop ∈ stops, (stop.page.map key).Nodup := by
  induction h with
  | done => nofun
  | page hbefore hafter hfull hstops ih =>
    refine forall_mem_cons.mpr ⟨?_, ih ((perm_append_comm.map key).nodup_iff.mp hkeys)⟩
    exact hkeys.sublist ((filter_sublist.trans (sublist_append_left _ _)).map key)
  | other hbefore hafter hkept hstops ih => exact forall_mem_cons.mpr ⟨nodup_nil, ih hkept.keys⟩

/-- Every page that leaves `y` out brings it forward by a row at least. -/
theorem Rounds.waits {span later : List (Stop τ α)} (h : Rounds due key line (span ++ later))
    (hkeys : (line.map key).Nodup) (hy : y ∈ line) (hstay : ∀ stop ∈ span, y ∈ stop.after)
    (hdue : DueAt due y span) (hnot : ∀ stop ∈ span, y ∉ stop.page) :
    calls span ≤ line.idxOf y + joiners span := by
  induction span generalizing line with
  | nil => exact Nat.zero_le _
  | cons stop span ih =>
    obtain ⟨hhere, hstays⟩ := forall_mem_cons.mp hstay
    obtain ⟨hout, houts⟩ := forall_mem_cons.mp hnot
    have hdue' : DueAt due y span := fun s hs => hdue s (mem_cons_of_mem _ hs)
    cases h with
    | @page taken rest _ _ t room _ hbefore hafter hfull hstops =>
      obtain ⟨hroom, hduey⟩ := hdue _ mem_cons_self _ _ rfl
      have htaken := not_taken hout hduey
      have hnext :=
        ih hstops ((perm_append_comm.map key).nodup_iff.mp hkeys) (hafter.mem_iff.mp hhere) hstays
        hdue' houts
      have hplace := idxOf_page hy htaken
      have hrest : rest ≠ [] := by
        rintro rfl
        exact htaken ((append_nil taken) ▸ hy)
      have hlength := length_filter_le (due t) taken
      rw [hfull.resolve_left hrest] at hlength
      simp only [calls, joiners, countP_cons, map_cons, sum_cons, Option.isSome_some,
        if_true] at hnext ⊢
      omega
    | other hbefore hafter hkept hstops =>
      have hmem := hafter.mem_iff.mp hhere
      have hnext := ih hstops hkept.keys hmem hstays hdue' houts
      have hplace := hkept.place y hmem hy
      simp only [calls, joiners, countP_cons, map_cons, sum_cons, Option.isSome_none] at hnext ⊢
      simp only [Bool.false_eq_true, if_false]
      omega

theorem Rounds.servedWithin (h : Rounds due key line stops) (hkeys : (line.map key).Nodup) :
    ServedWithin due rowsMet stops := by
  rintro earlier first span later y rfl hy hstay hdue hbound
  by_contra hnone
  have hnot : ∀ stop ∈ first :: span, y ∉ stop.page :=
    fun stop hstop hmem => hnone ⟨stop, hstop, hmem⟩
  obtain ⟨next, hrounds, hkeys⟩ := h.drop hkeys
  have hperm : first.before.Perm next := by
    cases hrounds with
    | page hbefore hafter hfull hstops => exact hbefore
    | other hbefore hafter hkept hstops => exact hbefore
  have hwaits := Rounds.waits (hrounds : Rounds due key next ((first :: span) ++ later)) hkeys
    (hperm.mem_iff.mp hy) hstay hdue hnot
  have hplace := idxOf_lt_length_of_mem (hperm.mem_iff.mp hy)
  rw [← hperm.length_eq] at hplace
  rw [rowsMet] at hbound
  omega

end Runs

end OnyxServer.Lib
