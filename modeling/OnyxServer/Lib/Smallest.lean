import Mathlib.Data.List.Basic
import Mathlib.Data.List.Nodup
import Mathlib.Data.List.Perm.Subperm
import Mathlib.Order.Lattice

/-!
# The smallest of a scan

A page holds the elements of a scan with the smallest keys, ascending and one for each key,
built by bounded insertion. Where each page starts behind the last key of the page before, no
key is answered twice, and an element that every scan meets is answered once by the time a
page is not full.
-/
namespace OnyxServer.Lib

open List

variable {α κ : Type} [LinearOrder κ] (key : α → κ)

/-- The elements with the smallest keys that were met, at most `room` of them. -/
structure Smallest (room : Nat) (met out : List α) : Prop where
  ascending : out.Pairwise fun x y => key x < key y
  fits : out.length ≤ room
  sound : ∀ x ∈ out, x ∈ met
  complete : ∀ x ∈ met, (∃ y ∈ out, key y = key x) ∨ (out.length = room ∧ ∀ y ∈ out, key y < key x)

variable {key} {room : Nat} {met out front back : List α} {x y : α}

namespace Smallest

theorem nil : Smallest key room [] [] := ⟨List.Pairwise.nil, Nat.zero_le room, nofun, nofun⟩

/-- An element whose key is there already, or one behind a full page. -/
theorem skip (h : Smallest key room met out)
    (hskip : (∃ y ∈ out, key y = key x) ∨ (out.length = room ∧ ∀ y ∈ out, key y < key x)) :
    Smallest key room (met ++ [x]) out where
  ascending := h.ascending
  fits := h.fits
  sound z hz := mem_append_left _ (h.sound z hz)
  complete z hz := by
    rcases mem_append.mp hz with hz | hz
    · exact h.complete z hz
    · exact mem_singleton.mp hz ▸ hskip

theorem pairwise_insert (h : (front ++ back).Pairwise fun x y => key x < key y)
    (hfront : ∀ y ∈ front, key y < key x)
    (hback : ∀ y ∈ back, key x < key y) : (front ++ x :: back).Pairwise fun x y => key x <
      key y := by
  obtain ⟨hleft, hright, hcross⟩ := pairwise_append.mp h
  refine pairwise_append.mpr ⟨hleft, pairwise_cons.mpr ⟨hback, hright⟩, ?_⟩
  intro y hy z hz
  rcases mem_cons.mp hz with rfl | hz
  · exact hfront y hy
  · exact hcross y hy z hz

/-- An element that enters at its place. What no longer fits leaves at the end. -/
theorem insert (h : Smallest key room met (front ++ back)) (hfront : ∀ y ∈ front, key y < key x)
    (hback : ∀ y ∈ back, key x < key y) :
    Smallest key room (met ++ [x]) ((front ++ x :: back).take room) := by
  have hascending := pairwise_insert h.ascending hfront hback
  have hsplit := take_append_drop room (front ++ x :: back)
  have hcross : ∀ y ∈ (front ++ x :: back).take room, ∀ z ∈ (front ++ x :: back).drop room, key y <
      key z := by
    rw [← hsplit] at hascending
    exact (pairwise_append.mp hascending).2.2
  -- what is dropped lies behind a page that is full
  have hplaced : ∀ z ∈ front ++ x :: back, (∃ y ∈ (front ++ x :: back).take room, key y = key z) ∨
      (((front ++ x :: back).take room).length = room ∧
        ∀ y ∈ (front ++ x :: back).take room, key y < key z) := by
    intro z hz
    rw [← hsplit] at hz
    rcases mem_append.mp hz with hz | hz
    · exact .inl ⟨z, hz, rfl⟩
    refine .inr ⟨?_, fun y hy => hcross y hy z hz⟩
    rw [length_take_of_le]
    by_contra hshort
    rw [drop_eq_nil_of_le (Nat.le_of_not_le hshort)] at hz
    cases hz
  refine ⟨hascending.sublist (take_sublist _ _), length_take_le _ _, fun z hz => ?_, fun z hz => ?_⟩
  · rcases mem_append.mp (mem_of_mem_take hz) with hz | hz
    · exact mem_append_left _ (h.sound z (mem_append_left _ hz))
    · rcases mem_cons.mp hz with rfl | hz
      · exact mem_append_right _ (mem_singleton_self z)
      · exact mem_append_left _ (h.sound z (mem_append_right _ hz))
  · rcases mem_append.mp hz with hz | hz
    · rcases h.complete z hz with ⟨y, hy, hkey⟩ | ⟨hfull, hbehind⟩
      · have hthere : y ∈ front ++ x :: back := by
          rcases mem_append.mp hy with hy | hy
          · exact mem_append_left _ hy
          · exact mem_append_right _ (mem_cons_of_mem x hy)
        rw [← hkey]
        exact hplaced y hthere
      · -- the page was full, so everything on it lies before what was left out of it
        have hlonger : (front ++ x :: back).length = room + 1 := by
          rw [← hfull, length_append, length_append, length_cons, Nat.add_assoc]
        refine .inr ⟨by rw [length_take_of_le]; omega, fun y hy => ?_⟩
        rcases mem_append.mp (mem_of_mem_take hy) with hy' | hy'
        · exact hbehind y (mem_append_left _ hy')
        rcases mem_cons.mp hy' with rfl | hy'
        · cases back with
          | nil =>
            -- the element itself is what no longer fits
            have hout : front.length = room := by
              rw [append_nil] at hfull
              exact hfull
            rw [take_left' hout] at hy
            exact hbehind y (mem_append_left _ hy)
          | cons first rest =>
            exact (hback first mem_cons_self).trans
              (hbehind first (mem_append_right _ mem_cons_self))
        · exact hbehind y (mem_append_right _ hy')
    · obtain rfl := mem_singleton.mp hz
      exact hplaced z (mem_append_right _ mem_cons_self)

/-- A page that is not full holds everything that was met. -/
theorem of_short (h : Smallest key room met out) (hshort : out.length < room) (hx : x ∈ met) :
    ∃ y ∈ out, key y = key x :=
  (h.complete x hx).resolve_right fun hfull => Nat.ne_of_lt hshort hfull.1

end Smallest

/-! ## Pages behind each other -/

/-- The key lies behind the bound, where there is one. -/
def behind (key : α → κ) (bound : Option κ) (x : α) : Bool := bound.all fun b => decide (b < key x)

@[simp] theorem behind_none (key : α → κ) (x : α) : behind key none x = true := rfl

@[simp] theorem behind_some {key : α → κ} {b : κ} : behind key (some b) x = true ↔ b < key x := by
  simp [behind]

structure Query (α : Type) where
  scan : List α
  room : Nat
  page : List α

/-- The bound of the query after a page. -/
def nextBound (key : α → κ) (bound : Option κ) (page : List α) : Option κ :=
  (page.getLast?.map key).or bound

/-- Each page holds the smallest of what lies behind the page before. -/
def Chained (key : α → κ) : Option κ → List (Query α) → Prop
  | _, [] => True
  | bound, q :: qs =>
    Smallest key q.room (q.scan.filter (behind key bound)) q.page ∧
      Chained key (nextBound key bound q.page) qs

def answers (qs : List (Query α)) : List α := qs.flatMap Query.page

variable {bound : Option κ} {q : Query α} {qs : List (Query α)}

theorem last_greatest (h : out.Pairwise fun x y => key x < key y) (hlast : out.getLast? = some y)
    (hx : x ∈ out) :
    key x ≤ key y := by
  obtain ⟨init, rfl⟩ := List.getLast?_eq_some_iff.mp hlast
  rcases mem_append.mp hx with hx | hx
  · exact ((pairwise_append.mp h).2.2 x hx y (mem_singleton_self y)).le
  · rw [mem_singleton.mp hx]

/-- Behind the next bound is behind this page and behind the bound of it. -/
theorem behind_nextBound (h : out.Pairwise fun x y => key x < key y)
    (hout : ∀ x ∈ out, behind key bound x = true) :
    behind key (nextBound key bound out) x = true ↔ behind key bound x = true ∧
    ∀ y ∈ out, key y < key x := by
  unfold nextBound
  cases hlast : out.getLast? with
  | none =>
    rw [List.getLast?_eq_none_iff.mp hlast]
    simp
  | some y =>
    have hy := mem_of_getLast? hlast
    simp only [Option.map_some, Option.some_or, behind_some]
    constructor
    · intro hlt
      refine ⟨?_, fun z hz => (last_greatest h hlast hz).trans_lt hlt⟩
      cases bound with
      | none => rfl
      | some b => exact behind_some.mpr ((behind_some.mp (hout y hy)).trans hlt)
    · exact fun hboth => hboth.2 y hy

theorem Smallest.behind_of_mem (h : Smallest key room (met.filter (behind key bound)) out)
    (hx : x ∈ out) :
    x ∈ met ∧ behind key bound x = true :=
  mem_filter.mp (h.sound x hx)

theorem Chained.left {later : List (Query α)} (h : Chained key bound (qs ++ later)) :
    Chained key bound qs := by
  induction qs generalizing bound with
  | nil => trivial
  | cons q qs ih => exact ⟨h.1, ih h.2⟩

section

variable (h : Chained key bound qs)
include h

theorem Chained.fits : ∀ q ∈ qs, q.page.length ≤ q.room := by
  induction qs generalizing bound with
  | nil => exact nofun
  | cons q qs ih => exact forall_mem_cons.mpr ⟨h.1.fits, ih h.2⟩

theorem Chained.behind : ∀ x ∈ answers qs, Lib.behind key bound x = true := by
  induction qs generalizing bound with
  | nil => exact nofun
  | cons q qs ih =>
    intro x hx
    obtain ⟨hpage, hrest⟩ := h
    rcases mem_append.mp hx with hx | hx
    · exact (hpage.behind_of_mem hx).2
    · exact ((behind_nextBound hpage.ascending fun y hy => (hpage.behind_of_mem hy).2).mp
        (ih hrest x hx)).1

theorem Chained.ascending : (answers qs).Pairwise fun x y => key x < key y := by
  induction qs generalizing bound with
  | nil => exact List.Pairwise.nil
  | cons q qs ih =>
    obtain ⟨hpage, hrest⟩ := h
    refine pairwise_append.mpr ⟨hpage.ascending, ih hrest, fun x hx y hy => ?_⟩
    have hbound := behind_nextBound (x := y) hpage.ascending fun z hz => (hpage.behind_of_mem hz).2
    exact (hbound.mp (hrest.behind y hy)).2 x hx

theorem Chained.nodup : (answers qs).Nodup :=
  h.ascending.imp fun hlt heq => hlt.ne (congrArg key heq)

theorem Chained.sound (hx : x ∈ answers qs) : ∃ q ∈ qs, x ∈ q.scan := by
  induction qs generalizing bound with
  | nil => cases hx
  | cons q qs ih =>
    obtain ⟨hpage, hrest⟩ := h
    rcases mem_append.mp hx with hx | hx
    · exact ⟨q, mem_cons_self, (hpage.behind_of_mem hx).1⟩
    · obtain ⟨q', hq', hscan⟩ := ih hrest hx
      exact ⟨q', mem_cons_of_mem q hq', hscan⟩

end

/-- The answers of full pages and a last one that is not. -/
structure Complete (full : List (Query α)) (last : Query α) : Prop where
  full : ∀ q ∈ full, q.page.length = q.room
  short : last.page.length < last.room

variable {full : List (Query α)} {last : Query α}

/-- What every scan meets has its key answered by the first page that is not full. -/
theorem Chained.reaches (h : Chained key bound (full ++ [last]))
    (hcomplete : Complete full last) (hbehind : Lib.behind key bound x = true)
    (hscan : ∀ q ∈ full ++ [last], x ∈ q.scan) :
    ∃ y ∈ answers (full ++ [last]), key y = key x := by
  induction full generalizing bound with
  | nil =>
    obtain ⟨y, hy, hkey⟩ := h.1.of_short hcomplete.short
      (mem_filter.mpr ⟨hscan last (mem_singleton_self last), hbehind⟩)
    exact ⟨y, mem_append_left _ hy, hkey⟩
  | cons q full ih =>
    obtain ⟨hpage, hrest⟩ := h
    obtain ⟨hfirst, hfull⟩ := forall_mem_cons.mp hcomplete.full
    obtain ⟨hmet, hlater⟩ := forall_mem_cons.mp hscan
    rcases hpage.complete x (mem_filter.mpr ⟨hmet, hbehind⟩) with ⟨y, hy, hkey⟩ | ⟨-, hlow⟩
    · exact ⟨y, mem_append_left _ hy, hkey⟩
    have hnext := (behind_nextBound hpage.ascending fun z hz => (hpage.behind_of_mem hz).2).mpr
      ⟨hbehind, hlow⟩
    obtain ⟨y, hy, hkey⟩ := ih hrest ⟨hfull, hcomplete.short⟩ hnext hlater
    exact ⟨y, mem_append_right _ hy, hkey⟩

/-- Keys tell the elements of a scan apart. -/
def Keyed (key : α → κ) (scan : List α) : Prop := (scan.map key).Nodup

omit [LinearOrder κ] in
theorem Keyed.eq {scan : List α} (h : Keyed key scan) (hx : x ∈ scan) (hy : y ∈ scan)
    (hkey : key x = key y) : x = y :=
  inj_on_of_nodup_map h hx hy hkey

section

variable (h : Chained key bound (full ++ [last])) (hcomplete : Complete full last)
variable (hkeyed : ∀ q ∈ full ++ [last], Keyed key q.scan) (hbehind : Lib.behind key bound x = true)
variable (hscan : ∀ q ∈ full ++ [last], x ∈ q.scan)
include h hcomplete hkeyed hbehind hscan

theorem Chained.mem_of_stays :
    x ∈ answers (full ++ [last]) := by
  obtain ⟨y, hy, hkey⟩ := h.reaches hcomplete hbehind hscan
  obtain ⟨q, hq, hmet⟩ := h.sound hy
  rw [← (hkeyed q hq).eq hmet (hscan q hq) hkey]
  exact hy

/-- An element that every scan meets is answered exactly once. -/
theorem Chained.once [DecidableEq α]
    : (answers (full ++ [last])).count x = 1 :=
  count_eq_one_of_mem h.nodup (h.mem_of_stays hcomplete hkeyed hbehind hscan)

end

variable {scan : List α}

/-- The pages of one scan are all of it. -/
theorem Chained.perm (h : Chained key none (full ++ [last]))
    (hcomplete : Complete full last) (hkeyed : Keyed key scan)
    (hsame : ∀ q ∈ full ++ [last], q.scan = scan) :
    (answers (full ++ [last])).Perm scan := by
  refine (perm_ext_iff_of_nodup h.nodup hkeyed.of_map).mpr fun x => ⟨fun hx => ?_, fun hx => ?_⟩
  · obtain ⟨q, hq, hmet⟩ := h.sound hx
    rw [← hsame q hq]
    exact hmet
  · exact h.mem_of_stays hcomplete (fun q hq => hsame q hq ▸ hkeyed) (behind_none key x)
      fun q hq => hsame q hq ▸ hx

theorem length_answers (hroom : ∀ q ∈ qs, 1 ≤ q.room) (hfull : ∀ q ∈ qs, q.page.length = q.room) :
    qs.length ≤ (answers qs).length := by
  induction qs with
  | nil => exact Nat.zero_le _
  | cons q qs ih =>
    obtain ⟨hone, hrooms⟩ := forall_mem_cons.mp hroom
    obtain ⟨hfirst, hrest⟩ := forall_mem_cons.mp hfull
    have hlater := ih hrooms hrest
    have hcons : answers (q :: qs) = q.page ++ answers qs := rfl
    rw [hcons, length_append, length_cons]
    omega

/-- Full pages come to an end. -/
theorem Chained.ends (h : Chained key bound qs) (hsame : ∀ q ∈ qs, q.scan = scan)
    (hroom : ∀ q ∈ qs, 1 ≤ q.room)
    (hfull : ∀ q ∈ qs, q.page.length = q.room) : qs.length ≤ scan.length := by
  have hsub : answers qs ⊆ scan := by
    intro x hx
    obtain ⟨q, hq, hmet⟩ := h.sound hx
    rw [← hsame q hq]
    exact hmet
  exact Nat.le_trans (length_answers hroom hfull) (h.nodup.subperm hsub).length_le

end OnyxServer.Lib
