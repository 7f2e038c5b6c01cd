import Mathlib.Data.Multiset.AddSub
import OnyxServer.Lib.Wire

/-!
# Reference-counted heaps

A cell is freed when its last reference goes. Code that takes a reference for every pointer it
keeps reads no freed cell, and what an owner reaches stays as it was.
-/
namespace OnyxServer.Lib

open List Option Multiset

abbrev Addr := Nat

structure HeapCell (κ : Type) where
  -- a machine word; each reference it counts takes up memory itself
  rc : Nat
  kind : κ

/-- The cells by their address, where a freed one is `none`, and what the allocator answers to
the requests that are still to come. -/
structure Heap (κ : Type) where
  cells : List (Option (HeapCell κ))
  allocator : Allocator
  requests : Nat

namespace Heap

variable {κ : Type} {heap next last : Heap κ} {a b : Addr} {cell : HeapCell κ}

def read (heap : Heap κ) (a : Addr) : Option (HeapCell κ) := heap.cells[a]?.join

def rc (heap : Heap κ) (a : Addr) : Nat := (heap.read a).elim 0 HeapCell.rc

def write (heap : Heap κ) (a : Addr) (cell : Option (HeapCell κ)) : Heap κ :=
  { heap with cells := heap.cells.set a cell }

theorem getElem?_of_read (h : heap.read a = some cell) : heap.cells[a]? = some (some cell) :=
  join_eq_some_iff.mp h

theorem lt_of_read (h : heap.read a = some cell) : a < heap.cells.length :=
  (List.getElem?_eq_some_iff.mp (getElem?_of_read h)).1

theorem rc_of_read (h : heap.read a = some cell) : heap.rc a = cell.rc := by
  rw [rc, h, elim_some]

theorem exists_cell (h : 0 < heap.rc a) :
    ∃ cell, heap.read a = some cell ∧ heap.rc a = cell.rc := by
  cases hcell : heap.read a with
  | none =>
    rw [rc, hcell] at h
    exact absurd h (Nat.lt_irrefl 0)
  | some cell => exact ⟨cell, rfl, rc_of_read hcell⟩

theorem read_write_self (h : a < heap.cells.length) (new : Option (HeapCell κ)) :
    (heap.write a new).read a = new := by
  rw [read, write, List.getElem?_set_self h, join_some]

theorem read_write_ne (h : b ≠ a) (new : Option (HeapCell κ)) :
    (heap.write a new).read b = heap.read b := by
  rw [read, write, List.getElem?_set_ne h.symm, read]

/-- Nothing is put into a freed cell, and a cell that stays is of the kind it was of. -/
structure Follows (heap next : Heap κ) : Prop where
  allocator_eq : next.allocator = heap.allocator
  length_le : heap.cells.length ≤ next.cells.length
  kind_eq : ∀ a cell, a < heap.cells.length → next.read a = some cell →
    ∃ old, heap.read a = some old ∧ old.kind = cell.kind

theorem Follows.refl (heap : Heap κ) : Follows heap heap where
  allocator_eq := rfl
  length_le := Nat.le_refl _
  kind_eq := fun _ cell _ h => ⟨cell, h, rfl⟩

theorem Follows.trans (h : Follows heap next) (h' : Follows next last) : Follows heap last where
  allocator_eq := h'.allocator_eq.trans h.allocator_eq
  length_le := Nat.le_trans h.length_le h'.length_le
  kind_eq := fun a cell hlt hcell =>
    have ⟨mid, hmid, hkind⟩ := h'.kind_eq a cell (Nat.lt_of_lt_of_le hlt h.length_le) hcell
    have ⟨old, hold, hkind'⟩ := h.kind_eq a mid hlt hmid
    ⟨old, hold, hkind'.trans hkind⟩

/-- What a live cell was before. -/
theorem Follows.kind_of_read (h : Follows heap next) {old : HeapCell κ}
    (hold : heap.read a = some old) (hnext : next.read a = some cell) : old.kind = cell.kind := by
  obtain ⟨old', hold', hkind⟩ := h.kind_eq a cell (lt_of_read hold) hnext
  rw [hold] at hold'
  exact some.inj hold' ▸ hkind

theorem follows_write {old : HeapCell κ} (hold : heap.read a = some old) {new : Option (HeapCell κ)}
    (hnew : ∀ cell, new = some cell → old.kind = cell.kind) : Follows heap (heap.write a new) where
  allocator_eq := rfl
  length_le := by rw [write, length_set]
  kind_eq := by
    intro b cell _ hcell
    by_cases hsame : b = a
    · subst hsame
      rw [read_write_self (lt_of_read hold)] at hcell
      exact ⟨old, hold, hnew cell hcell⟩
    · rw [read_write_ne hsame] at hcell
      exact ⟨cell, hcell, rfl⟩

end Heap

/-- What code comes to: a result, a refused allocation, or a fault, as a read of a freed cell. -/
inductive Outcome (κ α : Type) where
  | ok (result : α) (heap : Heap κ)
  | outOfMemory (heap : Heap κ)
  | fault

def Mem (κ α : Type) := Heap κ → Outcome κ α

namespace Mem

variable {κ α β : Type}

instance : Monad (Mem κ) where
  pure a := fun heap => .ok a heap
  bind m f := fun heap =>
    match m heap with
    | .ok a heap => f a heap
    | .outOfMemory heap => .outOfMemory heap
    | .fault => .fault

def fault : Mem κ α := fun _ => .fault

def require (p : Prop) [Decidable p] : Mem κ Unit := if p then pure () else fault

/-- `errdefer`: what is undone when the allocation behind it is refused. -/
def onError (m : Mem κ α) (cleanup : Mem κ Unit) : Mem κ α := fun heap =>
  match m heap with
  | .ok a heap => .ok a heap
  | .outOfMemory heap =>
    match cleanup heap with
    | .ok () heap => .outOfMemory heap
    | .outOfMemory heap => .outOfMemory heap
    | .fault => .fault
  | .fault => .fault

/-- A slice that the cell built behind it owns. -/
def reserve : Mem κ Unit := fun heap =>
  if heap.allocator heap.requests then .ok () { heap with requests := heap.requests + 1 }
  else .outOfMemory { heap with requests := heap.requests + 1 }

def create (kind : κ) : Mem κ Addr := fun heap =>
  if heap.allocator heap.requests then
    .ok heap.cells.length { heap with cells := heap.cells ++ [some ⟨1, kind⟩], requests :=
      heap.requests + 1 }
  else .outOfMemory { heap with requests := heap.requests + 1 }

def load (a : Addr) : Mem κ (HeapCell κ) := fun heap =>
  match heap.read a with
  | some cell => .ok cell heap
  | none => .fault

def store (a : Addr) (cell : Option (HeapCell κ)) : Mem κ Unit :=
  fun heap => .ok () (heap.write a cell)

def retain (a : Addr) : Mem κ Unit := do
  let cell ← load a
  store a (some ⟨cell.rc + 1, cell.kind⟩)

/-- The last reference that goes takes the references of the cell with it. -/
def release (pointers : κ → List Addr) : Nat → Addr → Mem κ Unit
  | 0, _ => fault
  | levels + 1, a => do
    let cell ← load a
    require (0 < cell.rc)
    store a (some ⟨cell.rc - 1, cell.kind⟩)
    if cell.rc - 1 ≠ 0 then pure () else do
      (pointers cell.kind).forM (release pointers levels)
      let _ ← load a
      store a none

end Mem

/-- The code does not fault, and what it ends in is as stated. -/
def Runs {κ α : Type} (m : Mem κ α) (heap : Heap κ) (good : α → Heap κ → Prop)
    (bad : Heap κ → Prop) : Prop :=
  match m heap with
  | .ok a heap => good a heap
  | .outOfMemory heap => bad heap
  | .fault => False

namespace Runs

variable {κ α β : Type} {m : Mem κ α} {f : α → Mem κ β} {heap : Heap κ}
    {good good' : α → Heap κ → Prop}
  {bad bad' : Heap κ → Prop} {a : α} {last : β → Heap κ → Prop}

theorem pure_bind (h : Runs (f a) heap last bad) : Runs (Pure.pure a >>= f) heap last bad := h

theorem imp (h : Runs m heap good bad) (hgood : ∀ a next, good a next → good' a next)
    (hbad : ∀ next, bad next → bad' next) : Runs m heap good' bad' := by
  unfold Runs at h ⊢
  split at h
  · exact hgood _ _ h
  · exact hbad _ h
  · exact h

theorem bind (h : Runs m heap good bad)
    (hf : ∀ a next, good a next → Runs (f a) next last bad) : Runs (m >>= f) heap last bad := by
  unfold Runs at h
  show Runs (fun heap => match m heap with
    | .ok a heap => f a heap
    | .outOfMemory heap => .outOfMemory heap
    | .fault => .fault) heap last bad
  split at h
  · next a next hm =>
    simp only [Runs, hm]
    exact hf a next h
  · next next hm =>
    simp only [Runs, hm]
    exact h
  · exact h.elim

theorem onError {cleanup : Mem κ Unit} (h : Runs m heap good bad)
    (hclean : ∀ next, bad next → Runs cleanup next (fun _ => bad') bad') :
    Runs (m.onError cleanup) heap good bad' := by
  unfold Runs at h
  split at h
  · next a next hm =>
    simp only [Runs, Mem.onError, hm]
    exact h
  · next next hm =>
    have hrun := hclean next h
    unfold Runs at hrun
    split at hrun <;> simp_all [Runs, Mem.onError]
  · exact h.elim

theorem require {p : Prop} [Decidable p] {done : Unit → Heap κ → Prop} (hp : p) (h : done () heap) :
    Runs (Mem.require p) heap done bad := by
  rw [Mem.require, if_pos hp]
  exact h

theorem load {addr : Addr} {cell : HeapCell κ} {done : HeapCell κ → Heap κ → Prop}
    (hcell : heap.read addr = some cell)
    (h : done cell heap) : Runs (Mem.load addr) heap done bad := by
  simp only [Runs, Mem.load, hcell]
  exact h

theorem load_bind {addr : Addr} {cell : HeapCell κ} {g : HeapCell κ → Mem κ β}
    (hcell : heap.read addr = some cell) (h : Runs (g cell) heap last bad) :
    Runs (Mem.load addr >>= g) heap last bad :=
  have hload : Runs (Mem.load addr) heap (fun found next => found = cell ∧ next = heap) bad :=
    load hcell ⟨rfl, rfl⟩
  bind hload fun _ _ hfound => hfound.1.symm ▸ hfound.2.symm ▸ h

theorem require_bind {p : Prop} [Decidable p] {g : Unit → Mem κ β} (hp : p)
    (h : Runs (g ()) heap last bad) : Runs (Mem.require p >>= g) heap last bad :=
  have hrequire : Runs (Mem.require p) heap (fun _ next => next = heap) bad := require hp rfl
  bind hrequire fun _ _ hnext => hnext.symm ▸ h

theorem run (h : Runs m heap good fun _ => False) :
    ∃ a next, m heap = .ok a next ∧ good a next := by
  unfold Runs at h
  split at h
  · next a next hm => exact ⟨a, next, hm, h⟩
  · exact h.elim
  · exact h.elim

end Runs

/-! ## Counting the references -/

section

variable {κ α : Type} {pointers : κ → List Addr} {heap next : Heap κ} {owners more : Multiset Addr}
    {a b : Addr}
  {cell : HeapCell κ}

/-- What a cell refers to, when it is not being freed. -/
def HeapCell.links (pointers : κ → List Addr) (cell : Option (HeapCell κ)) : List Addr :=
  match cell with
  | some cell => if cell.rc = 0 then [] else pointers cell.kind
  | none => []

def Heap.links (pointers : κ → List Addr) (heap : Heap κ) : List Addr :=
  heap.cells.flatMap (HeapCell.links pointers)

/-- Every count is the number of the owners of the cell and of the pointers to it. -/
def Owned (pointers : κ → List Addr) (heap : Heap κ) (owners : Multiset Addr) : Prop :=
  ∀ a, heap.rc a = owners.count a + (heap.links pointers).count a

theorem count_flatMap_set {γ : Type} (f : γ → List Addr) (cells : List γ) {old : γ} (new : γ)
    (h : cells[a]? = some old) :
    ((cells.set a new).flatMap f).count b + (f old).count b =
      (cells.flatMap f).count b + (f new).count b := by
  induction cells generalizing a with
  | nil => cases h
  | cons head cells ih =>
    cases a with
    | zero =>
      cases h
      simp only [set_cons_zero, flatMap_cons, count_append]
      omega
    | succ a =>
      have hrest := ih (a := a) h
      simp only [set_cons_succ, flatMap_cons, count_append]
      omega

theorem Heap.links_write (pointers : κ → List Addr) (b : Addr) (h : heap.read a = some cell)
    (new : Option (HeapCell κ)) :
    ((heap.write a new).links pointers).count b + (HeapCell.links pointers (some cell)).count b =
      (heap.links pointers).count b + (HeapCell.links pointers new).count b :=
  count_flatMap_set _ heap.cells new (Heap.getElem?_of_read h)

theorem HeapCell.links_of_pos {rc : Nat} (h : 0 < rc) (kind : κ) :
    HeapCell.links pointers (some ⟨rc, kind⟩) = pointers kind :=
  if_neg (Nat.ne_of_gt h)

theorem HeapCell.links_zero (kind : κ) : HeapCell.links pointers (some ⟨0, kind⟩) = [] := rfl

theorem HeapCell.mem_links (h : 0 < cell.rc) (hb : b ∈ pointers cell.kind) :
    b ∈ HeapCell.links pointers (some cell) := by
  rw [HeapCell.links, if_neg (Nat.ne_of_gt h)]
  exact hb

theorem Heap.mem_links (h : heap.read a = some cell) (hrc : 0 < cell.rc)
    (hb : b ∈ pointers cell.kind) :
    b ∈ heap.links pointers :=
  mem_flatMap.mpr ⟨some cell, mem_of_getElem? (Heap.getElem?_of_read h), HeapCell.mem_links hrc hb⟩

/-- What an owner comes to by pointers. -/
inductive Reach (pointers : κ → List Addr) (heap : Heap κ) (owners : Multiset Addr) :
    Addr → Prop where
  | owner {a : Addr} (h : a ∈ owners) : Reach pointers heap owners a
  | child {a b : Addr} {cell : HeapCell κ} (h : Reach pointers heap owners a)
      (hcell : heap.read a = some cell)
      (hb : b ∈ pointers cell.kind) : Reach pointers heap owners b

/-- What is reached is there, and is not being freed. -/
theorem Reach.live (h : Reach pointers heap owners a) (howned : Owned pointers heap owners) :
    ∃ cell, heap.read a = some cell ∧ 0 < cell.rc := by
  have hpos : 0 < heap.rc a := by
    induction h with
    | owner hin =>
      have hcount := Multiset.count_pos.mpr hin
      rw [howned]
      omega
    | child _ hcell hb ih =>
      rw [Heap.rc_of_read hcell] at ih
      have hcount := count_pos_iff.mpr (Heap.mem_links hcell ih hb)
      rw [howned]
      omega
  obtain ⟨cell, hcell, hrc⟩ := Heap.exists_cell hpos
  exact ⟨cell, hcell, hrc ▸ hpos⟩

theorem Reach.kind (h : Reach pointers next owners a) (howned : Owned pointers next owners)
    (hfollows : heap.Follows next) {old : HeapCell κ} (hold : heap.read a = some old) :
    ∃ rc, next.read a = some ⟨rc, old.kind⟩ := by
  obtain ⟨cell, hcell, -⟩ := h.live howned
  rw [hfollows.kind_of_read hold hcell]
  exact ⟨cell.rc, hcell⟩

theorem Reach.follows (h : Reach pointers heap owners a) (hfollows : heap.Follows next)
    (howned : Owned pointers next more) (hle : owners ≤ more) : Reach pointers next more a := by
  induction h with
  | owner hin => exact .owner (mem_of_le hle hin)
  | child _ hcell hb ih =>
    obtain ⟨cell', hcell', -⟩ := ih.live howned
    exact .child ih hcell' (hfollows.kind_of_read hcell hcell' ▸ hb)

/-- What code leaves that ends with the references `owners`. -/
structure After (pointers : κ → List Addr) (heap : Heap κ) (owners : Multiset Addr)
    (next : Heap κ) : Prop where
  follows : heap.Follows next
  owned : Owned pointers next owners

theorem Owned.after (h : Owned pointers heap owners) : After pointers heap owners heap :=
  ⟨.refl heap, h⟩

theorem After.trans {last : Heap κ} (h : After pointers heap owners next)
    (h' : After pointers next more last) :
    After pointers heap more last :=
  ⟨h.follows.trans h'.follows, h'.owned⟩

/-- No request is refused. -/
def Heap.Grants (heap : Heap κ) : Prop := ∀ request, heap.allocator request = true

/-- What code leaves that gave up after a request was refused. -/
structure Failed (pointers : κ → List Addr) (heap : Heap κ) (owners : Multiset Addr)
    (next : Heap κ) : Prop extends After pointers heap owners next where
  refused : ¬ heap.Grants

theorem After.failed {last : Heap κ} (h : After pointers heap owners next)
    (h' : Failed pointers next more last) : Failed pointers heap more last where
  toAfter := h.trans h'.toAfter
  refused := fun hgrants => h'.refused fun request =>
    h.follows.allocator_eq ▸ hgrants request

theorem Failed.trans {last : Heap κ} (h : Failed pointers heap owners next)
    (h' : After pointers next more last) : Failed pointers heap more last :=
  ⟨h.toAfter.trans h', h.refused⟩

/-- Code that fails only for a refused request. -/
theorem Runs.granted {m : Mem κ α} {good : α → Heap κ → Prop}
    (h : Runs m heap good (Failed pointers heap owners)) (hgrants : heap.Grants) :
    ∃ a next, m heap = .ok a next ∧ good a next :=
  (h.imp (fun _ _ => id) fun _ hnext => hnext.refused hgrants).run

/-- The heap behind a granted request for a cell. -/
def Heap.push (heap : Heap κ) (kind : κ) : Heap κ :=
  { heap with cells := heap.cells ++ [some ⟨1, kind⟩], requests := heap.requests + 1 }

theorem Heap.read_push_of_lt (kind : κ) (h : a < heap.cells.length) :
    (heap.push kind).read a = heap.read a := by
  rw [read, push, List.getElem?_append_left h, read]

theorem Heap.read_push_self (heap : Heap κ) (kind : κ) :
    (heap.push kind).read heap.cells.length = some ⟨1, kind⟩ := by
  simp [read, push]

theorem Heap.rc_of_le (h : heap.cells.length ≤ a) : heap.rc a = 0 := by
  rw [rc, read, List.getElem?_eq_none h]
  rfl

theorem Heap.rc_push (heap : Heap κ) (kind : κ) (a : Addr) :
    (heap.push kind).rc a = heap.rc a + if a = heap.cells.length then 1 else 0 := by
  rcases Nat.lt_trichotomy a heap.cells.length with hlt | rfl | hgt
  · rw [rc, read_push_of_lt kind hlt, if_neg (Nat.ne_of_lt hlt)]
    rfl
  · rw [rc_of_read (read_push_self heap kind), rc_of_le (Nat.le_refl _), if_pos rfl]
  · rw [rc_of_le (by rw [push, length_append]; exact hgt), rc_of_le (Nat.le_of_lt hgt),
      if_neg (Nat.ne_of_gt hgt)]

theorem Heap.links_push (heap : Heap κ) (kind : κ) :
    (heap.push kind).links pointers = heap.links pointers ++ pointers kind := by
  simp [links, push, HeapCell.links]

theorem Heap.follows_push (heap : Heap κ) (kind : κ) : heap.Follows (heap.push kind) where
  allocator_eq := rfl
  length_le := by
    rw [push, length_append]
    exact Nat.le_add_right _ _
  kind_eq := fun a cell hlt hcell => ⟨cell, by rwa [read_push_of_lt kind hlt] at hcell, rfl⟩

/-- A request that is refused changes nothing that can be read. -/
def Heap.refused (heap : Heap κ) : Heap κ := { heap with requests := heap.requests + 1 }

theorem Owned.refused (h : Owned pointers heap owners) : After pointers heap owners heap.refused :=
  ⟨⟨rfl, Nat.le_refl _, fun _ cell _ hcell => ⟨cell, hcell, rfl⟩⟩, h⟩

theorem Owned.failed {request : Nat} (h : Owned pointers heap owners)
    (hrefused : heap.allocator request = false) : Failed pointers heap owners heap.refused :=
  ⟨h.refused, fun hgrants => absurd (hgrants request) (by simp [hrefused])⟩

variable {kind : κ}

theorem Owned.push (h : Owned pointers heap (Multiset.ofList (pointers kind) + owners)) :
    Owned pointers (heap.push kind) (heap.cells.length ::ₘ owners) := by
  intro a
  have hcounts := h a
  rw [count_add, coe_count] at hcounts
  rw [Heap.rc_push, Heap.links_push, count_append, Multiset.count_cons]
  omega

theorem reserve_runs (h : Owned pointers heap owners) :
    Runs Mem.reserve heap (fun _ => After pointers heap owners) (Failed pointers heap owners) := by
  cases hgrant : heap.allocator heap.requests with
  | true =>
    simp only [Runs, Mem.reserve, hgrant, if_true]
    exact h.refused
  | false =>
    simp only [Runs, Mem.reserve, hgrant, Bool.false_eq_true, if_false]
    exact h.failed hgrant

theorem create_runs (h : Owned pointers heap (Multiset.ofList (pointers kind) + owners)) :
    Runs (Mem.create kind) heap
      (fun a next => After pointers heap (a ::ₘ owners) next ∧ next.read a = some ⟨1, kind⟩)
      (Failed pointers heap (Multiset.ofList (pointers kind) + owners)) := by
  cases hgrant : heap.allocator heap.requests with
  | true =>
    simp only [Runs, Mem.create, hgrant, if_true]
    exact ⟨⟨heap.follows_push kind, h.push⟩, heap.read_push_self kind⟩
  | false =>
    simp only [Runs, Mem.create, hgrant, Bool.false_eq_true, if_false]
    exact h.failed hgrant

theorem Heap.rc_write (h : heap.read a = some cell) (new : Option (HeapCell κ)) (b : Addr) :
    (heap.write a new).rc b = if b = a then new.elim 0 HeapCell.rc else heap.rc b := by
  split
  · next hsame => rw [hsame, rc, read_write_self (lt_of_read h)]
  · next hne => rw [rc, read_write_ne hne, rc]

theorem Owned.load_bind {β : Type} {g : HeapCell κ → Mem κ β} {good : β → Heap κ → Prop}
    {bad : Heap κ → Prop} (h : Owned pointers heap owners) (hreach : Reach pointers heap owners a)
    (hg : ∀ cell, Runs (g cell) heap good bad) : Runs (Mem.load a >>= g) heap good bad :=
  have ⟨cell, hcell, _⟩ := hreach.live h
  Runs.load_bind hcell (hg cell)

theorem retain_runs (h : Owned pointers heap owners) (hreach : Reach pointers heap owners a) :
    Runs (Mem.retain a) heap (fun _ => After pointers heap (a ::ₘ owners)) fun _ => False := by
  obtain ⟨⟨rc, kind⟩, hcell, hpos⟩ := hreach.live h
  refine Runs.load_bind hcell ⟨Heap.follows_write hcell fun _ hnew => some.inj hnew ▸ rfl,
    fun b => ?_⟩
  show (heap.write a (some ⟨rc + 1, kind⟩)).rc b =
    (a ::ₘ owners).count b + ((heap.write a (some ⟨rc + 1, kind⟩)).links pointers).count b
  have hcounts := h b
  have hlinks := Heap.links_write pointers b hcell (some ⟨rc + 1, kind⟩)
  rw [HeapCell.links_of_pos hpos, HeapCell.links_of_pos (Nat.succ_pos rc)] at hlinks
  rw [Heap.rc_write hcell, Multiset.count_cons, elim_some]
  split
  · next hsame =>
    rw [hsame, Heap.rc_of_read hcell] at hcounts
    rw [hsame] at hlinks ⊢
    dsimp only at hcounts ⊢
    omega
  · omega

theorem retainAll_runs {addrs : List Addr} (h : Owned pointers heap owners)
    (hreach : ∀ a ∈ addrs, Reach pointers heap owners a) :
    Runs (addrs.forM Mem.retain) heap
      (fun _ => After pointers heap (Multiset.ofList addrs + owners))
      fun _ => False := by
  induction addrs generalizing heap owners with
  | nil =>
    show After pointers heap (Multiset.ofList [] + owners) heap
    rw [coe_nil, Multiset.zero_add]
    exact h.after
  | cons a addrs ih =>
    refine Runs.bind (retain_runs h (hreach a mem_cons_self)) fun _ mid hmid => ?_
    have hrest : ∀ b ∈ addrs, Reach pointers mid (a ::ₘ owners) b := fun b hb =>
      (hreach b (mem_cons_of_mem a hb)).follows hmid.follows hmid.owned (le_cons_self owners a)
    refine (ih hmid.owned hrest).imp (fun _ last hlast => ?_) fun _ => id
    have htotal : Multiset.ofList addrs + a ::ₘ owners = Multiset.ofList (a :: addrs) + owners := by
      rw [add_cons, ← cons_coe, cons_add]
    exact htotal ▸ hmid.trans hlast

/-- The pointers below a cell go at most `levels` deep. -/
def Height (pointers : κ → List Addr) (heap : Heap κ) : Nat → Addr → Prop
  | 0, _ => False
  | levels + 1, a => ∃ cell, heap.read a = some cell ∧
      ∀ b ∈ pointers cell.kind, Height pointers heap levels b

variable {levels : Nat}

theorem Height.follows (h : Height pointers heap levels a) (hfollows : heap.Follows next)
    (howned : Owned pointers next owners) (hreach : Reach pointers next owners a) :
    Height pointers next levels a := by
  induction levels generalizing a with
  | zero => exact h
  | succ levels ih =>
    obtain ⟨cell, hcell, hbelow⟩ := h
    obtain ⟨cell', hcell', -⟩ := hreach.live howned
    have hkind := hfollows.kind_of_read hcell hcell'
    exact ⟨cell', hcell', fun b hb => ih (hbelow b (hkind ▸ hb)) (.child hreach hcell' hb)⟩

theorem Height.mono {levels more : Nat} (h : Height pointers heap levels a) (hle : levels ≤ more) :
    Height pointers heap more a := by
  induction levels generalizing a more with
  | zero => exact h.elim
  | succ levels ih =>
    obtain ⟨more, rfl⟩ : ∃ n, more = n + 1 := ⟨more - 1, by omega⟩
    obtain ⟨cell, hcell, hbelow⟩ := h
    exact ⟨cell, hcell, fun b hb => ih (hbelow b hb) (Nat.le_of_succ_le_succ hle)⟩

/-- No count grows, and what is being freed is left as it is. -/
def Shrinks (heap next : Heap κ) : Prop :=
  ∀ a, next.rc a ≤ heap.rc a ∧ (heap.rc a = 0 → next.read a = heap.read a)

theorem Shrinks.refl (heap : Heap κ) : Shrinks heap heap := fun _ => ⟨Nat.le_refl _, fun _ => rfl⟩

theorem Shrinks.trans {last : Heap κ} (h : Shrinks heap next) (h' : Shrinks next last) :
    Shrinks heap last :=
  fun a => ⟨Nat.le_trans (h' a).1 (h a).1, fun hzero =>
    ((h' a).2 (Nat.le_zero.mp (hzero ▸ (h a).1))).trans ((h a).2 hzero)⟩

/-- Code that gives references back. -/
def GivesBack (pointers : κ → List Addr) (m : Mem κ Unit) (heap : Heap κ) (owners : Multiset Addr) :
    Prop :=
  Runs m heap (fun _ next => After pointers heap owners next ∧ Shrinks heap next) fun _ => False

theorem releaseAll_runs {addrs : List Addr}
    (hone : ∀ {heap : Heap κ} {owners : Multiset Addr} {a : Addr},
      Owned pointers heap (a ::ₘ owners) →
      Height pointers heap levels a →
      GivesBack pointers (Mem.release pointers levels a) heap owners)
    (h : Owned pointers heap (Multiset.ofList addrs + owners))
    (hheight : ∀ a ∈ addrs, Height pointers heap levels a) :
    GivesBack pointers (addrs.forM (Mem.release pointers levels)) heap owners := by
  induction addrs generalizing heap with
  | nil =>
    rw [coe_nil, Multiset.zero_add] at h
    exact ⟨h.after, .refl heap⟩
  | cons a addrs ih =>
    rw [← cons_coe, cons_add] at h
    refine Runs.bind (hone h (hheight a mem_cons_self)) fun _ mid hmid => ?_
    have hrest : ∀ b ∈ addrs, Height pointers mid levels b := fun b hb =>
      (hheight b (mem_cons_of_mem a hb)).follows hmid.1.follows hmid.1.owned
        (.owner (mem_add.mpr (.inl hb)))
    exact (ih hmid.1.owned hrest).imp
      (fun _ last hlast => ⟨hmid.1.trans hlast.1, hmid.2.trans hlast.2⟩) fun _ => id

theorem Owned.loses {rc : Nat} (h : Owned pointers heap (a ::ₘ owners))
    (hcell : heap.read a = some ⟨rc, kind⟩) (hmore : rc - 1 ≠ 0) :
    Owned pointers (heap.write a (some ⟨rc - 1, kind⟩)) owners := by
  intro b
  have hcounts := h b
  have hlinks := Heap.links_write pointers b hcell (some ⟨rc - 1, kind⟩)
  rw [HeapCell.links_of_pos (by omega), HeapCell.links_of_pos (by omega)] at hlinks
  rw [Multiset.count_cons] at hcounts
  rw [Heap.rc_write hcell, elim_some]
  split
  · next hsame =>
    rw [hsame, Heap.rc_of_read hcell, if_pos rfl] at hcounts
    rw [hsame] at hlinks ⊢
    dsimp only at hcounts ⊢
    omega
  · next hne =>
    rw [if_neg hne] at hcounts
    omega

/-- The cell whose last reference goes hands its references over. -/
theorem Owned.dying (h : Owned pointers heap (a ::ₘ owners))
    (hcell : heap.read a = some ⟨1, kind⟩) :
    Owned pointers (heap.write a (some ⟨0, kind⟩)) (Multiset.ofList (pointers kind) + owners) := by
  intro b
  have hself := h a
  have hcounts := h b
  have hlinks := Heap.links_write pointers b hcell (some ⟨0, kind⟩)
  rw [HeapCell.links_of_pos Nat.one_pos, HeapCell.links_zero, count_nil] at hlinks
  rw [Multiset.count_cons] at hcounts
  rw [Heap.rc_write hcell, count_add, coe_count, elim_some]
  split
  · next hsame =>
    rw [Heap.rc_of_read hcell, Multiset.count_cons_self] at hself
    rw [hsame] at hlinks ⊢
    dsimp only at hself ⊢
    omega
  · next hne =>
    rw [if_neg hne] at hcounts
    omega

/-- A cell without references goes unnoticed. -/
theorem Owned.destroy (h : Owned pointers heap owners) (hcell : heap.read a = some ⟨0, kind⟩) :
    Owned pointers (heap.write a none) owners := by
  intro b
  have hcounts := h b
  have hlinks := Heap.links_write pointers b hcell none
  rw [HeapCell.links_zero] at hlinks
  rw [Heap.rc_write hcell, elim_none]
  have hempty : (HeapCell.links pointers (none : Option (HeapCell κ))).count b = 0 := rfl
  rw [count_nil, hempty] at hlinks
  split
  · next hsame =>
    rw [hsame, Heap.rc_of_read hcell] at hcounts
    rw [hsame] at hlinks ⊢
    dsimp only at hcounts
    omega
  · omega

theorem shrinks_write (hcell : heap.read a = some cell) {new : Option (HeapCell κ)}
    (hpos : 0 < cell.rc) (hle : new.elim 0 HeapCell.rc ≤ cell.rc) :
    Shrinks heap (heap.write a new) := by
  intro b
  by_cases hsame : b = a
  · subst hsame
    rw [Heap.rc_write hcell, if_pos rfl, Heap.rc_of_read hcell]
    exact ⟨hle, fun hzero => absurd hzero (Nat.ne_of_gt hpos)⟩
  · rw [Heap.rc_write hcell, if_neg hsame, Heap.read_write_ne hsame]
    exact ⟨Nat.le_refl _, fun _ => rfl⟩

theorem release_runs (h : Owned pointers heap (a ::ₘ owners))
    (hheight : Height pointers heap levels a) :
    GivesBack pointers (Mem.release pointers levels a) heap owners := by
  induction levels generalizing heap owners a with
  | zero => exact hheight.elim
  | succ levels ih =>
    obtain ⟨⟨rc, kind⟩, hcell, hbelow⟩ := hheight
    have hself := h a
    rw [Heap.rc_of_read hcell, Multiset.count_cons_self] at hself
    dsimp only at hself hbelow
    have hpos : 0 < rc := by omega
    refine Runs.load_bind hcell (Runs.require_bind hpos ?_)
    show Runs (if rc - 1 ≠ 0 then Pure.pure () else do
      (pointers kind).forM (Mem.release pointers levels)
      let _ ← Mem.load a
      Mem.store a none) (heap.write a (some ⟨rc - 1, kind⟩)) _ _
    have hfollows : heap.Follows (heap.write a (some ⟨rc - 1, kind⟩)) :=
      Heap.follows_write hcell fun _ hnew => some.inj hnew ▸ rfl
    have hshrinks : Shrinks heap (heap.write a (some ⟨rc - 1, kind⟩)) :=
      shrinks_write hcell hpos (Nat.sub_le rc 1)
    split
    · next hmore => exact ⟨⟨hfollows, h.loses hcell hmore⟩, hshrinks⟩
    rename_i hlast
    obtain rfl : rc = 1 := by omega
    have hdying := h.dying hcell
    have hheights : ∀ b ∈ pointers kind, Height pointers (heap.write a (some ⟨0, kind⟩)) levels b :=
      fun b hb =>
      (hbelow b hb).follows hfollows hdying (.owner (mem_add.mpr (.inl hb)))
    refine Runs.bind (releaseAll_runs ih hdying hheights) fun _ next hnext => ?_
    -- the cell that is being freed is still there, as its count was zero
    have hkept : next.read a = some ⟨0, kind⟩ := by
      rw [(hnext.2 a).2 (Heap.rc_of_read (Heap.read_write_self (Heap.lt_of_read hcell) _)),
        Heap.read_write_self (Heap.lt_of_read hcell)]
    refine Runs.load_bind hkept
      ⟨⟨hfollows.trans (hnext.1.follows.trans (Heap.follows_write hkept nofun)),
      hnext.1.owned.destroy hkept⟩, fun b => ?_⟩
    rw [Heap.rc_write hkept]
    by_cases hsame : b = a
    · rw [if_pos hsame, hsame, Heap.rc_of_read hcell]
      exact ⟨Nat.zero_le _, fun hzero => absurd hzero (Nat.ne_of_gt hpos)⟩
    · rw [if_neg hsame, Heap.read_write_ne hsame]
      exact hshrinks.trans hnext.2 b

end

end OnyxServer.Lib
