import OnyxServer.PersistentMap.Shape

/-!
# Iterating

The frames of an iterator are the path from the root to where it stands. What the frames have
left, from the top down, is what the iterator is still to yield.
-/
namespace OnyxServer.PersistentMap

open Lib Lib.Bitmap List

variable {K V : Type} {ctx : Context K} {heap next : Heap (Kind K V)} {owners more : Multiset Addr}
    {root node : Addr}
  {levels idx rounds : Nat} {frame : Frame} {stack : Iterator}
    {entries left lower : List (Entry K V)}

/-- What a frame has left. -/
inductive Left (ctx : Context K) (heap : Heap (Kind K V)) :
    Nat → Addr → Nat → List (Entry K V) → Prop where
  | fresh {levels : Nat} {node : Addr} {entries : List (Entry K V)}
      (h : Holds ctx heap levels node entries) :
      Left ctx heap levels node 0 entries
  | collision {rc : Nat} {node : Addr} {entries : List (Entry K V)}
      (hcell : heap.read node = some ⟨rc, .collision entries⟩)
        (idx : Nat) : Left ctx heap 0 node idx (entries.drop idx)
  | internal {levels rc : Nat} {node : Addr} {bitmap : BitVec 32} {branches : List (Branch K V)}
      (hcell : heap.read node = some ⟨rc, .internal bitmap (branches.map Branch.child)⟩)
      (hbelow : ∀ b ∈ branches, Holds ctx heap levels b.child b.entries) (idx : Nat) :
      Left ctx heap (levels + 1) node idx ((branches.drop idx).flatMap Branch.entries)

/-- A frame lies under the one that pushed it. -/
def Linked (heap : Heap (Kind K V)) (root : Addr) (frame : Frame) : Iterator → Prop
  | [] => frame.node = root
  | below :: _ => ∃ cell, heap.read below.node = some cell ∧ frame.node ∈ cell.kind.pointers

/-- An iterator that started at `root`, and what it is still to yield. -/
inductive Walk (ctx : Context K) (heap : Heap (Kind K V)) (root : Addr) :
    Nat → Iterator → List (Entry K V) → Prop where
  | done : Walk ctx heap root (maxDepth + 1) [] []
  | frame {levels : Nat} {frame : Frame} {stack : Iterator} {left lower : List (Entry K V)}
      (hleft : Left ctx heap levels frame.node frame.idx left)
        (hlower : Walk ctx heap root (levels + 1) stack lower)
      (hlink : Linked heap root frame stack) : Walk ctx heap root levels (frame :: stack)
        (left ++ lower)

theorem Walk.length_eq (h : Walk ctx heap root levels stack left) :
    stack.length + levels = maxDepth + 1 := by
  induction h with
  | done => rfl
  | frame _ _ _ ih =>
    rw [length_cons]
    omega

/-- What a call of `next` ends in, with these entries still to yield. -/
def Yielded (ctx : Context K) (heap : Heap (Kind K V)) (root : Addr) (left : List (Entry K V))
    (result : Option (Entry K V) × Iterator) : Prop :=
  match left with
  | [] => result.1 = none ∧ result.2 = []
  | entry :: left => result.1 = some entry ∧ ∃ levels, Walk ctx heap root levels result.2 left

def Steps (ctx : Context K) (heap : Heap (Kind K V)) (root : Addr) (rounds : Nat) (stack : Iterator)
    (left : List (Entry K V)) : Prop :=
  Runs (Iterator.nextLoop rounds stack) heap (fun result next => next = heap ∧
    Yielded ctx heap root left result)
    fun _ => False

/-- A frame that was just pushed comes to its first entry. -/
theorem descend (h : Holds ctx heap levels node entries)
    (hlower : Walk ctx heap root (levels + 1) stack lower)
    (hlink : Linked heap root ⟨node, 0⟩ stack) (hrounds : levels < rounds) :
    Steps ctx heap root rounds (⟨node, 0⟩ :: stack) (entries ++ lower) := by
  induction h generalizing stack lower rounds with
  | leaf hcell =>
    obtain ⟨rounds, rfl⟩ : ∃ n, rounds = n + 1 := ⟨rounds - 1, by omega⟩
    exact Runs.load_bind hcell ⟨rfl, rfl, _, hlower⟩
  | @collision rc node entries hcell hlength _ =>
    obtain ⟨rounds, rfl⟩ : ∃ n, rounds = n + 1 := ⟨rounds - 1, by omega⟩
    cases entries with
    | nil => exact absurd hlength (Nat.not_succ_le_zero 1)
    | cons entry entries =>
        exact Runs.load_bind hcell ⟨rfl, rfl, _, .frame (.collision hcell 1) hlower hlink⟩
  | @internal levels rc node bitmap branches hcell _ hne hbelow _ ih =>
    obtain ⟨rounds, rfl⟩ : ∃ n, rounds = n + 1 := ⟨rounds - 1, by omega⟩
    obtain ⟨branch, branches, rfl⟩ := exists_cons_of_ne_nil hne
    have hdepth := hlower.length_eq
    have hroom : ((⟨node, 0⟩ : Frame) :: stack).length < Iterator.capacity := by
      simp only [length_cons, Iterator.capacity]
      omega
    refine Runs.load_bind hcell (Runs.require_bind hroom ?_)
    have hwalk :
        Walk ctx heap root (levels + 1) (⟨node, 1⟩ :: stack)
        (branches.flatMap Branch.entries ++ lower) :=
      .frame (.internal hcell hbelow 1) hlower hlink
    have hchild :=
      ih branch mem_cons_self hwalk ⟨_, hcell, mem_cons_self⟩ (Nat.lt_of_succ_lt_succ hrounds)
    rw [flatMap_cons, append_assoc]
    exact hchild

/-- The loop pops the frames that are done and goes down from the first one that is not. -/
theorem Walk.steps (h : Walk ctx heap root levels stack left)
    (hrounds : stack.length + (maxDepth + 1) < rounds) :
    Steps ctx heap root rounds stack left := by
  induction h generalizing rounds with
  | done =>
    obtain ⟨rounds, rfl⟩ : ∃ n, rounds = n + 1 := ⟨rounds - 1, by omega⟩
    exact ⟨rfl, rfl, rfl⟩
  | @frame levels frame stack left lower hleft hlower hlink ih =>
    obtain ⟨rounds, rfl⟩ : ∃ n, rounds = n + 1 := ⟨rounds - 1, by omega⟩
    rw [length_cons] at hrounds
    have hlevels := hlower.length_eq
    have hpop : Steps ctx heap root rounds stack lower := ih (by omega)
    obtain ⟨node, idx⟩ := frame
    cases hleft with
    | fresh hholds => exact descend hholds hlower hlink (by omega)
    | @collision rc node entries hcell idx =>
      refine Runs.load_bind hcell ?_
      cases hget : entries[idx]? with
      | some entry =>
        simp only [hget]
        obtain ⟨hidx, hentry⟩ := List.getElem?_eq_some_iff.mp hget
        rw [drop_eq_getElem_cons hidx, hentry, cons_append]
        exact ⟨rfl, rfl, _, .frame (.collision hcell (idx + 1)) hlower hlink⟩
      | none =>
        simp only [hget]
        rw [drop_eq_nil_of_le (List.getElem?_eq_none_iff.mp hget), nil_append]
        exact hpop
    | @internal levels rc node bitmap branches hcell hbelow idx =>
      refine Runs.load_bind hcell ?_
      cases hget : branches[idx]? with
      | some branch =>
        simp only [List.getElem?_map, hget, Option.map_some]
        obtain ⟨hidx, hbranch⟩ := List.getElem?_eq_some_iff.mp hget
        have hmem : branch ∈ branches := mem_of_getElem? hget
        have hroom : ((⟨node, idx⟩ : Frame) :: stack).length < Iterator.capacity := by
          simp only [length_cons, Iterator.capacity]
          omega
        have hwalk : Walk ctx heap root (levels + 1) (⟨node, idx + 1⟩ :: stack)
            ((branches.drop (idx + 1)).flatMap Branch.entries ++ lower) :=
          .frame (.internal hcell hbelow (idx + 1)) hlower hlink
        refine Runs.require_bind hroom ?_
        rw [drop_eq_getElem_cons hidx, hbranch, flatMap_cons, append_assoc]
        exact descend (hbelow branch hmem) hwalk ⟨_, hcell, mem_map_of_mem hmem⟩ (by omega)
      | none =>
        simp only [List.getElem?_map, hget, Option.map_none]
        rw [drop_eq_nil_of_le (List.getElem?_eq_none_iff.mp hget), flatMap_nil, nil_append]
        exact hpop

/-- A call of `next` yields the next entry, without a fault and within its stack. -/
theorem next_runs (h : Walk ctx heap root levels stack left) :
    Runs (Iterator.next stack) heap (fun result next => next = heap ∧
      Yielded ctx heap root left result)
      fun _ => False := by
  have hlength := h.length_eq
  refine h.steps ?_
  simp only [Iterator.capacity]
  omega

theorem Left.follows (h : Left ctx heap levels node idx left) (hfollows : heap.Follows next)
    (howned : Owned Kind.pointers next owners) (hreach : Reach Kind.pointers next owners node) :
    Left ctx next levels node idx left := by
  cases h with
  | fresh h => exact .fresh (h.follows hfollows howned hreach)
  | collision hcell =>
    obtain ⟨rc, hcell'⟩ := hreach.kind howned hfollows hcell
    exact .collision hcell' idx
  | internal hcell hbelow =>
    obtain ⟨rc, hcell'⟩ := hreach.kind howned hfollows hcell
    exact .internal hcell' (fun b hb => (hbelow b hb).follows hfollows howned
      (.child hreach hcell' (mem_map_of_mem hb))) idx

/-- An iterator goes on where it was as long as its root is owned. -/
theorem Walk.follows (h : Walk ctx heap root levels stack left) (hfollows : heap.Follows next)
    (howned : Owned Kind.pointers next owners) (hroot : root ∈ owners) :
    Walk ctx next root levels stack left ∧
    ∀ frame ∈ stack, Reach Kind.pointers next owners frame.node := by
  induction h with
  | done => exact ⟨.done, fun _ hin => absurd hin not_mem_nil⟩
  | @frame levels frame stack left lower hleft hlower hlink ih =>
    obtain ⟨hwalk, hreach⟩ := ih
    have hlinked : Linked next root frame stack ∧ Reach Kind.pointers next owners frame.node := by
      cases stack with
      | nil => exact ⟨hlink, hlink ▸ .owner hroot⟩
      | cons below stack =>
        obtain ⟨cell, hcell, hchild⟩ := hlink
        have hbelow := hreach below mem_cons_self
        obtain ⟨rc, hcell'⟩ := hbelow.kind howned hfollows hcell
        exact ⟨⟨_, hcell', hchild⟩, .child hbelow hcell' hchild⟩
    exact ⟨.frame (hleft.follows hfollows howned hlinked.2) hwalk hlinked.1,
      forall_mem_cons.mpr ⟨hlinked.2, hreach⟩⟩

theorem walk_start (h : Holds ctx heap maxDepth root entries) :
    Walk ctx heap root maxDepth [⟨root, 0⟩] entries := by
  rw [← append_nil entries]
  exact .frame (.fresh h) .done rfl

end OnyxServer.PersistentMap
