import OnyxServer.PersistentMap.Model

/-!
# What a node holds

Every key below an internal node lies in the child of its slot, so the entries of the other
children cannot have a key that is searched for.
-/
namespace OnyxServer.PersistentMap

open Lib Lib.Bitmap List

variable {K V : Type} {ctx : Context K} {heap next : Heap (Kind K V)} {owners more : Multiset Addr}
    {node : Addr}
  {levels slot : Nat} {bitmap : BitVec 32} {key : K}

theorem slotOf_lt (hash : BitVec 64) (depth : Nat) : slotOf hash depth < 32 := by
  rw [slotOf, BitVec.toNat_and]
  exact Nat.lt_of_le_of_lt Nat.and_le_right (by decide)

/-- No entry has the key. -/
def Absent (ctx : Context K) (key : K) (entries : List (Entry K V)) : Prop :=
  ∀ entry ∈ entries, ¬ ctx.eql entry.key key

def lookup (ctx : Context K) (key : K) (entries : List (Entry K V)) : Option V :=
  (entries.find? fun entry => ctx.eql entry.key key).map (·.value)

def without (ctx : Context K) (key : K) (entries : List (Entry K V)) : List (Entry K V) :=
  entries.eraseP fun entry => ctx.eql entry.key key

def Distinct (ctx : Context K) (entries : List (Entry K V)) : Prop :=
  entries.Pairwise fun a b => ¬ ctx.eql a.key b.key

variable {entries front middle back : List (Entry K V)}

theorem Absent.lookup_eq (h : Absent ctx key entries) : lookup ctx key entries = none := by
  rw [lookup, List.find?_eq_none.mpr fun entry hentry => h entry hentry, Option.map_none]

theorem Absent.without_eq (h : Absent ctx key entries) : without ctx key entries = entries :=
  eraseP_of_forall_not h

theorem lookup_middle (hfront : Absent ctx key front) (hback : Absent ctx key back) :
    lookup ctx key (front ++ (middle ++ back)) = lookup ctx key middle := by
  have hf : front.find? (fun entry => ctx.eql entry.key key) = none := List.find?_eq_none.mpr hfront
  have hb : back.find? (fun entry => ctx.eql entry.key key) = none := List.find?_eq_none.mpr hback
  rw [lookup, List.find?_append, List.find?_append, hf, hb, Option.or_none, Option.none_or, lookup]

theorem without_middle (middle : List (Entry K V)) (hfront : Absent ctx key front)
    (hback : Absent ctx key back) :
    without ctx key (front ++ (middle ++ back)) = front ++ (without ctx key middle ++ back) := by
  rw [without, eraseP_append_right _ hfront, eraseP_append]
  split
  · rfl
  · next hmiddle =>
    have hnone : Absent ctx key middle :=
      fun entry hentry hkey => hmiddle (any_eq_true.mpr ⟨entry, hentry, hkey⟩)
    rw [eraseP_of_forall_not hback, hnone.without_eq]

def present (ctx : Context K) (key : K) (entries : List (Entry K V)) : Bool :=
  entries.any fun entry => ctx.eql entry.key key

theorem Absent.present_eq (h : Absent ctx key entries) : present ctx key entries = false :=
  any_eq_false.mpr fun entry hentry => h entry hentry

theorem absent_of_present (h : present ctx key entries = false) : Absent ctx key entries :=
  fun entry hentry => any_eq_false.mp h entry hentry

theorem present_middle (middle : List (Entry K V)) (hfront : Absent ctx key front)
    (hback : Absent ctx key back) :
    present ctx key (front ++ (middle ++ back)) = present ctx key middle := by
  have hf : front.any (fun entry => ctx.eql entry.key key) = false := hfront.present_eq
  have hb : back.any (fun entry => ctx.eql entry.key key) = false := hback.present_eq
  rw [present, any_append, any_append, hf, hb, Bool.or_false, Bool.false_or, present]

theorem length_without (ctx : Context K) (key : K) (entries : List (Entry K V)) :
    (without ctx key entries).length = entries.length - if present ctx key entries then 1
      else 0 := by
  rw [without, length_eraseP, present]
  split <;> rfl

theorem Distinct.perm {other : List (Entry K V)} (h : Distinct ctx entries)
    (hperm : entries.Perm other) :
    Distinct ctx other :=
  List.Pairwise.perm h hperm fun hne hkey => hne (ctx.eql_symm hkey)

theorem findEntry_some {idx : Nat} (h : findEntry ctx entries key = some idx) :
    ∃ front entry back, entries = front ++ entry :: back ∧ front.length = idx ∧
    ctx.eql entry.key key ∧
      Absent ctx key front := by
  induction entries generalizing idx with
  | nil => cases h
  | cons entry entries ih =>
    rw [findEntry, List.findIdx?_cons] at h
    split at h
    · next hkey =>
      cases h
      exact ⟨[], entry, entries, rfl, rfl, hkey, fun _ hin => absurd hin not_mem_nil⟩
    · next hkey =>
      obtain ⟨later, hlater, rfl⟩ := Option.map_eq_some_iff.mp h
      obtain ⟨front, found, back, rfl, rfl, hfound, hfront⟩ := ih hlater
      exact ⟨entry :: front, found, back, rfl, rfl, hfound, forall_mem_cons.mpr ⟨hkey, hfront⟩⟩

theorem findEntry_none (h : findEntry ctx entries key = none) : Absent ctx key entries :=
  fun entry hentry => Bool.eq_false_iff.mp (List.findIdx?_eq_none_iff.mp h entry hentry)

variable {entry : Entry K V}

theorem Distinct.absent_back (h : Distinct ctx (front ++ entry :: back))
    (hkey : ctx.eql entry.key key) : Absent ctx key back := by
  intro other hother hsame
  obtain ⟨-, hrest, -⟩ := pairwise_append.mp h
  exact (pairwise_cons.mp hrest).1 other hother (ctx.eql_trans hkey (ctx.eql_symm hsame))

theorem without_found (back : List (Entry K V)) (hfront : Absent ctx key front)
    (hkey : ctx.eql entry.key key) :
    without ctx key (front ++ entry :: back) = front ++ back := by
  rw [without, eraseP_append_right _ hfront, eraseP_cons, hkey]
  rfl

theorem present_found (hkey : ctx.eql entry.key key) :
    present ctx key (front ++ entry :: back) = true :=
  any_eq_true.mpr ⟨entry, mem_append_right _ mem_cons_self, hkey⟩

theorem Distinct.absent_without (h : Distinct ctx entries) (key : K) :
    Absent ctx key (without ctx key entries) := by
  cases hpresent : present ctx key entries with
  | false =>
    have habsent := absent_of_present hpresent
    rw [habsent.without_eq]
    exact habsent
  | true =>
    cases hfind : findEntry ctx entries key with
    | none =>
      exact absurd (findEntry_none hfind).present_eq (by rw [hpresent]; exact Bool.noConfusion)
    | some idx =>
      obtain ⟨front, entry, back, rfl, -, hkey, hfront⟩ := findEntry_some hfind
      rw [without_found back hfront hkey]
      exact fun other hother =>
        (mem_append.mp hother).elim (hfront other) (h.absent_back hkey other)

/-- What is put beside the entries of the other keys is told apart from them. -/
theorem Distinct.put (h : Distinct ctx entries) :
    Distinct ctx (entry :: without ctx entry.key entries) :=
  pairwise_cons.mpr
    ⟨fun other hother hkey => h.absent_without entry.key other hother (ctx.eql_symm hkey),
    h.sublist eraseP_sublist⟩

/-- A child of an internal node, with the slot it is in and the entries below it. -/
structure Branch (K V : Type) where
  slot : Nat
  child : Addr
  entries : List (Entry K V)

/-- Every entry below lies in the branch of its slot. -/
def Routed (ctx : Context K) (depth : Nat) (branches : List (Branch K V)) : Prop :=
  ∀ branch ∈ branches, ∀ entry ∈ branch.entries, slotOf (ctx.hash entry.key) depth = branch.slot

/-- The node has the shape that the map keeps, with these entries below it in order. `levels` is
how many more levels the hash has bits for. -/
inductive Holds (ctx : Context K) (heap : Heap (Kind K V)) :
    Nat → Addr → List (Entry K V) → Prop where
  | leaf {levels rc : Nat} {node : Addr} {entry : Entry K V} (hcell : heap.read node =
      some ⟨rc, .leaf entry⟩) :
      Holds ctx heap levels node [entry]
  | collision {rc : Nat} {node : Addr} {entries : List (Entry K V)}
      (hcell : heap.read node = some ⟨rc, .collision entries⟩) (hlength : 2 ≤ entries.length)
      (hdistinct : Distinct ctx entries) : Holds ctx heap 0 node entries
  | internal {levels rc : Nat} {node : Addr} {bitmap : BitVec 32} {branches : List (Branch K V)}
      (hcell : heap.read node = some ⟨rc, .internal bitmap (branches.map Branch.child)⟩)
      (hslots : branches.map Branch.slot = slots bitmap) (hne : branches ≠ [])
      (hbelow : ∀ branch ∈ branches, Holds ctx heap levels branch.child branch.entries)
      (hrouted : Routed ctx (maxDepth - (levels + 1)) branches) :
      Holds ctx heap (levels + 1) node (branches.flatMap Branch.entries)

namespace Holds

theorem height (h : Holds ctx heap levels node entries) :
    Height Kind.pointers heap (levels + 1) node := by
  induction h with
  | leaf hcell => exact ⟨_, hcell, fun _ hb => absurd hb not_mem_nil⟩
  | collision hcell => exact ⟨_, hcell, fun _ hb => absurd hb not_mem_nil⟩
  | internal hcell _ _ _ _ ih =>
    refine ⟨_, hcell, fun child hchild => ?_⟩
    obtain ⟨branch, hbranch, rfl⟩ := mem_map.mp hchild
    exact ih branch hbranch

/-- A node that is reached later holds what it held. -/
theorem follows (h : Holds ctx heap levels node entries) (hfollows : heap.Follows next)
    (howned : Owned Kind.pointers next owners) (hreach : Reach Kind.pointers next owners node) :
    Holds ctx next levels node entries := by
  induction h with
  | leaf hcell =>
    obtain ⟨rc, hcell'⟩ := hreach.kind howned hfollows hcell
    exact .leaf hcell'
  | collision hcell hlength hdistinct =>
    obtain ⟨rc, hcell'⟩ := hreach.kind howned hfollows hcell
    exact .collision hcell' hlength hdistinct
  | internal hcell hslots hne _ hrouted ih =>
    obtain ⟨rc, hcell'⟩ := hreach.kind howned hfollows hcell
    exact .internal hcell' hslots hne
      (fun branch hbranch => ih branch hbranch (.child hreach hcell' (mem_map_of_mem hbranch)))
        hrouted

end Holds

/-- The branches of an internal node around one slot. -/
structure Parts (bitmap : BitVec 32) (slot : Nat) (front back : List (Branch K V)) : Prop where
  below_eq : front.map Branch.slot = below bitmap slot
  above_eq : back.map Branch.slot = above bitmap slot

theorem Parts.physIndex_eq {front back : List (Branch K V)} (h : Parts bitmap slot front back)
    (hslot : slot < 32) :
    physIndex bitmap slot = front.length := by
  rw [Bitmap.physIndex_eq hslot, ← h.below_eq, length_map]

variable {branch : Branch K V}

theorem Parts.ne_of_mem {front back : List (Branch K V)} (h : Parts bitmap slot front back)
    (hbranch : branch ∈ front ∨ branch ∈ back) : branch.slot ≠ slot := by
  rcases hbranch with hin | hin
  · exact Nat.ne_of_lt (lt_of_mem_below (h.below_eq ▸ mem_map_of_mem hin))
  · exact Nat.ne_of_gt (lt_of_mem_above (h.above_eq ▸ mem_map_of_mem hin))

variable {branches : List (Branch K V)}

theorem parts_of_occupied (hslots : branches.map Branch.slot = slots bitmap) (hslot : slot < 32)
    (hoccupied : slotOccupied bitmap slot = true) :
    ∃ front branch back, branches = front ++ branch :: back ∧ branch.slot = slot ∧
    Parts bitmap slot front back := by
  rw [slotOccupied_iff hslot] at hoccupied
  rw [slots_of_occupied hslot hoccupied] at hslots
  obtain ⟨front, rest, rfl, hfront, hrest⟩ := map_eq_append_iff.mp hslots
  obtain ⟨branch, back, rfl, hbranch, hback⟩ := map_eq_cons_iff.mp hrest
  exact ⟨front, branch, back, rfl, hbranch, hfront, hback⟩

theorem parts_of_free (hslots : branches.map Branch.slot = slots bitmap) (hslot : slot < 32)
    (hfree : slotOccupied bitmap slot = false) :
    ∃ front back, branches = front ++ back ∧ Parts bitmap slot front back := by
  rw [slotOccupied_iff hslot] at hfree
  rw [slots_of_free hslot hfree] at hslots
  obtain ⟨front, back, rfl, hfront, hback⟩ := map_eq_append_iff.mp hslots
  exact ⟨front, back, rfl, hfront, hback⟩

/-- The other branches do not have the key. -/
theorem Routed.absent {depth : Nat} (h : Routed ctx depth branches)
    (hne : ∀ branch ∈ branches, branch.slot ≠ slotOf (ctx.hash key) depth) :
    Absent ctx key (branches.flatMap Branch.entries) := by
  intro entry hentry hkey
  obtain ⟨branch, hbranch, hin⟩ := mem_flatMap.mp hentry
  apply hne branch hbranch
  rw [← h branch hbranch entry hin, ctx.hash_eq hkey]

theorem Routed.distinct {depth : Nat} (h : Routed ctx depth branches)
    (hnodup : (branches.map Branch.slot).Nodup)
    (heach : ∀ branch ∈ branches, Distinct ctx branch.entries) :
    Distinct ctx (branches.flatMap Branch.entries) := by
  refine pairwise_flatMap.mpr ⟨heach, ?_⟩
  have hne := pairwise_map.mp hnodup
  refine hne.imp_of_mem fun {left right} hleft hright hslots a ha b hb hkey => hslots ?_
  rw [← h left hleft a ha, ← h right hright b hb, ctx.hash_eq hkey]

theorem Holds.distinct (h : Holds ctx heap levels node entries) : Distinct ctx entries := by
  induction h with
  | leaf => exact pairwise_singleton _ _
  | collision _ _ hdistinct => exact hdistinct
  | internal _ hslots _ _ hrouted ih =>
    have hnodup := hslots ▸ slots_nodup _
    exact hrouted.distinct hnodup ih

/-- The branch of a key has all that the node has for the key. -/
theorem Routed.around {depth : Nat} {front back : List (Branch K V)}
    (h : Routed ctx depth (front ++ branch :: back))
    (hparts : Parts bitmap (slotOf (ctx.hash key) depth) front back) :
    Absent ctx key (front.flatMap Branch.entries) ∧ Absent ctx key (back.flatMap Branch.entries) :=
  ⟨Routed.absent (fun b hb => h b (mem_append_left _ hb)) fun _ hb => hparts.ne_of_mem (.inl hb),
    Routed.absent (fun b hb => h b (mem_append_right _ (mem_cons_of_mem _ hb)))
      fun _ hb => hparts.ne_of_mem (.inr hb)⟩

theorem childAt_eq {front back : List (Branch K V)} (hparts : Parts bitmap slot front back)
    (hslot : slot < 32) :
    (childAt ((front ++ branch :: back).map Branch.child) (physIndex bitmap slot) : Mem
      (Kind K V) Addr) =
      pure branch.child := by
  rw [childAt, hparts.physIndex_eq hslot, map_append, map_cons,
    List.getElem?_append_right (by simp)]
  simp

/-- There is an internal node where the hash has bits left only. -/
theorem checkedSlotOf_bind {β : Type} {hash : BitVec 64} {f : Nat → Mem (Kind K V) β}
    {good : β → Heap (Kind K V) → Prop}
    {bad : Heap (Kind K V) → Prop}
    (h : Runs (f (slotOf hash (maxDepth - (levels + 1)))) heap good bad) :
    Runs (checkedSlotOf hash (maxDepth - (levels + 1)) >>= f) heap good bad := by
  have hshift : (maxDepth - (levels + 1)) * branchBits < 2 ^ 6 := by
    simp only [maxDepth, branchBits]
    omega
  have hslot : Runs (checkedSlotOf hash (maxDepth - (levels + 1)) : Mem (Kind K V) Nat) heap
      (fun slot next => slot = slotOf hash (maxDepth - (levels + 1)) ∧ next = heap) bad :=
    Runs.require_bind hshift ⟨rfl, rfl⟩
  refine Runs.bind hslot fun slot next hfound => ?_
  rw [hfound.1, hfound.2]
  exact h

theorem getNode_runs (h : Holds ctx heap levels node entries) (key : K) :
    Runs (getNode ctx key levels node) heap (fun value next => next = heap ∧
      value = lookup ctx key entries)
      fun _ => False := by
  induction h with
  | @leaf levels rc node entry hcell =>
    have hone : lookup ctx key [entry] = if ctx.eql entry.key key then some entry.value
        else none := by
      rw [lookup, List.find?_singleton]
      split <;> rfl
    cases levels <;> exact Runs.load_bind hcell ⟨rfl, hone.symm⟩
  | collision hcell => exact Runs.load_bind hcell ⟨rfl, rfl⟩
  | @internal levels rc node bitmap branches hcell hslots _ _ hrouted ih =>
    refine Runs.load_bind hcell (checkedSlotOf_bind ?_)
    have hslot := slotOf_lt (ctx.hash key) (maxDepth - (levels + 1))
    cases hoccupied : slotOccupied bitmap (slotOf (ctx.hash key) (maxDepth - (levels + 1))) with
    | false =>
      obtain ⟨front, back, rfl, hparts⟩ := parts_of_free hslots hslot hoccupied
      have habsent : Absent ctx key ((front ++ back).flatMap Branch.entries) :=
        hrouted.absent fun _ hb => hparts.ne_of_mem (mem_append.mp hb)
      exact ⟨rfl, habsent.lookup_eq.symm⟩
    | true =>
      obtain ⟨front, branch, back, rfl, -, hparts⟩ := parts_of_occupied hslots hslot hoccupied
      obtain ⟨hfront, hback⟩ := hrouted.around hparts
      have hlookup : lookup ctx key ((front ++ branch :: back).flatMap Branch.entries) =
          lookup ctx key branch.entries := by
        rw [flatMap_append, flatMap_cons, lookup_middle hfront hback]
      rw [hlookup, if_pos rfl, childAt_eq hparts hslot]
      exact ih branch (by simp)

end OnyxServer.PersistentMap
