import OnyxServer.PersistentMap.Nodes

/-!
# Putting

A key that is put comes to lie beside the entries of the other keys. Two keys that differ are
told apart where their hashes do, or lie in one collision node below all bits.
-/
namespace OnyxServer.PersistentMap

open Lib Lib.Bitmap List

variable {K V : Type} {ctx : Context K} {heap next last : Heap (Kind K V)} {owners : Multiset Addr}
    {node : Addr}
  {levels : Nat} {bitmap : BitVec 32} {key : K} {value : V} {entries : List (Entry K V)}

/-- The branches of two keys that part, in the order of their slots. -/
theorem exists_pair (x y : Branch K V) (hx : x.slot < 32) (hy : y.slot < 32)
    (hne : x.slot ≠ y.slot) :
    ∃ branches : List (Branch K V), branches.Perm [x, y] ∧
      (if x.slot < y.slot then [x.child, y.child] else [y.child, x.child]) =
        branches.map Branch.child ∧
      branches.map Branch.slot = slots (bit 32 x.slot ||| bit 32 y.slot) := by
  rw [slots_pair hx hy hne]
  by_cases hlt : x.slot < y.slot
  · rw [if_pos hlt, if_pos hlt]
    exact ⟨[x, y], .refl _, rfl, rfl⟩
  · rw [if_neg hlt, if_neg hlt]
    exact ⟨[y, x], .swap x y [], rfl, rfl⟩

theorem mergeTwo_apart {a b : Entry K V}
    (hapart : slotOf (ctx.hash a.key) (maxDepth - (levels + 1)) ≠
      slotOf (ctx.hash b.key) (maxDepth - (levels + 1))) (hlevels : levels + 1 ≤ maxDepth)
    (h : Owned Kind.pointers heap owners) :
    Runs (mergeTwo a b (ctx.hash a.key) (ctx.hash b.key) (levels + 1)) heap
      (fun node next => ∃ entries, Made ctx heap owners (levels + 1) node entries next ∧
        entries.Perm [a, b]) (Failed Kind.pointers heap owners) := by
  rw [mergeTwo, if_pos hapart]
  generalize hsa : slotOf (ctx.hash a.key) (maxDepth - (levels + 1)) = sa at *
  generalize hsb : slotOf (ctx.hash b.key) (maxDepth - (levels + 1)) = sb at *
  have hle : levels ≤ maxDepth := Nat.le_of_succ_le hlevels
  refine Runs.bind (newLeaf_runs ctx levels h a.key a.value) fun leafA first hA => ?_
  refine Runs.bind (or_release hA hle (newLeaf_runs ctx levels hA.after.owned b.key b.value))
    fun leafB second hB => ?_
  have hinA : leafA ∈ leafB ::ₘ leafA ::ₘ owners :=
    Multiset.mem_cons_of_mem (Multiset.mem_cons_self leafA owners)
  have hA' := hA.holds.kept hB.after hinA
  have hboth := hA.after.trans hB.after
  have hreserve : Runs (Mem.reserve.onError (do releaseNode leafB; releaseNode leafA)) second
      (fun _ => After Kind.pointers second (leafB ::ₘ leafA ::ₘ owners))
        (Failed Kind.pointers heap owners) := by
    refine Runs.onError (reserve_runs hB.after.owned) fun third hthird => ?_
    have hkeptB := hB.holds.kept hthird.toAfter (Multiset.mem_cons_self leafB _)
    refine Runs.bind
      ((releaseNode_runs hthird.owned hkeptB hle).imp (fun _ _ => id) fun _ => False.elim)
      fun _ fourth hfourth => ?_
    have hkeptA := (hA'.kept hthird.toAfter hinA).kept hfourth (Multiset.mem_cons_self leafA owners)
    exact (releaseNode_runs hfourth.owned hkeptA hle).imp
      (fun _ _ hend => ((hboth.failed hthird).trans hfourth).trans hend) fun _ => False.elim
  refine Runs.bind hreserve fun _ third hthird => ?_
  have hslotA : sa < 32 := hsa ▸ slotOf_lt _ _
  have hslotB : sb < 32 := hsb ▸ slotOf_lt _ _
  obtain ⟨branches, hperm, hchildren, hslots⟩ :=
    exists_pair (⟨sa, leafA, [a]⟩ : Branch K V) ⟨sb, leafB, [b]⟩ hslotA hslotB hapart
  have hchildPerm : (branches.map Branch.child).Perm ([] ++ [leafB, leafA]) :=
    (hperm.map Branch.child).trans (.swap leafB leafA [])
  have hbelow : ∀ branch ∈ branches, Holds ctx third levels branch.child branch.entries := by
    intro branch hbranch
    rcases mem_pair.mp (hperm.mem_iff.mp hbranch) with rfl | rfl
    · exact hA'.kept hthird hinA
    · exact hB.holds.kept hthird (Multiset.mem_cons_self leafB _)
  have hrouted : Routed ctx (maxDepth - (levels + 1)) branches := by
    intro branch hbranch entry hentry
    rcases mem_pair.mp (hperm.mem_iff.mp hbranch) with rfl | rfl
    · rw [mem_singleton.mp hentry, hsa]
    · rw [mem_singleton.mp hentry, hsb]
  have hne : branches ≠ [] := fun hnil => cons_ne_nil _ _ (nil_perm.mp (hnil ▸ hperm))
  have hcopy := copyInternal_runs branches ((coe_pair_add leafB leafA owners).symm ▸ hthird.owned)
    (fun _ ha => absurd ha not_mem_nil)
    (hchildren ▸ hchildPerm) hchildren hslots hne hbelow hrouted hle
  refine hcopy.imp (fun node last hlast => ⟨_, hlast.after_trans (hboth.trans hthird), ?_⟩)
    fun _ => (hboth.trans hthird).failed
  exact hperm.flatMap_right Branch.entries

theorem mergeTwo_runs {a b : Entry K V} (hne : ¬ ctx.eql a.key b.key) (hlevels : levels ≤ maxDepth)
    (h : Owned Kind.pointers heap owners) :
    Runs (mergeTwo a b (ctx.hash a.key) (ctx.hash b.key) levels) heap
      (fun node next => ∃ entries, Made ctx heap owners levels node entries next ∧
        entries.Perm [a, b]) (Failed Kind.pointers heap owners) := by
  induction levels generalizing heap with
  | zero =>
    refine reserve_bind h fun mid hmid => ?_
    have hlength : 2 ≤ [a, b].length := Nat.le_refl 2
    exact (newCollision_runs hmid.owned hlength (pairwise_pair.mpr hne)).imp
      (fun node last hlast => ⟨[a, b], hlast.after_trans hmid, .refl _⟩) fun _ => hmid.failed
  | succ levels ih =>
    by_cases hapart : slotOf (ctx.hash a.key) (maxDepth - (levels + 1)) =
        slotOf (ctx.hash b.key) (maxDepth - (levels + 1))
    · rw [mergeTwo, if_neg (not_not_intro hapart)]
      have hle : levels ≤ maxDepth := Nat.le_of_succ_le hlevels
      refine Runs.bind (ih hle h) fun sub first hsub => ?_
      obtain ⟨entries, hmade, hperm⟩ := hsub
      refine Runs.bind (reserve_or_release hmade hle) fun _ second hsecond => ?_
      generalize hslot : slotOf (ctx.hash a.key) (maxDepth - (levels + 1)) = slot at hapart
      have hlt : slot < 32 := hslot ▸ slotOf_lt _ _
      have hrouted :
          Routed ctx (maxDepth - (levels + 1)) [(⟨slot, sub, entries⟩ : Branch K V)] := by
        intro branch hbranch entry hentry
        rw [mem_singleton.mp hbranch] at hentry ⊢
        rcases mem_pair.mp (hperm.mem_iff.mp hentry) with rfl | rfl
        · exact hslot
        · exact hapart.symm
      have hcopy := copyInternal_runs [(⟨slot, sub, entries⟩ : Branch K V)]
        ((coe_singleton_add sub owners).symm ▸ hsecond.after.owned)
        (fun _ ha => absurd ha not_mem_nil) (.refl [sub]) rfl (slots_bit hlt).symm
          (cons_ne_nil _ [])
        (fun branch hbranch => mem_singleton.mp hbranch ▸ hsecond.holds) hrouted hle
      refine hcopy.imp (fun node last hlast => ⟨_, hlast.after_trans hsecond.after, ?_⟩)
        fun _ => hsecond.after.failed
      rw [flatMap_cons, flatMap_nil, append_nil]
      exact hperm
    · exact mergeTwo_apart hapart hlevels h

/-- What putting leaves of the entries below a node. -/
def Puts (ctx : Context K) (key : K) (value : V) (entries : List (Entry K V)) (added : Bool)
    (result : List (Entry K V)) : Prop :=
  result.Perm (⟨key, value⟩ :: without ctx key entries) ∧ added = !present ctx key entries

variable {added : Bool}

theorem Puts.distinct {result : List (Entry K V)} (h : Puts ctx key value entries added result)
    (hdistinct : Distinct ctx entries) : Distinct ctx result :=
  hdistinct.put.perm h.1.symm

theorem newCollision_puts {result : List (Entry K V)} (h : Puts ctx key value entries added result)
    (hdistinct : Distinct ctx entries) (hlength : 2 ≤ result.length)
    (hnext : After Kind.pointers heap owners next) :
    Runs (newCollision result >>= fun node => pure (node, added)) next
      (fun made last => ∃ result, Made ctx heap owners 0 made.1 result last ∧
        Puts ctx key value entries made.2 result) (Failed Kind.pointers heap owners) := by
  have hcreate := newCollision_runs hnext.owned hlength (h.distinct hdistinct)
  refine Runs.bind (hcreate.imp (fun _ _ hlast => hlast.after_trans hnext) fun _ => hnext.failed)
    fun node last hlast => ?_
  exact ⟨result, hlast, h⟩

theorem putIntoCollision_runs (hlength : 2 ≤ entries.length) (hdistinct : Distinct ctx entries)
    (h : Owned Kind.pointers heap owners) (key : K) (value : V) :
    Runs (putIntoCollision ctx entries key value) heap
      (fun made next => ∃ result, Made ctx heap owners 0 made.1 result next ∧
        Puts ctx key value entries made.2 result) (Failed Kind.pointers heap owners) := by
  refine Runs.bind (reserve_runs h) fun _ mid hmid => ?_
  cases hfind : findEntry ctx entries key with
  | some idx =>
    obtain ⟨front, entry, back, rfl, rfl, hkey, hfront⟩ := findEntry_some hfind
    have hset : (front ++ entry :: back).set front.length ⟨key, value⟩ =
        front ++ ⟨key, value⟩ :: back := by simp
    have hputs :
        Puts ctx key value (front ++ entry :: back) false (front ++ ⟨key, value⟩ :: back) := by
      rw [Puts, without_found back hfront hkey, present_found hkey]
      exact ⟨perm_middle, rfl⟩
    show Runs (newCollision ((front ++ entry :: back).set front.length ⟨key, value⟩) >>= fun node =>
      pure (node, false))
      mid _ _
    rw [hset]
    exact newCollision_puts hputs hdistinct (by simpa using hlength) hmid
  | none =>
    have habsent := findEntry_none hfind
    have hputs : Puts ctx key value entries true (entries ++ [⟨key, value⟩]) := by
      rw [Puts, habsent.without_eq, habsent.present_eq]
      exact ⟨perm_append_singleton _ _, rfl⟩
    exact newCollision_puts hputs hdistinct (by rw [length_append]; omega) hmid

theorem Puts.middle {front middle back result : List (Entry K V)} (hfront : Absent ctx key front)
    (hback : Absent ctx key back) (h : Puts ctx key value middle added result) :
    Puts ctx key value (front ++ (middle ++ back)) added (front ++ (result ++ back)) := by
  rw [Puts, without_middle middle hfront hback, present_middle middle hfront hback]
  refine ⟨?_, h.2⟩
  exact ((h.1.append_right back).append_left front).trans perm_middle

/-- What the code for the children leaves is what is asked of it. -/
def PutsBelow (ctx : Context K) (putChild : Addr → Mem (Kind K V) (Addr × Bool))
    (heap : Heap (Kind K V))
    (owners : Multiset Addr) (levels : Nat) (key : K) (value : V) (node : Addr)
    (entries : List (Entry K V)) : Prop :=
  Runs (putChild node) heap
    (fun made next => ∃ result, Made ctx heap owners levels made.1 result next ∧
      Puts ctx key value entries made.2 result)
    (Failed Kind.pointers heap owners)

theorem putIntoInternal_runs {branches : List (Branch K V)}
    {putChild : Addr → Mem (Kind K V) (Addr × Bool)}
    (h : Owned Kind.pointers heap owners)
    (hinner : Inner ctx heap owners levels node bitmap branches)
    (hchild : ∀ branch ∈
      branches, PutsBelow ctx putChild heap owners levels key value branch.child branch.entries) :
    Runs
      (putIntoInternal node bitmap (branches.map Branch.child)
        (slotOf (ctx.hash key) (maxDepth - (levels + 1))) key value putChild) heap
      (fun made next => ∃ result, Made ctx heap owners (levels + 1) made.1 result next ∧
        Puts ctx key value (branches.flatMap Branch.entries) made.2 result)
      (Failed Kind.pointers heap owners) := by
  have hslots := hinner.slotted
  have hrouted := hinner.routed
  refine Runs.require_bind (children_length hslots) ?_
  generalize hslot : slotOf (ctx.hash key) (maxDepth - (levels + 1)) = slot
  have hlt : slot < 32 := hslot ▸ slotOf_lt _ _
  cases hoccupied : slotOccupied bitmap slot with
  | true =>
    obtain ⟨front, branch, back, rfl, hbranch, hparts⟩ := parts_of_occupied hslots hlt hoccupied
    rw [if_pos rfl, childAt_eq hparts hlt, hparts.physIndex_eq hlt]
    have hmem : branch ∈ front ++ branch :: back := mem_append_right _ mem_cons_self
    refine Runs.pure_bind (Runs.bind (hchild branch hmem) fun made mid hmade => ?_)
    obtain ⟨newChild, added⟩ := made
    obtain ⟨result, hmade, hputs⟩ := hmade
    obtain ⟨hfront, hback⟩ := hrouted.around (hslot.symm ▸ hparts)
    have hresult : ∀ entry ∈ result, slotOf (ctx.hash entry.key) (maxDepth - (levels + 1)) =
        branch.slot := by
      intro entry hentry
      rcases mem_cons.mp (hputs.1.mem_iff.mp hentry) with rfl | hold
      · rw [hslot, hbranch]
      · exact hrouted branch hmem entry (eraseP_subset hold)
    refine replaceChild_runs hinner hmade hresult fun copy last hcopy => ?_
    rw [flatMap_append, flatMap_cons] at hcopy ⊢
    exact ⟨_, hcopy, hputs.middle hfront hback⟩
  | false =>
    obtain ⟨front, back, rfl, hparts⟩ := parts_of_free hslots hlt hoccupied
    rw [if_neg Bool.false_ne_true, hparts.physIndex_eq hlt]
    refine Runs.bind (newLeaf_runs ctx levels h key value) fun leaf mid hmid => ?_
    have hkey : ∀ entry ∈ [(⟨key, value⟩ : Entry K V)],
        slotOf (ctx.hash entry.key) (maxDepth - (levels + 1)) = slot := fun entry hentry => by
      rw [mem_singleton.mp hentry, hslot]
    have habsent : ∀ {branches : List (Branch K V)}, (∀ b ∈ branches, b ∈ front ∨ b ∈ back) →
        Absent ctx key (branches.flatMap Branch.entries) := fun hsub =>
      Routed.absent (fun b hb => hrouted b (mem_append.mpr (hsub b hb)))
        fun b hb => hslot.symm ▸ hparts.ne_of_mem (hsub b hb)
    refine addChild_runs hinner hparts hlt hmid hkey fun copy last hcopy => ?_
    have hnone : Puts ctx key value ([] : List (Entry K V)) true [⟨key, value⟩] := ⟨.refl _, rfl⟩
    have hputs := hnone.middle (habsent fun _ => .inl) (habsent fun _ => .inr)
    rw [nil_append] at hputs
    rw [flatMap_append, flatMap_cons] at hcopy
    rw [flatMap_append]
    exact ⟨_, hcopy, hputs⟩

theorem putNode_eq (ctx : Context K) (key : K) (value : V) (levels : Nat) :
    ∃ putChild, putNode ctx key value levels = putAt ctx key value levels putChild := by
  cases levels with
  | zero => exact ⟨_, rfl⟩
  | succ levels => exact ⟨_, rfl⟩

theorem putLeaf_runs {rc : Nat} {entry : Entry K V}
    (hcell : heap.read node = some ⟨rc, .leaf entry⟩)
    (h : Owned Kind.pointers heap owners) (hle : levels ≤ maxDepth) (key : K) (value : V) :
    PutsBelow ctx (putNode ctx key value levels) heap owners levels key value node [entry] := by
  obtain ⟨putChild, heq⟩ := putNode_eq ctx key value levels
  rw [PutsBelow, heq]
  refine Runs.load_bind hcell ?_
  show Runs (if ctx.eql entry.key key then newLeaf key value >>= fun leaf => pure (leaf, false)
    else mergeTwo entry ⟨key, value⟩ (ctx.hash entry.key) (ctx.hash key) levels >>= fun merged =>
    pure (merged, true)) heap
    _ _
  by_cases hkey : ctx.eql entry.key key
  · rw [if_pos hkey]
    have hputs : Puts ctx key value [entry] false [⟨key, value⟩] := by
      have hfound : present ctx key [entry] = true := by simpa [present] using hkey
      have hgone : without ctx key [entry] = [] := by simp [without, hkey]
      rw [Puts, hfound, hgone]
      exact ⟨.refl _, rfl⟩
    exact Runs.bind (newLeaf_runs ctx levels h key value) fun leaf next hnext => ⟨_, hnext, hputs⟩
  · rw [if_neg hkey]
    have habsent : Absent ctx key [entry] := forall_mem_singleton.mpr hkey
    refine Runs.bind (mergeTwo_runs hkey hle h) fun merged next hnext => ?_
    obtain ⟨result, hmade, hperm⟩ := hnext
    refine ⟨result, hmade, ?_⟩
    rw [Puts, habsent.without_eq, habsent.present_eq]
    exact ⟨hperm.trans (.swap _ _ []), rfl⟩

theorem putNode_runs (h : Holds ctx heap levels node entries)
    (howned : Owned Kind.pointers heap owners)
    (hreach : Reach Kind.pointers heap owners node) (hle : levels ≤ maxDepth) (key : K)
    (value : V) :
    PutsBelow ctx (putNode ctx key value levels) heap owners levels key value node entries := by
  induction h with
  | leaf hcell => exact putLeaf_runs hcell howned hle key value
  | collision hcell hlength hdistinct =>
    exact Runs.load_bind hcell (putIntoCollision_runs hlength hdistinct howned key value)
  | @internal levels rc node bitmap branches hcell hslots _ hbelow hrouted ih =>
    have hle' : levels ≤ maxDepth := Nat.le_of_succ_le hle
    refine Runs.load_bind hcell (checkedSlotOf_bind ?_)
    exact putIntoInternal_runs howned ⟨⟨rc, hcell⟩, hslots, hbelow, hrouted, hle',
      hreach⟩ fun branch hbranch =>
      ih branch hbranch (.child hreach hcell (mem_map_of_mem hbranch)) hle'

end OnyxServer.PersistentMap
