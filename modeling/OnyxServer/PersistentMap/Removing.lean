import OnyxServer.PersistentMap.Nodes

/-!
# Removing

A node whose last key goes is not copied; a collision node of two keys leaves a leaf.
-/
namespace OnyxServer.PersistentMap

open Lib Lib.Bitmap List

variable {K V : Type} {ctx : Context K} {heap next last : Heap (Kind K V)} {owners : Multiset Addr}
    {node : Addr}
  {levels : Nat} {bitmap : BitVec 32} {key : K} {entries : List (Entry K V)}

/-- What removing leaves of a node: nothing new where the key was not there. -/
def Removes (ctx : Context K) (heap : Heap (Kind K V)) (owners : Multiset Addr)
    (levels : Nat) (key : K)
    (entries : List (Entry K V)) (result : Option Addr × Bool) (next : Heap (Kind K V)) : Prop :=
  result.2 = present ctx key entries ∧
    match result with
    | (_, false) => After Kind.pointers heap owners next
    | (none, true) => without ctx key entries = [] ∧ After Kind.pointers heap owners next
    | (some node, true) => Made ctx heap owners levels node (without ctx key entries) next

theorem removeFromCollision_runs (hlength : 2 ≤ entries.length) (hdistinct : Distinct ctx entries)
    (h : Owned Kind.pointers heap owners) (key : K) :
    Runs (removeFromCollision ctx entries key) heap (Removes ctx heap owners 0 key entries)
      (Failed Kind.pointers heap owners) := by
  rw [removeFromCollision]
  cases hfind : findEntry ctx entries key with
  | none => exact ⟨(findEntry_none hfind).present_eq.symm, h.after⟩
  | some idx =>
    obtain ⟨front, entry, back, rfl, rfl, hkey, hfront⟩ := findEntry_some hfind
    have hpresent : present ctx key (front ++ entry :: back) = true := present_found hkey
    have hwithout := without_found back hfront hkey
    have hrest : Distinct ctx (front ++ back) := hwithout ▸ hdistinct.sublist eraseP_sublist
    by_cases htwo : (front ++ entry :: back).length = 2
    · -- the one that is kept is the other one of two
      obtain ⟨keep, hkeep, hleft⟩ : ∃ keep, (front ++ entry :: back)[1 - front.length]? =
        some keep ∧
          front ++ back = [keep] := by
        rw [length_append, length_cons] at htwo
        cases front with
        | nil =>
          obtain ⟨keep, rfl⟩ := length_eq_one_iff.mp (show back.length = 1 by simpa using htwo)
          exact ⟨keep, rfl, rfl⟩
        | cons keep front =>
          have hnil : front.length + back.length = 0 := by
            rw [length_cons] at htwo
            omega
          obtain ⟨rfl, rfl⟩ : front = [] ∧ back = [] :=
            ⟨length_eq_zero_iff.mp (by omega), length_eq_zero_iff.mp (by omega)⟩
          exact ⟨keep, rfl, rfl⟩
      simp only [htwo, if_true, hkeep]
      refine Runs.bind (newLeaf_runs ctx 0 h keep.key keep.value) fun leaf last hlast =>
        ⟨hpresent.symm, ?_⟩
      show Made ctx heap owners 0 leaf (without ctx key (front ++ entry :: back)) last
      rw [hwithout, hleft]
      exact hlast
    · have herase : (front ++ entry :: back).eraseIdx front.length = front ++ back := by
        rw [eraseIdx_append_of_length_le (Nat.le_refl _), Nat.sub_self]
        rfl
      have hlong : 2 ≤ (front ++ back).length := by
        simp only [length_append, length_cons] at hlength htwo ⊢
        omega
      simp only [htwo, if_false, herase]
      refine Runs.bind (reserve_runs h) fun _ mid hmid => ?_
      refine Runs.bind
        ((newCollision_runs hmid.owned hlong hrest).imp (fun _ _ hlast => hlast.after_trans hmid)
        fun _ => hmid.failed) fun made last hlast => ⟨hpresent.symm, ?_⟩
      show Made ctx heap owners 0 made (without ctx key (front ++ entry :: back)) last
      rw [hwithout]
      exact hlast

theorem dropChild_runs {β : Type} {slot : Nat} {front back : List (Branch K V)}
    {branch : Branch K V} {k : Addr → Mem (Kind K V) β} {good : β → Heap (Kind K V) → Prop}
    (h : Inner ctx heap owners levels node bitmap (front ++ branch :: back))
    (hparts : Parts bitmap slot front back)
    (hslot : slot < 32) (hnext : After Kind.pointers heap owners next)
    (hne : front ++ back ≠ [])
    (hk : ∀ copy last,
      Made ctx heap owners (levels + 1) copy ((front ++ back).flatMap Branch.entries) last →
      Runs (k copy) last good (Failed Kind.pointers heap owners)) :
    Runs (Mem.reserve >>= fun _ => Mem.load node >>= fun _ =>
        copyInternal (bitmap &&& ~~~ bit 32 slot)
        (((front ++ branch :: back).map Branch.child).eraseIdx front.length)
          (((front ++ branch :: back).map Branch.child).eraseIdx front.length) >>= k) next good
      (Failed Kind.pointers heap owners) := by
  have hold : ∀ b ∈ front ++ back, b ∈ front ++ branch :: back := fun b hb =>
    perm_middle.mem_iff.mpr (mem_cons_of_mem branch hb)
  have hslots : (front ++ back).map Branch.slot = slots (bitmap &&& ~~~ bit 32 slot) := by
    rw [slots_erase hslot, map_append, hparts.below_eq, hparts.above_eq]
  rw [erase_child]
  refine Runs.bind
    ((reserve_runs hnext.owned).imp (fun _ _ hmid => hnext.trans hmid) fun _ => hnext.failed)
    fun _ mid hmid => ?_
  obtain ⟨hreach, hkept⟩ := h.kept hmid (le_refl owners)
  refine hmid.owned.load_bind hreach fun _ => ?_
  have hnone : Multiset.ofList [] + owners = owners := by rw [Multiset.coe_nil, Multiset.zero_add]
  have hshared : ∀ a ∈ (front ++ back).map Branch.child,
      Reach Kind.pointers mid (Multiset.ofList [] + owners) a :=
    fun a ha => by
      obtain ⟨b, hb, rfl⟩ := mem_map.mp ha
      exact hnone.symm ▸ (hkept b (hold b hb)).1
  have hcopy := copyInternal_runs (front ++ back) (hnone.symm ▸ hmid.owned) hshared
    (by rw [append_nil]) rfl hslots hne
    (fun b hb => (hkept b (hold b hb)).2) (fun b hb => h.routed b (hold b hb)) h.le
  exact Runs.bind (hcopy.imp (fun _ _ hlast => hlast.after_trans hmid) fun _ => hmid.failed) hk

theorem removeFromInternal_runs {branches : List (Branch K V)}
    {removeChild : Addr → Mem (Kind K V) (Option Addr × Bool)} (h : Owned Kind.pointers heap owners)
    (hinner : Inner ctx heap owners levels node bitmap branches)
    (hchild : ∀ branch ∈ branches, Runs (removeChild branch.child) heap
      (Removes ctx heap owners levels key branch.entries) (Failed Kind.pointers heap owners)) :
    Runs (removeFromInternal node bitmap (branches.map Branch.child)
        (slotOf (ctx.hash key) (maxDepth - (levels + 1))) removeChild) heap
      (Removes ctx heap owners (levels + 1) key (branches.flatMap Branch.entries))
      (Failed Kind.pointers heap owners) := by
  have hslots := hinner.slotted
  have hrouted := hinner.routed
  refine Runs.require_bind (children_length hslots) ?_
  generalize hslot : slotOf (ctx.hash key) (maxDepth - (levels + 1)) = slot
  have hlt : slot < 32 := hslot ▸ slotOf_lt _ _
  cases hoccupied : slotOccupied bitmap slot with
  | false =>
    obtain ⟨front, back, rfl, hparts⟩ := parts_of_free hslots hlt hoccupied
    have habsent : Absent ctx key ((front ++ back).flatMap Branch.entries) :=
      hrouted.absent fun b hb => hslot.symm ▸ hparts.ne_of_mem (mem_append.mp hb)
    exact ⟨habsent.present_eq.symm, h.after⟩
  | true =>
    obtain ⟨front, branch, back, rfl, hbranch, hparts⟩ := parts_of_occupied hslots hlt hoccupied
    rw [if_pos rfl, childAt_eq hparts hlt, hparts.physIndex_eq hlt]
    have hmem : branch ∈ front ++ branch :: back := mem_append_right _ mem_cons_self
    refine Runs.pure_bind (Runs.bind (hchild branch hmem) fun made mid hmade => ?_)
    obtain ⟨hfront, hback⟩ := hrouted.around (hslot.symm ▸ hparts)
    have hpresent := present_middle branch.entries hfront hback
    have hwithout := without_middle branch.entries hfront hback
    rw [← flatMap_cons, ← flatMap_append] at hpresent hwithout
    obtain ⟨result, removed⟩ := made
    obtain ⟨hremoved, hmade⟩ := hmade
    have hpresent' := hremoved.trans hpresent.symm
    cases removed with
    | false => exact ⟨hpresent', hmade⟩
    | true =>
      cases result with
      | none =>
        obtain ⟨hgone, hnext⟩ := hmade
        rw [hgone, nil_append, ← flatMap_append] at hwithout
        have hcount : popCount bitmap = (front ++ back).length + 1 := by
          rw [popCount_eq, ← hslots, length_map, length_append, length_append, length_cons]
          omega
        by_cases hone : popCount bitmap = 1
        · have hnil : front ++ back = [] := length_eq_zero_iff.mp (by omega)
          simp only [hone, if_true]
          refine ⟨hpresent', ?_, hnext⟩
          rw [hwithout, hnil]
          rfl
        · have hne : front ++ back ≠ [] := fun hnil => hone (by rw [hcount, hnil]; rfl)
          simp only [hone, if_false]
          refine dropChild_runs hinner hparts hlt hnext hne fun copy last hcopy => ?_
          exact ⟨hpresent', show Made _ _ _ _ _ _ _ from hwithout.symm ▸ hcopy⟩
      | some newChild =>
        have hresult : ∀ entry ∈ without ctx key branch.entries,
            slotOf (ctx.hash entry.key) (maxDepth - (levels + 1)) = branch.slot :=
              fun entry hentry =>
          hrouted branch hmem entry (eraseP_subset hentry)
        refine replaceChild_runs hinner hmade hresult fun copy last hcopy => ?_
        rw [flatMap_append, flatMap_cons, ← hwithout] at hcopy
        exact ⟨hpresent', hcopy⟩

theorem removeLeaf_runs {rc : Nat} {entry : Entry K V}
    (hcell : heap.read node = some ⟨rc, .leaf entry⟩)
    (h : Owned Kind.pointers heap owners) (key : K) :
    Runs (removeNode ctx key levels node) heap (Removes ctx heap owners levels key [entry])
      (Failed Kind.pointers heap owners) := by
  have hpresent : ctx.eql entry.key key = present ctx key [entry] := by
    rw [present, any_cons, any_nil, Bool.or_false]
  have hleft : Removes ctx heap owners levels key [entry] (none, ctx.eql entry.key key) heap := by
    refine ⟨hpresent, ?_⟩
    cases hkey : ctx.eql entry.key key with
    | false => exact h.after
    | true => exact ⟨by simp [without, hkey], h.after⟩
  cases levels with
  | zero => exact Runs.load_bind hcell hleft
  | succ levels => exact Runs.load_bind hcell hleft

theorem removeNode_runs (h : Holds ctx heap levels node entries)
    (howned : Owned Kind.pointers heap owners)
    (hreach : Reach Kind.pointers heap owners node) (hle : levels ≤ maxDepth) (key : K) :
    Runs (removeNode ctx key levels node) heap (Removes ctx heap owners levels key entries)
      (Failed Kind.pointers heap owners) := by
  induction h with
  | leaf hcell => exact removeLeaf_runs hcell howned key
  | collision hcell hlength hdistinct =>
    exact Runs.load_bind hcell (removeFromCollision_runs hlength hdistinct howned key)
  | @internal levels rc node bitmap branches hcell hslots _ hbelow hrouted ih =>
    have hle' : levels ≤ maxDepth := Nat.le_of_succ_le hle
    refine Runs.load_bind hcell (checkedSlotOf_bind ?_)
    exact removeFromInternal_runs howned ⟨⟨rc, hcell⟩, hslots, hbelow, hrouted, hle',
      hreach⟩ fun branch hbranch =>
      ih branch hbranch (.child hreach hcell (mem_map_of_mem hbranch)) hle'

end OnyxServer.PersistentMap
