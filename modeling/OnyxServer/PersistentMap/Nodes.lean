import OnyxServer.PersistentMap.Shape

/-!
# Making nodes

What is made is owned by the code that made it. When an allocation is refused, everything that
was made or retained before it is given back.
-/
namespace OnyxServer.PersistentMap

open Lib Lib.Bitmap List Multiset

variable {K V : Type} {ctx : Context K} {heap next last : Heap (Kind K V)} {owners : Multiset Addr}
    {node : Addr}
  {levels : Nat} {bitmap : BitVec 32} {key : K} {value : V} {entries : List (Entry K V)}

/-- A node of the caller's, with these entries. -/
structure Made (ctx : Context K) (heap : Heap (Kind K V)) (owners : Multiset Addr) (levels : Nat)
    (node : Addr) (entries : List (Entry K V)) (next : Heap (Kind K V)) : Prop where
  after : After Kind.pointers heap (node ::ₘ owners) next
  holds : Holds ctx next levels node entries

theorem Made.after_trans {more : Multiset Addr} (h : After Kind.pointers heap more next)
    (hmade : Made ctx next owners levels node entries last) :
    Made ctx heap owners levels node entries last :=
  ⟨h.trans hmade.after, hmade.holds⟩

theorem create_childless {kind : Kind K V} (hkind : kind.pointers = [])
    (h : Owned Kind.pointers heap owners)
    (hholds : ∀ node next, Heap.read next node = some ⟨1, kind⟩ →
      Holds ctx next levels node entries) :
    Runs (Mem.create kind) heap (fun node => Made ctx heap owners levels node entries)
      (Failed Kind.pointers heap owners) := by
  have hnone : Multiset.ofList kind.pointers + owners = owners := by
    rw [hkind, coe_nil, Multiset.zero_add]
  have howned : Owned Kind.pointers heap (Multiset.ofList kind.pointers + owners) := hnone.symm ▸ h
  have hcreate := create_runs howned
  rw [hnone] at hcreate
  exact hcreate.imp (fun node next hnext => ⟨hnext.1, hholds node next hnext.2⟩) fun _ => id

theorem newLeaf_runs (ctx : Context K) (levels : Nat) (h : Owned Kind.pointers heap owners)
    (key : K) (value : V) :
    Runs (newLeaf key value) heap (fun node => Made ctx heap owners levels node [⟨key, value⟩])
      (Failed Kind.pointers heap owners) :=
  create_childless rfl h fun _ _ hcell => .leaf hcell

theorem newCollision_runs (h : Owned Kind.pointers heap owners) (hlength : 2 ≤ entries.length)
    (hdistinct : Distinct ctx entries) :
    Runs (newCollision entries) heap (fun node => Made ctx heap owners 0 node entries)
      (Failed Kind.pointers heap owners) :=
  create_childless rfl h fun _ _ hcell => .collision hcell hlength hdistinct

/-- `reserve` before the rest of the code. -/
theorem reserve_bind {β : Type} {f : Unit → Mem (Kind K V) β} {good : β → Heap (Kind K V) → Prop}
    (h : Owned Kind.pointers heap owners)
    (hf : ∀ next, After Kind.pointers heap owners next →
      Runs (f ()) next good (Failed Kind.pointers heap owners)) :
    Runs (Mem.reserve >>= f) heap good (Failed Kind.pointers heap owners) :=
  Runs.bind (reserve_runs h) fun _ next hnext => hf next hnext

theorem releaseNode_runs (h : Owned Kind.pointers heap (node ::ₘ owners))
    (hholds : Holds ctx heap levels node entries) (hlevels : levels ≤ maxDepth) :
    Runs (releaseNode node) heap (fun _ => After Kind.pointers heap owners) fun _ => False :=
  (release_runs h (hholds.height.mono (Nat.succ_le_succ hlevels))).imp
    (fun _ _ hnext => hnext.1) fun _ => id

/-- What is owned still holds what it held. -/
theorem Holds.kept (h : Holds ctx heap levels node entries)
    (hafter : After Kind.pointers heap owners next)
    (hmem : node ∈ owners) : Holds ctx next levels node entries :=
  h.follows hafter.follows hafter.owned (.owner hmem)

/-- Code that gives a node back when it fails. -/
theorem or_release {β : Type} {m : Mem (Kind K V) β} {good : β → Heap (Kind K V) → Prop}
    (h : Made ctx heap owners levels node entries next) (hlevels : levels ≤ maxDepth)
    (hm : Runs m next good (Failed Kind.pointers next (node ::ₘ owners))) :
    Runs (m.onError (releaseNode node)) next good (Failed Kind.pointers heap owners) := by
  refine Runs.onError hm fun last hlast => ?_
  have hkept := h.holds.kept hlast.toAfter (mem_cons_self node owners)
  exact (releaseNode_runs hlast.owned hkept hlevels).imp
    (fun _ _ hend => (h.after.failed hlast).trans hend) fun _ => False.elim

/-- A request after which the node that was made is kept, or given back. -/
theorem reserve_or_release (h : Made ctx heap owners levels node entries next)
    (hlevels : levels ≤ maxDepth) :
    Runs (Mem.reserve.onError (releaseNode node))
      next (fun _ => Made ctx heap owners levels node entries) (Failed Kind.pointers heap owners) :=
  or_release h hlevels ((reserve_runs h.after.owned).imp
    (fun _ _ hlast => ⟨h.after.trans hlast, h.holds.kept hlast (mem_cons_self node owners)⟩)
    fun _ => id)

theorem coe_singleton_add (node : Addr) (owners : Multiset Addr) :
    Multiset.ofList [node] + owners = node ::ₘ owners := by
  rw [coe_singleton, singleton_add]

theorem coe_pair_add (node other : Addr) (owners : Multiset Addr) :
    Multiset.ofList [node, other] + owners = node ::ₘ other ::ₘ owners := by
  rw [← cons_coe, cons_add, coe_singleton_add]

/-- The copy of an internal node: its new children are the caller's, and the others are shared. -/
theorem copyInternal_runs {children fresh shared : List Addr} (branches : List (Branch K V))
    (h : Owned Kind.pointers heap (Multiset.ofList fresh + owners))
    (hshared : ∀ a ∈ shared, Reach Kind.pointers heap (Multiset.ofList fresh + owners) a)
    (hperm : children.Perm (shared ++ fresh)) (hchildren : children = branches.map Branch.child)
    (hslots : branches.map Branch.slot = slots bitmap) (hne : branches ≠ [])
    (hbelow : ∀ branch ∈ branches, Holds ctx heap levels branch.child branch.entries)
    (hrouted : Routed ctx (maxDepth - (levels + 1)) branches) (hlevels : levels ≤ maxDepth) :
    Runs (copyInternal bitmap children shared) heap
      (fun node => Made ctx heap owners (levels + 1) node (branches.flatMap Branch.entries))
      (Failed Kind.pointers heap owners) := by
  have hall : Multiset.ofList shared + (Multiset.ofList fresh + owners) =
      Multiset.ofList children + owners := by
    rw [← Multiset.add_assoc, coe_add, coe_eq_coe.mpr hperm]
  refine Runs.bind ((retainAll_runs h hshared).imp (fun _ _ => id) fun _ => False.elim)
    fun _ mid hmid => ?_
  rw [hall] at hmid
  have hkept : ∀ {last : Heap (Kind K V)} {owners' : Multiset Addr}, heap.Follows last →
      Owned Kind.pointers last owners' →
      (∀ a ∈ children, Reach Kind.pointers last owners' a) →
      ∀ branch ∈ branches, Holds ctx last levels branch.child branch.entries :=
    fun hfollows howned hreach branch hbranch =>
      (hbelow branch hbranch).follows hfollows howned
        (hreach _ (hchildren ▸ mem_map_of_mem hbranch))
  refine Runs.onError ((create_runs hmid.owned).imp (fun node last hlast => ?_) fun _ => id)
    fun last hlast => ?_
  · have hfollows := hmid.follows.trans hlast.1.follows
    have hreach : ∀ a ∈ children, Reach Kind.pointers last (node ::ₘ owners) a := fun a ha =>
      .child (.owner (mem_cons_self node owners)) hlast.2 ha
    exact ⟨hmid.trans hlast.1,
      .internal (hchildren ▸ hlast.2) hslots hne (hkept hfollows hlast.1.owned hreach) hrouted⟩
  · have hfollows := hmid.follows.trans hlast.follows
    have hreach : ∀ a ∈ children, Reach Kind.pointers last (Multiset.ofList children + owners) a :=
      fun a ha =>
      .owner (mem_add.mpr (.inl ha))
    have hheights : ∀ a ∈ children, Height Kind.pointers last (maxDepth + 1) a := fun a ha => by
      obtain ⟨branch, hbranch, rfl⟩ := mem_map.mp (hchildren ▸ ha)
      exact (hkept hfollows hlast.owned hreach branch hbranch).height.mono
        (Nat.succ_le_succ hlevels)
    exact (releaseAll_runs release_runs hlast.owned hheights).imp
      (fun _ _ hend => (hmid.failed hlast).trans hend.1) fun _ => False.elim

/-- An internal node within reach, over children that hold their entries. -/
structure Inner (ctx : Context K) (heap : Heap (Kind K V)) (owners : Multiset Addr) (levels : Nat)
    (node : Addr) (bitmap : BitVec 32) (branches : List (Branch K V)) : Prop where
  cell : ∃ rc, heap.read node = some ⟨rc, .internal bitmap (branches.map Branch.child)⟩
  slotted : branches.map Branch.slot = slots bitmap
  below : ∀ b ∈ branches, Holds ctx heap levels b.child b.entries
  routed : Routed ctx (maxDepth - (levels + 1)) branches
  le : levels ≤ maxDepth
  reach : Reach Kind.pointers heap owners node

/-- A node that is reached later, and its children, are what they were. -/
theorem Inner.kept {branches : List (Branch K V)} {more : Multiset Addr}
    (h : Inner ctx heap owners levels node bitmap branches)
    (hafter : After Kind.pointers heap more next)
    (hmore : owners ≤ more) : Reach Kind.pointers next more node ∧
      ∀ b ∈ branches, Reach Kind.pointers next more b.child ∧
      Holds ctx next levels b.child b.entries := by
  have hreach := h.reach.follows hafter.follows hafter.owned hmore
  refine ⟨hreach, fun b hb => ?_⟩
  obtain ⟨rc, hcell⟩ := h.cell
  obtain ⟨cell, hnext, -⟩ := hreach.live hafter.owned
  have hkind := hafter.follows.kind_of_read hcell hnext
  have hchild : Reach Kind.pointers next more b.child :=
    .child hreach hnext (hkind ▸ mem_map_of_mem hb)
  exact ⟨hchild, (h.below b hb).follows hafter.follows hafter.owned hchild⟩

theorem set_child (front back : List (Branch K V)) (branch new : Branch K V) :
    ((front ++ branch :: back).map Branch.child).set front.length new.child =
      (front ++ new :: back).map Branch.child := by
  rw [map_append, map_append, set_append_right _ _ (by rw [length_map]), length_map, Nat.sub_self]
  rfl

theorem erase_child (front back : List (Branch K V)) (branch : Branch K V) :
    ((front ++ branch :: back).map Branch.child).eraseIdx front.length =
      (front ++ back).map Branch.child := by
  rw [map_append, map_append, eraseIdx_append_of_length_le (by rw [length_map]), length_map,
    Nat.sub_self]
  rfl

theorem children_length {branches : List (Branch K V)}
    (hslots : branches.map Branch.slot = slots bitmap) :
    (branches.map Branch.child).length = popCount bitmap := by
  rw [popCount_eq, ← hslots, length_map, length_map]

/-- The copy of a node with a new child between the children that it shares with the node. -/
theorem graft_runs {β : Type} {old front back : List (Branch K V)} {bitmap' : BitVec 32}
    {k : Addr → Mem (Kind K V) β} {good : β → Heap (Kind K V) → Prop} (new : Branch K V)
    (h : Inner ctx heap owners levels node bitmap old) (hold : ∀ b ∈ front ++ back, b ∈ old)
    (hmade : Made ctx heap owners levels new.child new.entries next)
    (hnew : ∀ entry ∈ new.entries, slotOf (ctx.hash entry.key) (maxDepth - (levels + 1)) = new.slot)
    (hslots : (front ++ new :: back).map Branch.slot = slots bitmap')
    (hk : ∀ copy last,
      Made ctx heap owners (levels + 1) copy ((front ++ new :: back).flatMap Branch.entries) last →
      Runs (k copy) last good (Failed Kind.pointers heap owners)) :
    Runs (Mem.load node >>= fun _ =>
        copyInternal bitmap' ((front ++ new :: back).map Branch.child)
        ((front ++ back).map Branch.child) >>= k) next good
      (Failed Kind.pointers heap owners) := by
  obtain ⟨hreach, hkept⟩ := h.kept hmade.after (le_cons_self owners new.child)
  refine hmade.after.owned.load_bind hreach fun _ => ?_
  have hcases : ∀ b ∈ front ++ new :: back, b = new ∨ b ∈ front ++ back := fun b hb =>
    mem_cons.mp (perm_middle.mem_iff.mp hb)
  have hshared : ∀ a ∈ (front ++ back).map Branch.child,
      Reach Kind.pointers next (Multiset.ofList [new.child] + owners) a := fun a ha => by
    obtain ⟨b, hb, rfl⟩ := mem_map.mp ha
    rw [coe_singleton_add]
    exact (hkept b (hold b hb)).1
  have hperm :
      ((front ++ new :: back).map Branch.child).Perm
      ((front ++ back).map Branch.child ++ [new.child]) :=
    (perm_middle.map Branch.child).trans (perm_append_singleton _ _).symm
  have hbelow' : ∀ b ∈ front ++ new :: back, Holds ctx next levels b.child b.entries :=
    fun b hb => by
    rcases hcases b hb with rfl | hin
    · exact hmade.holds
    · exact (hkept b (hold b hin)).2
  have hrouted' : Routed ctx (maxDepth - (levels + 1)) (front ++ new :: back) := by
    intro b hb entry hentry
    rcases hcases b hb with rfl | hin
    · exact hnew entry hentry
    · exact h.routed b (hold b hin) entry hentry
  have hcopy :=
    copyInternal_runs _ ((coe_singleton_add new.child owners).symm ▸ hmade.after.owned)
    hshared hperm rfl
    hslots (append_ne_nil_of_right_ne_nil _ (cons_ne_nil _ _)) hbelow' hrouted' h.le
  exact Runs.bind
    (hcopy.imp (fun _ _ hlast => hlast.after_trans hmade.after) fun _ => hmade.after.failed) hk

theorem replaceChild_runs {β : Type} {front back : List (Branch K V)} {branch : Branch K V}
    {newChild : Addr}
    {result : List (Entry K V)} {k : Addr → Mem (Kind K V) β} {good : β → Heap (Kind K V) → Prop}
    (h : Inner ctx heap owners levels node bitmap (front ++ branch :: back))
    (hmade : Made ctx heap owners levels newChild result next)
    (hresult : ∀ entry ∈ result, slotOf (ctx.hash entry.key) (maxDepth - (levels + 1)) =
      branch.slot) (hk : ∀ copy last, Made ctx heap owners (levels + 1) copy
        ((front ++ ⟨branch.slot, newChild, result⟩ :: back).flatMap Branch.entries) last →
      Runs (k copy) last good (Failed Kind.pointers heap owners)) :
    Runs (Mem.reserve.onError (releaseNode newChild) >>= fun _ => Mem.load node >>= fun _ =>
        copyInternal bitmap (((front ++ branch :: back).map Branch.child).set front.length newChild)
          (((front ++ branch :: back).map Branch.child).eraseIdx front.length) >>= k) next good
      (Failed Kind.pointers heap owners) := by
  have hslots' : (front ++ (⟨branch.slot, newChild, result⟩ : Branch K V) :: back).map Branch.slot =
      slots bitmap := by
    rw [← h.slotted, map_append, map_append, List.map_cons, List.map_cons]
  have hold : ∀ b ∈ front ++ back, b ∈ front ++ branch :: back := fun b hb =>
    perm_middle.mem_iff.mpr (mem_cons_of_mem branch hb)
  have hset := set_child front back branch (⟨branch.slot, newChild, result⟩ : Branch K V)
  dsimp only at hset
  rw [hset, erase_child]
  refine Runs.bind (reserve_or_release hmade h.le) fun _ mid hmid => ?_
  exact graft_runs _ h hold hmid hresult hslots' hk

theorem addChild_runs {β : Type} {slot : Nat} {front back : List (Branch K V)} {newChild : Addr}
    {result : List (Entry K V)} {k : Addr → Mem (Kind K V) β} {good : β → Heap (Kind K V) → Prop}
    (h : Inner ctx heap owners levels node bitmap (front ++ back))
    (hparts : Parts bitmap slot front back)
    (hslot : slot < 32) (hmade : Made ctx heap owners levels newChild result next)
    (hresult : ∀ entry ∈ result, slotOf (ctx.hash entry.key) (maxDepth - (levels + 1)) = slot)
    (hk : ∀ copy last, Made ctx heap owners (levels + 1) copy
        ((front ++ ⟨slot, newChild, result⟩ :: back).flatMap Branch.entries) last →
      Runs (k copy) last good (Failed Kind.pointers heap owners)) :
    Runs (Mem.reserve.onError (releaseNode newChild) >>= fun _ => Mem.load node >>= fun _ =>
        copyInternal (bitmap ||| bit 32 slot)
        (((front ++ back).map Branch.child).take front.length ++ newChild ::
          ((front ++ back).map Branch.child).drop front.length)
            ((front ++ back).map Branch.child) >>= k) next good
      (Failed Kind.pointers heap owners) := by
  have hslots' : (front ++ (⟨slot, newChild, result⟩ : Branch K V) :: back).map Branch.slot =
      slots (bitmap ||| bit 32 slot) := by
    rw [slots_insert hslot, map_append, List.map_cons, hparts.below_eq, hparts.above_eq]
  have hchildren : ((front ++ back).map Branch.child).take front.length ++ newChild ::
      ((front ++ back).map Branch.child).drop front.length =
        (front ++ (⟨slot, newChild, result⟩ : Branch K V) :: back).map Branch.child := by
    rw [map_append, take_left' (length_map _), drop_left' (length_map _), map_append, List.map_cons]
  rw [hchildren]
  refine Runs.bind (reserve_or_release hmade h.le) fun _ mid hmid => ?_
  exact graft_runs _ h (fun _ hb => hb) hmid hresult hslots' hk

end OnyxServer.PersistentMap
