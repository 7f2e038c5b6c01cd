import Mathlib.Data.List.AList
import OnyxServer.PersistentMap.Iterating
import OnyxServer.PersistentMap.Putting
import OnyxServer.PersistentMap.Removing

/-!
# A version as a finite map

The keys that the context takes for equal are one key of the finite map. A version that is
owned answers as the finite map does that the same puts and removals make.
-/
namespace OnyxServer.PersistentMap

open Lib List

variable {K V : Type} {ctx : Context K} {heap next : Heap (Kind K V)} {owners : Multiset Addr}
    {map : Map} {key : K}
  {value : V} {entries : List (Entry K V)}

def Context.setoid (ctx : Context K) : Setoid K where
  r a b := ctx.eql a b
  iseqv := ⟨ctx.eql_refl, ctx.eql_symm, ctx.eql_trans⟩

/-- The keys up to the equality of the context. -/
def Context.Class (ctx : Context K) : Type := Quotient ctx.setoid

instance (ctx : Context K) : DecidableEq ctx.Class :=
  have (a b : K) : Decidable (ctx.setoid.r a b) := inferInstanceAs (Decidable (ctx.eql a b = true))
  inferInstanceAs (DecidableEq (Quotient ctx.setoid))

def Context.cls (ctx : Context K) (key : K) : ctx.Class := Quotient.mk ctx.setoid key

theorem Context.cls_eq_iff {a b : K} : ctx.cls a = ctx.cls b ↔ ctx.eql a b = true := Quotient.eq

/-- What a version stands for. -/
abbrev Finite (ctx : Context K) (V : Type) : Type := AList fun _ : ctx.Class => V

def pairs (ctx : Context K) (entries : List (Entry K V)) : List (Sigma fun _ : ctx.Class => V) :=
  entries.map fun entry => ⟨ctx.cls entry.key, entry.value⟩

theorem pairs_nodupKeys (h : Distinct ctx entries) : (pairs ctx entries).NodupKeys := by
  rw [List.NodupKeys, List.keys, pairs, map_map]
  exact pairwise_map.mpr (h.imp fun hne hcls => hne (Context.cls_eq_iff.mp hcls))

theorem pairs_kerase (ctx : Context K) (key : K) (entries : List (Entry K V)) :
    pairs ctx (without ctx key entries) = (pairs ctx entries).kerase (ctx.cls key) := by
  induction entries with
  | nil => rfl
  | cons entry entries ih =>
    rw [without, eraseP_cons]
    cases hkey : ctx.eql entry.key key with
    | true => exact (kerase_cons_eq (Context.cls_eq_iff.mpr hkey).symm).symm
    | false =>
      have hne : ctx.cls key ≠ ctx.cls entry.key := fun hcls => by
        rw [Context.cls_eq_iff.mp hcls.symm] at hkey
        cases hkey
      have hcons :=
        kerase_cons_ne (s := (⟨ctx.cls entry.key, entry.value⟩ : Sigma fun _ : ctx.Class => V))
        (l := pairs ctx entries) hne
      rw [cond_false]
      exact (congrArg _ ih).trans hcons.symm

theorem pairs_lookup (ctx : Context K) (key : K) (entries : List (Entry K V)) :
    lookup ctx key entries = (pairs ctx entries).dlookup (ctx.cls key) := by
  induction entries with
  | nil => rfl
  | cons entry entries ih =>
    rw [lookup, List.find?_cons]
    cases hkey : ctx.eql entry.key key with
    | true =>
      have hcls : ctx.cls entry.key = ctx.cls key := Context.cls_eq_iff.mpr hkey
      show some entry.value =
        List.dlookup (ctx.cls key) (⟨ctx.cls entry.key, entry.value⟩ :: pairs ctx entries)
      rw [← hcls, dlookup_cons_eq]
    | false =>
      have hne : ctx.cls key ≠ ctx.cls entry.key := fun hcls => by
        rw [Context.cls_eq_iff.mp hcls.symm] at hkey
        cases hkey
      show lookup ctx key entries =
        List.dlookup (ctx.cls key) (⟨ctx.cls entry.key, entry.value⟩ :: pairs ctx entries)
      rw [dlookup_cons_ne _ _ hne, ih]

/-! ## Operations on a version -/

/-- The reference that a holder of the version owns. -/
def Map.handle (map : Map) : Multiset Addr := Multiset.ofList map.root.toList

/-- The version has these entries. -/
structure Stands (ctx : Context K) (heap : Heap (Kind K V)) (map : Map)
    (entries : List (Entry K V)) : Prop where
  shape : match map.root with
    | none => entries = []
    | some root => Holds ctx heap maxDepth root entries
  len_eq : map.len = entries.length

theorem Stands.distinct (h : Stands ctx heap map entries) : Distinct ctx entries := by
  have hshape := h.shape
  split at hshape
  · rw [hshape]
    exact List.Pairwise.nil
  · exact hshape.distinct

/-- A version that is owned later stands for the same. -/
theorem Stands.follows (h : Stands ctx heap map entries)
    (hafter : After Kind.pointers heap owners next)
    (hhandle : map.handle ≤ owners) : Stands ctx next map entries := by
  obtain ⟨root, len⟩ := map
  refine ⟨?_, h.len_eq⟩
  cases root with
  | none => exact h.shape
  | some root =>
    have hshape : Holds ctx heap maxDepth root entries := h.shape
    exact hshape.kept hafter (Multiset.mem_of_le hhandle (Multiset.mem_singleton_self root))

theorem retain_runs_handle (h : Owned Kind.pointers heap owners) (hhandle : map.handle ≤ owners) :
    Runs map.retain heap (fun _ => After Kind.pointers heap (map.handle + owners)) fun _ =>
      False := by
  obtain ⟨root, len⟩ := map
  cases root with
  | none =>
    have hnone : (Map.handle ⟨none, len⟩) + owners = owners := Multiset.zero_add owners
    exact hnone.symm ▸ h.after
  | some root =>
    have hin : root ∈ owners := Multiset.mem_of_le hhandle (Multiset.mem_singleton_self root)
    have hone : Map.handle ⟨some root, len⟩ + owners = root ::ₘ owners :=
      coe_singleton_add root owners
    exact hone.symm ▸ retain_runs h (.owner hin)

section

variable (h : Stands ctx heap map entries)
include h

theorem release_runs_handle (howned : Owned Kind.pointers heap (map.handle + owners)) :
    Runs map.release heap (fun _ => After Kind.pointers heap owners) fun _ => False := by
  obtain ⟨root, len⟩ := map
  cases root with
  | none =>
    have hnone : (Map.handle ⟨none, len⟩) + owners = owners := Multiset.zero_add owners
    rw [hnone] at howned
    exact howned.after
  | some root =>
    have hone : Map.handle ⟨some root, len⟩ + owners = root ::ₘ owners :=
      coe_singleton_add root owners
    have hshape : Holds ctx heap maxDepth root entries := h.shape
    exact releaseNode_runs (hone ▸ howned) hshape (Nat.le_refl _)

theorem get_runs (key : K) :
    Runs (map.get ctx key) heap (fun value next => next = heap ∧
      value = lookup ctx key entries) fun _ => False := by
  obtain ⟨root, len⟩ := map
  cases root with
  | none =>
    have hshape : entries = [] := h.shape
    rw [hshape]
    exact ⟨rfl, rfl⟩
  | some root =>
    have hshape : Holds ctx heap maxDepth root entries := h.shape
    exact getNode_runs hshape key

theorem contains_runs (key : K) :
    Runs (map.contains ctx key) heap (fun found next => next = heap ∧
      found = (lookup ctx key entries).isSome)
      fun _ => False :=
  Runs.bind (get_runs h key) fun _ _ hvalue => ⟨hvalue.1, congrArg Option.isSome hvalue.2⟩

theorem put_runs (howned : Owned Kind.pointers heap owners)
    (hhandle : map.handle ≤ owners) (key : K) (value : V) :
    Runs (map.put ctx key value) heap
      (fun made next => After Kind.pointers heap (made.handle + owners) next ∧
        ∃ result, Stands ctx next made result ∧
        result.Perm (⟨key, value⟩ :: without ctx key entries))
      (Failed Kind.pointers heap owners) := by
  obtain ⟨root, len⟩ := map
  have hlen : len = entries.length := h.len_eq
  have hroot : Runs (putRoot ctx root key value) heap
      (fun made next => ∃ result, Made ctx heap owners maxDepth made.1 result next ∧
        Puts ctx key value entries made.2 result) (Failed Kind.pointers heap owners) := by
    cases root with
    | none =>
      have hshape : entries = [] := h.shape
      subst hshape
      exact Runs.bind (newLeaf_runs ctx maxDepth howned key value) fun leaf next hnext =>
        ⟨_, hnext, .refl _, rfl⟩
    | some root =>
      have hshape : Holds ctx heap maxDepth root entries := h.shape
      have hreach : Reach Kind.pointers heap owners root :=
        .owner (Multiset.mem_of_le hhandle (Multiset.mem_singleton_self root))
      exact putNode_runs hshape howned hreach (Nat.le_refl _) key value
  refine Runs.bind hroot fun made next hmade => ?_
  obtain ⟨made, added⟩ := made
  obtain ⟨result, hmade, hperm, hadded⟩ := hmade
  refine ⟨?_, result, ⟨hmade.holds, ?_⟩, hperm⟩
  · show After Kind.pointers heap (Multiset.ofList [made] + owners) next
    rw [coe_singleton_add]
    exact hmade.after
  · have hcount := length_without ctx key entries
    have hresult := hperm.length_eq
    rw [length_cons, hcount] at hresult
    dsimp only at hadded ⊢
    cases hpresent : present ctx key entries with
    | false =>
      rw [hpresent] at hresult hadded
      simp only [hadded, Bool.not_false, if_true, Bool.false_eq_true, if_false] at hresult ⊢
      omega
    | true =>
      rw [hpresent] at hresult hadded
      have hpos : 0 < entries.length := by
        obtain ⟨entry, hentry, -⟩ := any_eq_true.mp hpresent
        exact length_pos_of_mem hentry
      simp only [hadded, Bool.not_true, if_true, Bool.false_eq_true, if_false] at hresult ⊢
      omega

theorem remove_runs (howned : Owned Kind.pointers heap owners)
    (hhandle : map.handle ≤ owners) (key : K) :
    Runs (map.remove ctx key) heap
      (fun made next => After Kind.pointers heap (made.handle + owners) next ∧
        Stands ctx next made (without ctx key entries))
      (Failed Kind.pointers heap owners) := by
  obtain ⟨root, len⟩ := map
  have hlen : len = entries.length := h.len_eq
  cases root with
  | none =>
    have hshape : entries = [] := h.shape
    subst hshape
    have hnone : (Map.handle {}) + owners = owners := Multiset.zero_add owners
    exact ⟨hnone.symm ▸ howned.after, rfl, rfl⟩
  | some root =>
    have hshape : Holds ctx heap maxDepth root entries := h.shape
    have hin : root ∈ owners := Multiset.mem_of_le hhandle (Multiset.mem_singleton_self root)
    refine Runs.bind (removeNode_runs hshape howned (.owner hin) (Nat.le_refl _) key)
      fun made next hmade => ?_
    obtain ⟨newRoot, removed⟩ := made
    obtain ⟨hremoved, hmade⟩ := hmade
    have hcount := length_without ctx key entries
    cases removed with
    | false =>
      have habsent := absent_of_present hremoved.symm
      have hkept : Holds ctx next maxDepth root entries := hshape.kept hmade hin
      refine Runs.bind
        ((retain_runs hmade.owned (.owner hin)).imp (fun _ _ => id) fun _ => False.elim)
        fun _ last hlast => ?_
      rw [habsent.without_eq]
      refine ⟨?_, hkept.kept hlast (Multiset.mem_cons_self root owners), hlen⟩
      show After Kind.pointers heap (Multiset.ofList [root] + owners) last
      rw [coe_singleton_add]
      exact hmade.trans hlast
    | true =>
      rw [← hremoved] at hcount
      have hpos : 0 < entries.length := by
        obtain ⟨entry, hentry, -⟩ := any_eq_true.mp hremoved.symm
        exact length_pos_of_mem hentry
      refine Runs.require_bind (hlen ▸ hpos) ?_
      rw [if_pos rfl] at hcount
      have hleft : len - 1 = (without ctx key entries).length := by rw [hcount, hlen]
      cases newRoot with
      | none =>
        obtain ⟨hgone, hnext⟩ := hmade
        have hnone : (Map.handle ⟨none, len - 1⟩) + owners = owners := Multiset.zero_add owners
        exact ⟨hnone.symm ▸ hnext, hgone, hleft⟩
      | some newRoot =>
        have hmade : Made ctx heap owners maxDepth newRoot (without ctx key entries) next := hmade
        refine ⟨?_, hmade.holds, hleft⟩
        show After Kind.pointers heap (Multiset.ofList [newRoot] + owners) next
        rw [coe_singleton_add]
        exact hmade.after

end

end OnyxServer.PersistentMap
