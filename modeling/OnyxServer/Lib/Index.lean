import OnyxServer.Lib.HashMap
import OnyxServer.Lib.Search

/-!
# Indexes kept by hand

An index holds a list of keys under each class. It mirrors a relation between keys and
classes when every list holds exactly the keys of its class, each of them once. Adding a
pair and removing one keep the mirror.
-/
namespace OnyxServer.Lib

open List

variable {δ κ : Type} [DecidableEq δ]

/-- The keys under a class. -/
def listed (index : HashMap δ (List κ)) (d : δ) : List κ := (index.lookup d).getD []

structure Mirrors (index : HashMap δ (List κ)) (owed : κ → δ → Prop) : Prop where
  mem_iff : ∀ d k, k ∈ listed index d ↔ owed k d
  nodup : ∀ d, (listed index d).Nodup

variable {index : HashMap δ (List κ)} {owed owed' : κ → δ → Prop} {d : δ} {k : κ} {bucket : List κ}

theorem listed_some (h : index.lookup d = some bucket) : listed index d = bucket := by
  rw [listed, h]
  rfl

theorem listed_none (h : index.lookup d = none) : listed index d = [] := by
  rw [listed, h]
  rfl

theorem listed_insert (index : HashMap δ (List κ)) (d e : δ) (bucket : List κ) :
    listed (index.insert d bucket) e = if e = d then bucket else listed index e := by
  unfold listed
  rw [HashMap.lookup_insert_eq]
  split <;> rfl

theorem listed_erase (index : HashMap δ (List κ)) (d e : δ) :
    listed (index.erase d) e = if e = d then [] else listed index e := by
  unfold listed
  rw [HashMap.lookup_erase_eq]
  split <;> rfl

namespace Mirrors

theorem empty : Mirrors (∅ : HashMap δ (List κ)) fun _ _ => False := by
  have hnil : ∀ d : δ, listed (∅ : HashMap δ (List κ)) d = [] :=
    fun d => listed_none (AList.lookup_empty d)
  exact ⟨fun d k => by rw [hnil]; simp, fun d => by rw [hnil]; exact nodup_nil⟩

theorem congr (h : Mirrors index owed) (hiff : ∀ k d, owed' k d ↔ owed k d) : Mirrors index owed' :=
  ⟨fun d k => (h.mem_iff d k).trans (hiff k d).symm, h.nodup⟩

/-- Only what is listed matters, not which classes have an empty list. -/
theorem of_listed {index' : HashMap δ (List κ)} (h : Mirrors index owed)
    (hlisted : ∀ d, (listed index' d).Perm (listed index d)) : Mirrors index' owed :=
  ⟨fun d k => (hlisted d).mem_iff.trans (h.mem_iff d k),
    fun d => (hlisted d).nodup_iff.mpr (h.nodup d)⟩

theorem append (h : Mirrors index owed) (hbucket : listed index d = bucket) (hnew : ¬ owed k d) :
    Mirrors (index.insert d (bucket ++ [k])) fun k' d' => owed k' d' ∨ k' = k ∧ d' = d := by
  constructor
  · intro d' k'
    rw [listed_insert]
    by_cases hd : d' = d
    · subst hd
      rw [if_pos rfl, mem_append, mem_singleton, ← hbucket, h.mem_iff]
      simp
    · rw [if_neg hd, h.mem_iff]
      simp [hd]
  · intro d'
    rw [listed_insert]
    split
    · rw [← hbucket]
      refine List.Nodup.append (h.nodup d) (nodup_singleton k) ?_
      intro x hx hsingle
      rw [mem_singleton.mp hsingle, h.mem_iff] at hx
      exact hnew hx
    · exact h.nodup d'

/-- A key that is owed is found, and what is left of its list is the rest. -/
theorem remove [DecidableEq κ] (h : Mirrors index owed) (howed : owed k d) :
    ∃ i, (listed index d).idxOf? k = some i ∧
      ∀ index' : HashMap δ (List κ),
        (∀ e, listed index' e = if e = d then swapRemove (listed index d) i else listed index e) →
        Mirrors index' fun k' d' => owed k' d' ∧ ¬ (k' = k ∧ d' = d) := by
  have hmem : k ∈ listed index d := (h.mem_iff d k).mpr howed
  obtain ⟨i, hi⟩ := Option.isSome_iff_exists.mp (isSome_idxOf?.mpr hmem)
  refine ⟨i, hi, fun index' hindex' => ?_⟩
  obtain ⟨hlt, hk, -⟩ := List.idxOf?_eq_some_iff.mp hi
  obtain ⟨l, r, hsplit, rfl⟩ := getElem?_split (List.getElem?_eq_some_iff.mpr ⟨hlt, hk⟩)
  have hperm := swapRemove_perm l r k
  have hnodup := h.nodup d
  rw [hsplit, nodup_middle, nodup_cons] at hnodup
  constructor
  · intro e k'
    rw [hindex']
    by_cases he : e = d
    · subst he
      rw [if_pos rfl, hsplit, hperm.mem_iff, ← h.mem_iff e k', hsplit, mem_append, mem_append,
        mem_cons]
      constructor
      · intro hin
        refine ⟨by tauto, fun hboth => hnodup.1 ?_⟩
        rw [← hboth.1]
        exact mem_append.mpr hin
      · rintro ⟨hin | rfl | hin, hne⟩
        · exact .inl hin
        · exact absurd ⟨rfl, rfl⟩ hne
        · exact .inr hin
    · rw [if_neg he, h.mem_iff]
      simp [he]
  · intro e
    rw [hindex']
    split
    · rw [hsplit]
      exact hperm.nodup_iff.mpr hnodup.2
    · exact h.nodup e

end Mirrors

end OnyxServer.Lib
