import Mathlib.Data.Set.Insert
import OnyxServer.Delta.Holdings

/-!
# Joins of sets

Where every dot is one event, a set is the join of the deltas and states that have been merged
into it: it has seen what one of them has, and holds what one of them holds and none of them
has seen and dropped.
-/
namespace OnyxServer.Delta

open Lib List

variable {T : Type} {updates more : Set (OrSet T)} {a b : OrSet T}

/-- No dot is held for two values: it is the event of one add. -/
def Agree (updates : Set (OrSet T)) : Prop :=
  ∀ u ∈ updates, ∀ w ∈ updates, ∀ v v' d, HeldIn u.entries v d → HeldIn w.entries v' d → v = v'

structure Joined (updates : Set (OrSet T)) (set : OrSet T) : Prop where
  wf : set.Wf
  each : ∀ u ∈ updates, u.Wf
  context : ∀ d, d ∈ set.cc ↔ ∃ u ∈ updates, d ∈ u.cc
  holds : ∀ v d, HeldIn set.entries v d ↔
    (∃ u ∈ updates, HeldIn u.entries v d) ∧ ∀ u ∈ updates, u.forgets d = false

theorem Joined.single (h : a.Wf) : Joined {a} a := by
  refine ⟨h, by simpa using h, by simp, fun v d => ?_⟩
  simp only [Set.mem_singleton_iff, exists_eq_left, forall_eq, forgets_iff]
  exact ⟨fun hv => ⟨hv, fun _ => mem_liveIn.mpr ⟨v, hv⟩⟩, And.left⟩

theorem Joined.live {d : Dot} (h : Joined updates a) (hkept : ∀ u ∈ updates, u.forgets d = false)
    (hd : d ∈ a.cc) :
    d ∈ liveIn a.entries := by
  obtain ⟨u, hu, hseen⟩ := (h.context d).mp hd
  obtain ⟨v, hv⟩ := mem_liveIn.mp (forgets_iff.mp (hkept u hu) hseen)
  exact mem_liveIn.mpr ⟨v, (h.holds v d).mpr ⟨⟨u, hu, hv⟩, hkept⟩⟩

variable [DecidableEq T]

theorem Joined.merge (ha : Joined updates a) (hb : Joined more b)
    (hagree : Agree (updates ∪ more)) :
    Joined (updates ∪ more) (a.mergeDelta b) := by
  obtain ⟨hwf, hcc, hheld⟩ := mergeDelta_spec ha.wf hb.wf
  refine ⟨hwf, fun u hu => hu.elim (ha.each u) (hb.each u), fun d => ?_,
    fun v d => (hheld v d).trans ⟨?_, ?_⟩⟩
  · simp only [hcc, ha.context, hb.context, Set.mem_union, or_and_right, exists_or]
  · intro h
    rcases h with ⟨hv, hlive⟩ | ⟨hv, hunseen⟩
    · obtain ⟨⟨u, hu, huv⟩, hkept⟩ := (ha.holds v d).mp hv
      refine ⟨⟨u, .inl hu, huv⟩,
        fun w hw => hw.elim (hkept w) fun hw => forgets_iff.mpr fun hseen => ?_⟩
      obtain ⟨v', hv'⟩ := mem_liveIn.mp (hlive ((hb.context d).mpr ⟨w, hw, hseen⟩))
      exact forgets_iff.mp (((hb.holds v' d).mp hv').2 w hw) hseen
    · obtain ⟨⟨u, hu, huv⟩, hkept⟩ := (hb.holds v d).mp hv
      refine ⟨⟨u, .inr hu, huv⟩,
        fun w hw => hw.elim (fun hw => forgets_iff.mpr fun hseen => ?_) (hkept w)⟩
      exact absurd ((ha.context d).mpr ⟨w, hw, hseen⟩) hunseen
  · intro ⟨⟨u, hu, huv⟩, hkept⟩
    have hkeptA : ∀ w ∈ updates, w.forgets d = false := fun w hw => hkept w (.inl hw)
    have hkeptB : ∀ w ∈ more, w.forgets d = false := fun w hw => hkept w (.inr hw)
    by_cases hseen : d ∈ a.cc
    · -- what holds it on this side holds it for the same value
      obtain ⟨v', hv'⟩ := mem_liveIn.mp (ha.live hkeptA hseen)
      obtain ⟨⟨w, hw, hwv⟩, -⟩ := (ha.holds v' d).mp hv'
      obtain rfl := hagree u hu w (.inl hw) v v' d huv hwv
      exact .inl ⟨hv', hb.live hkeptB⟩
    · refine .inr ⟨?_, hseen⟩
      rcases hu with hu | hu
      · have hcovered : d ∈ u.cc := (ha.each u hu).covered d (mem_liveIn.mpr ⟨v, huv⟩)
        exact absurd ((ha.context d).mpr ⟨u, hu, hcovered⟩) hseen
      · exact (hb.holds v d).mpr ⟨⟨u, hu, huv⟩, hkeptB⟩

/-- What comes of merging reachable deltas and states, in some order, grouping and number. -/
inductive Merged : Set (OrSet T) → OrSet T → Prop where
  | init (replicaId : UInt64) : Merged ∅ (OrSet.init replicaId)
  | update {set : OrSet T} (h : Reachable set) : Merged {set} set
  | merge {updates more : Set (OrSet T)} {a b : OrSet T} (ha : Merged updates a)
      (hb : Merged more b) :
    Merged (updates ∪ more) (a.mergeDelta b)

theorem Merged.joined (h : Merged updates a) (hagree : Agree updates) : Joined updates a := by
  induction h with
  | init replicaId =>
      exact ⟨OrSet.Wf.init _, by simp, by simp [OrSet.init], by simp [OrSet.init, HeldIn]⟩
  | update h => exact .single h.wf
  | merge ha hb iha ihb =>
    refine (iha fun u hu w hw => ?_).merge (ihb fun u hu w hw => ?_) hagree
    · exact hagree u (.inl hu) w (.inl hw)
    · exact hagree u (.inr hu) w (.inr hw)

/-- Replicas that have merged the same updates are equal, in whatever order, groups and numbers
of copies these came. -/
theorem merges_converge (hagree : Agree updates) (ha : Merged updates a) (hb : Merged updates b) :
    a.eql b = true := by
  have hjoinedA := ha.joined hagree
  have hjoinedB := hb.joined hagree
  apply eql_of_same hjoinedA.wf hjoinedB.wf
  refine ⟨fun d => ?_, fun v d => ?_⟩
  · rw [hjoinedA.context, hjoinedB.context]
  · rw [hjoinedA.holds, hjoinedB.holds]

theorem OrSet.Wf.contains_iff (h : a.Wf) (value : T) :
    a.contains value = true ↔ ∃ dot, HeldIn a.entries value dot := by
  rw [← mem_values_iff h.entries]
  unfold OrSet.contains
  cases hfind : findEntryIndex a.entries value with
  | none => simpa using findEntryIndex_none hfind
  | some idx =>
    obtain ⟨l, e, r, hentries, rfl, hvalue⟩ := findEntryIndex_some hfind
    have he : e ∈ a.entries := hentries ▸ mem_split.mpr (.inl rfl)
    have hat : a.entries[l.length]? =
        some e := by rw [hentries, List.getElem?_append_right (Nat.le_refl _)]; simp
    simpa [hat, h.entries.nonempty e he] using ⟨e, he, hvalue⟩

/-- A value is there exactly when one of the updates holds it by a dot that none of them has
seen and dropped: a remove takes the adds that it has seen, and no other. -/
theorem contains_iff_kept (hagree : Agree updates) (ha : Merged updates a) (value : T) :
    a.contains value = true ↔
      ∃ u ∈ updates, ∃ dot, HeldIn u.entries value dot ∧ ∀ w ∈ updates, w.forgets dot = false := by
  have hjoined := ha.joined hagree
  simp only [hjoined.wf.contains_iff, hjoined.holds]
  constructor
  · intro ⟨dot, ⟨u, hu, huv⟩, hkept⟩
    exact ⟨u, hu, dot, huv, hkept⟩
  · intro ⟨u, hu, dot, huv, hkept⟩
    exact ⟨dot, ⟨u, hu, huv⟩, hkept⟩

def sampleAdd : OrSet Nat := ⟨2, [⟨7, [⟨2, 1⟩]⟩], [⟨2, 1⟩]⟩

/-- Replica 1 has seen its own add only. -/
def sampleRemove : OrSet Nat := ⟨1, [], [⟨1, 1⟩]⟩

theorem sampleAdd_merged : Merged {sampleAdd} sampleAdd := .update (.add 7 (.init 2) rfl)
theorem sampleRemove_merged : Merged {sampleRemove} sampleRemove :=
  .update (.removeDelta 7 (.add 7 (.init 1) rfl))

theorem sample_agree : Agree ({sampleAdd} ∪ {sampleRemove}) := by
  intro u hu w hw v v' d ⟨e, he, hv, _⟩ ⟨f, hf, hv', _⟩
  rcases hu with rfl | rfl
  · rcases hw with rfl | rfl
    · simp_all [sampleAdd]
    · cases hf
  · cases he

theorem merges_converge_crossed :
    (sampleAdd.mergeDelta sampleRemove).eql (sampleRemove.mergeDelta sampleAdd) = true :=
  merges_converge sample_agree (sampleAdd_merged.merge sampleRemove_merged)
    (Set.union_comm _ _ ▸ sampleRemove_merged.merge sampleAdd_merged)

theorem contains_iff_kept_beside : (sampleAdd.mergeDelta sampleRemove).contains 7 = true := by
  refine (contains_iff_kept sample_agree (sampleAdd_merged.merge sampleRemove_merged) 7).mpr ?_
  refine ⟨sampleAdd, .inl rfl, ⟨2, 1⟩, by simp [HeldIn, sampleAdd], fun w hw => ?_⟩
  rcases hw with rfl | rfl <;> decide

end OnyxServer.Delta
