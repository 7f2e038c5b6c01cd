import Mathlib.Data.List.Flatten
import Mathlib.Data.List.Perm.Basic
import OnyxServer.Delta.OrSet

/-!
# What a set holds

A set is the context it has seen and the dots each value is held by. In a reachable set no
dot holds two values and every one of them has been seen, so a merge is described by what
it holds, whatever the order of the arrays.
-/
namespace OnyxServer.Delta

open Lib List

variable {T : Type}

def HeldIn (entries : List (Entry T)) (value : T) (dot : Dot) : Prop :=
  ∃ e ∈ entries, e.value = value ∧ dot ∈ e.dots

def liveIn (entries : List (Entry T)) : List Dot := entries.flatMap (·.dots)

variable {entries : List (Entry T)} {dot : Dot}

theorem mem_liveIn : dot ∈ liveIn entries ↔ ∃ value, HeldIn entries value dot := by
  unfold liveIn HeldIn
  rw [mem_flatMap]
  constructor
  · rintro ⟨e, he, hdot⟩
    exact ⟨e.value, e, he, rfl, hdot⟩
  · rintro ⟨value, e, he, -, hdot⟩
    exact ⟨e, he, hdot⟩

/-- Entries of distinct values, each held by some dots, and no dot twice. -/
structure EntriesWf (entries : List (Entry T)) : Prop where
  values : DistinctKeys (·.value) entries
  dots : (liveIn entries).Nodup
  nonempty : ∀ e ∈ entries, e.dots ≠ []

structure OrSet.Wf (set : OrSet T) : Prop where
  entries : EntriesWf set.entries
  covered : ∀ dot ∈ liveIn set.entries, dot ∈ set.cc
  context : set.cc.Nodup
  counters : ∀ dot ∈ set.cc, dot.counter ≠ 0

theorem EntriesWf.perm {xs ys : List (Entry T)} (h : EntriesWf xs) (hperm : ys.Perm xs) :
    EntriesWf ys :=
  ⟨h.values.perm hperm, (List.Perm.nodup_iff (hperm.flatMap_right Entry.dots)).mpr h.dots,
    fun e he => h.nonempty e (hperm.mem_iff.mp he)⟩

variable {value : T}

theorem heldIn_perm {xs ys : List (Entry T)} (hperm : ys.Perm xs) :
    HeldIn ys value dot ↔ HeldIn xs value dot :=
  exists_congr fun _ => and_congr_left' hperm.mem_iff

theorem liveIn_split (l r : List (Entry T)) (e : Entry T) :
    (liveIn (l ++ e :: r)).Perm (e.dots ++ liveIn (l ++ r)) := by
  unfold liveIn
  rw [flatMap_append, flatMap_cons, flatMap_append]
  exact perm_append_comm_assoc _ _ _

theorem heldIn_split {l r : List (Entry T)} {e : Entry T} :
    HeldIn (l ++ e :: r) value dot ↔ (e.value = value ∧ dot ∈ e.dots) ∨
    HeldIn (l ++ r) value dot := by
  unfold HeldIn
  simp only [mem_split]
  constructor
  · rintro ⟨f, rfl | hf, hrest⟩
    · exact .inl hrest
    · exact .inr ⟨f, hf, hrest⟩
  · rintro (hrest | ⟨f, hf, hrest⟩)
    · exact ⟨e, .inl rfl, hrest⟩
    · exact ⟨f, .inr hf, hrest⟩

theorem OrSet.Wf.init (replicaId : UInt64) : (OrSet.init replicaId : OrSet T).Wf :=
  ⟨⟨distinctKeys_nil _, nodup_nil, by simp [OrSet.init]⟩, by simp [OrSet.init, liveIn], nodup_nil,
    by simp [OrSet.init]⟩

theorem same_length {α : Type} {xs ys : List α} (hx : xs.Nodup) (hy : ys.Nodup)
    (h : ∀ a, a ∈ xs ↔ a ∈ ys) :
    xs.length = ys.length :=
  ((perm_ext_iff_of_nodup hx hy).mpr h).length_eq

theorem entry_dots_iff (h : EntriesWf entries) {e : Entry T} (he : e ∈ entries) :
    dot ∈ e.dots ↔ HeldIn entries e.value dot := by
  refine ⟨fun hd => ⟨e, he, rfl, hd⟩, ?_⟩
  rintro ⟨f, hf, hvalue, hd⟩
  exact h.values.eq_of_key hf he hvalue ▸ hd

theorem EntriesWf.entry_nodup (h : EntriesWf entries) {e : Entry T} (he : e ∈ entries) :
    e.dots.Nodup := (nodup_flatMap.mp h.dots).1 e he

theorem mem_values_iff (h : EntriesWf entries) :
    value ∈ entries.map (·.value) ↔ ∃ dot, HeldIn entries value dot := by
  rw [mem_map]
  constructor
  · rintro ⟨e, he, rfl⟩
    obtain ⟨dot, hdot⟩ := exists_mem_of_ne_nil _ (h.nonempty e he)
    exact ⟨dot, e, he, rfl, hdot⟩
  · rintro ⟨dot, e, he, rfl, -⟩
    exact ⟨e, he, rfl⟩

/-- The dots of a delta, each with its value. -/
def held (entries : List (Entry T)) : List (T × Dot) :=
  entries.flatMap fun e => e.dots.map fun dot => (e.value, dot)

theorem mem_held : (value, dot) ∈ held entries ↔ HeldIn entries value dot := by
  unfold held HeldIn
  simp only [mem_flatMap, mem_map, Prod.mk.injEq]
  constructor
  · rintro ⟨e, he, d, hd, rfl, rfl⟩
    exact ⟨e, he, rfl, hd⟩
  · rintro ⟨e, he, rfl, hd⟩
    exact ⟨e, he, dot, hd, rfl, rfl⟩

theorem held_dots (entries : List (Entry T)) : (held entries).map (·.2) = liveIn entries := by
  unfold held liveIn
  rw [map_flatMap]
  refine flatMap_congr fun e _ => ?_
  rw [map_map]
  exact map_id _

variable {cc : List Dot}

theorem mem_observe {dot other : Dot} : other ∈ observe cc dot ↔ other ∈ cc ∨ other = dot := by
  unfold observe
  split
  · rename_i hmem
    exact ⟨.inl, fun h => h.elim id fun heq => heq ▸ hmem⟩
  · simp

theorem observe_nodup (h : cc.Nodup) (dot : Dot) : (observe cc dot).Nodup := by
  unfold observe
  split
  · exact h
  · rename_i hnot
    exact nodup_append.mpr ⟨h, nodup_singleton dot, fun a ha b hb hab =>
      hnot (mem_singleton.mp hb ▸ hab ▸ ha)⟩

theorem mem_mergeContext {cc other : List Dot} :
    dot ∈ mergeContext cc other ↔ dot ∈ cc ∨ dot ∈ other := by
  unfold mergeContext
  induction other generalizing cc with
  | nil => simp
  | cons d other ih =>
    rw [foldl_cons, ih, mem_observe, mem_cons, or_assoc]

theorem mergeContext_nodup (h : cc.Nodup) (other : List Dot) : (mergeContext cc other).Nodup := by
  unfold mergeContext
  induction other generalizing cc with
  | nil => exact h
  | cons d other ih => exact ih (observe_nodup h d)

theorem le_maxCounter {replica : UInt64} (hdot : dot ∈ cc) (hreplica : dot.replica = replica) :
    dot.counter ≤ maxCounter replica cc := by
  have hgrow : ∀ (cc : List Dot) (best : UInt64), best ≤
      cc.foldl (fun best dot => if dot.replica = replica ∧
        best < dot.counter then dot.counter else best) best := by
    intro cc
    induction cc with
    | nil => exact fun best => le_refl best
    | cons d cc ih =>
      intro best
      refine le_trans ?_ (ih _)
      dsimp only
      split
      · rename_i hlt
        exact hlt.2.le
      · exact le_refl best
  obtain ⟨l, r, rfl⟩ := append_of_mem hdot
  unfold maxCounter
  rw [foldl_append, foldl_cons]
  refine le_trans ?_ (hgrow r _)
  split
  · exact le_refl _
  · rename_i hnot
    push Not at hnot
    exact hnot hreplica

/-- A fresh dot has not been seen. -/
theorem nextDot_spec {cc after : List Dot} {replica : UInt64}
    (h : nextDot cc replica = some (dot, after)) :
    dot ∉ cc ∧ dot.counter ≠ 0 ∧ after = observe cc dot := by
  unfold nextDot at h
  split at h
  · rename_i hroom
    cases h
    have hnext : (maxCounter replica cc + 1).toNat = (maxCounter replica cc).toNat + 1 := by
      rw [UInt64.toNat_add]
      exact Nat.mod_eq_of_lt hroom
    refine ⟨fun hmem => ?_, fun hzero => ?_, rfl⟩
    · have hle : maxCounter replica cc + 1 ≤ maxCounter replica cc := le_maxCounter hmem rfl
      rw [UInt64.le_iff_toNat_le, hnext] at hle
      omega
    · have hzero' : maxCounter replica cc + 1 = 0 := hzero
      rw [hzero'] at hnext
      exact absurd hnext (by simp)
  · cases h

variable {delta : OrSet T}

theorem hasLiveDot_iff : delta.hasLiveDot dot = true ↔ dot ∈ liveIn delta.entries := by
  unfold OrSet.hasLiveDot liveIn
  simp [any_eq_true, mem_flatMap]

theorem forgets_iff :
    delta.forgets dot = false ↔ (dot ∈ delta.cc → dot ∈ liveIn delta.entries) := by
  unfold OrSet.forgets
  rw [Bool.and_eq_false_iff, decide_eq_false_iff_not, Bool.not_eq_false', hasLiveDot_iff,
    imp_iff_not_or]

/-- An entry without the dots that the delta forgets. -/
def sweepEntry (delta : OrSet T) (entry : Entry T) : Entry T :=
  { entry with dots := swapSweep delta.forgets entry.dots.length 0 entry.dots }

theorem sweepEntry_perm (delta : OrSet T) (entry : Entry T) :
    (sweepEntry delta entry).dots.Perm (entry.dots.filter (!delta.forgets ·)) :=
  swapSweep_perm delta.forgets entry.dots.length [] entry.dots (Nat.le_refl _)

theorem removeDotsLoop_perm (delta : OrSet T) (fuel : Nat) (kept rest : List (Entry T))
    (hfuel : rest.length ≤ fuel) :
    (removeDotsLoop delta fuel kept.length (kept ++ rest)).Perm
      (kept ++ (rest.map (sweepEntry delta)).filter fun e => e.dots ≠ []) := by
  induction fuel generalizing kept rest with
  | zero =>
    obtain rfl := length_eq_zero_iff.mp (Nat.le_zero.mp hfuel)
    exact List.Perm.refl _
  | succ fuel ih =>
    cases rest with
    | nil => simp [removeDotsLoop]
    | cons e rest =>
      have hat : (kept ++ e :: rest)[kept.length]? = some e := by simp
      simp only [removeDotsLoop, hat]
      rw [length_cons] at hfuel
      change (if (sweepEntry delta e).dots.length = 0 then _
        else removeDotsLoop delta fuel (kept.length + 1)
        ((kept ++ e :: rest).set kept.length (sweepEntry delta e))).Perm _
      rw [map_cons]
      by_cases hempty : (sweepEntry delta e).dots = []
      · rw [if_pos (length_eq_zero_iff.mpr hempty), filter_cons_of_neg (by simpa using hempty)]
        obtain ⟨rest', hperm, hswap⟩ := swapRemove_split kept rest e
        rw [hswap]
        refine (ih kept rest' (by rw [hperm.length_eq]; omega)).trans ?_
        exact ((hperm.map _).filter _).append_left kept
      · rw [if_neg (fun h => hempty (length_eq_zero_iff.mp h)),
          filter_cons_of_pos (by simpa using hempty), set_split]
        have hnext := ih (kept ++ [sweepEntry delta e]) rest (by omega)
        rw [length_append, length_singleton, append_assoc] at hnext
        simpa using hnext

theorem heldIn_sweep :
    HeldIn ((entries.map (sweepEntry delta)).filter fun e => e.dots ≠ []) value dot ↔
      HeldIn entries value dot ∧ delta.forgets dot = false := by
  unfold HeldIn
  constructor
  · rintro ⟨e, he, rfl, hdot⟩
    obtain ⟨f, hf, rfl⟩ := mem_map.mp (mem_filter.mp he).1
    obtain ⟨hmem, hkept⟩ := mem_filter.mp ((sweepEntry_perm delta f).mem_iff.mp hdot)
    exact ⟨⟨f, hf, rfl, hmem⟩, by simpa using hkept⟩
  · rintro ⟨⟨f, hf, rfl, hmem⟩, hkept⟩
    have hdot : dot ∈ (sweepEntry delta f).dots :=
      (sweepEntry_perm delta f).mem_iff.mpr (mem_filter.mpr ⟨hmem, by simpa using hkept⟩)
    refine ⟨sweepEntry delta f, mem_filter.mpr ⟨mem_map_of_mem hf, ?_⟩, rfl, hdot⟩
    simpa using ne_nil_of_mem hdot

/-- What is left of the dots after the ones the delta forgets, with every entry still held. -/
theorem removeDots_spec (h : EntriesWf entries) (delta : OrSet T) :
    EntriesWf (removeDotsDominatedBy entries delta) ∧
      ∀ v d, HeldIn (removeDotsDominatedBy entries delta) v d ↔ HeldIn entries v d ∧
      delta.forgets d = false := by
  have hperm := removeDotsLoop_perm delta entries.length [] entries (Nat.le_refl _)
  have hvalues : DistinctKeys (·.value) (entries.map (sweepEntry delta)) := by
    unfold DistinctKeys
    rw [map_map]
    exact h.values
  have hlive : (liveIn (entries.map (sweepEntry delta))).Nodup := by
    have hfilter :
        (liveIn (entries.map (sweepEntry delta))).Perm
        ((liveIn entries).filter (!delta.forgets ·)) := by
      unfold liveIn
      rw [flatMap_map, filter_flatMap]
      exact List.Perm.flatMap_left _ fun e _ => sweepEntry_perm delta e
    exact hfilter.nodup_iff.mpr (h.dots.filter _)
  have hwf : EntriesWf ((entries.map (sweepEntry delta)).filter fun e => e.dots ≠ []) := by
    refine ⟨hvalues.sublist filter_sublist, ?_, fun e he => by simpa using (mem_filter.mp he).2⟩
    exact hlive.sublist (filter_sublist.flatMap _)
  refine ⟨hwf.perm hperm, fun v d => ?_⟩
  exact (heldIn_perm hperm).trans heldIn_sweep

variable [DecidableEq T]

theorem findEntryIndex_some {idx : Nat} (h : findEntryIndex entries value = some idx) :
    ∃ l e r, entries = l ++ e :: r ∧ l.length = idx ∧ e.value = value := by
  obtain ⟨l, e, r, hsplit, hlen, he, -⟩ := findIdx?_split h
  exact ⟨l, e, r, hsplit, hlen, of_decide_eq_true he⟩

theorem findEntryIndex_none (h : findEntryIndex entries value = none) :
    ∀ e ∈ entries, e.value ≠ value := by
  intro e he
  exact of_decide_eq_false (List.findIdx?_eq_none_iff.mp h e he)

theorem addDot_spec (h : EntriesWf entries) (value : T)
    (hnew : dot ∉ liveIn entries) :
    EntriesWf (addDot entries value dot) ∧
    (liveIn (addDot entries value dot)).Perm (dot :: liveIn entries) ∧
      ∀ v d, HeldIn (addDot entries value dot) v d ↔ HeldIn entries v d ∨
      (v = value ∧ d = dot) := by
  unfold addDot
  cases hfind : findEntryIndex entries value with
  | some idx =>
    obtain ⟨l, e, r, rfl, rfl, rfl⟩ := findEntryIndex_some hfind
    have hout : dot ∉ e.dots :=
      fun hmem => hnew (mem_liveIn.mpr ⟨e.value, e, mem_split.mpr (.inl rfl), rfl, hmem⟩)
    simp only [modify_split, if_neg hout]
    have hlive :
        (liveIn (l ++ ⟨e.value, e.dots ++ [dot]⟩ :: r)).Perm (dot :: liveIn (l ++ e :: r)) := by
      refine (liveIn_split l r _).trans ?_
      rw [append_assoc, singleton_append]
      exact perm_middle.trans ((liveIn_split l r e).symm.cons dot)
    refine ⟨⟨h.values.replace rfl, hlive.nodup_iff.mpr (nodup_cons.mpr ⟨hnew, h.dots⟩),
      fun f hf => ?_⟩, hlive, fun v d => ?_⟩
    · rcases mem_split.mp hf with rfl | hf
      · simp
      · exact h.nonempty f (mem_split.mpr (.inr hf))
    · rw [heldIn_split, heldIn_split]
      simp only [mem_append, mem_singleton]
      constructor
      · rintro (⟨rfl, hd | rfl⟩ | hrest)
        · exact .inl (.inl ⟨rfl, hd⟩)
        · exact .inr ⟨rfl, rfl⟩
        · exact .inl (.inr hrest)
      · rintro ((⟨rfl, hd⟩ | hrest) | ⟨rfl, rfl⟩)
        · exact .inl ⟨rfl, .inl hd⟩
        · exact .inr hrest
        · exact .inl ⟨rfl, .inr rfl⟩
  | none =>
    have hfresh := findEntryIndex_none hfind
    have hlive : (liveIn (entries ++ [⟨value, [dot]⟩])).Perm (dot :: liveIn entries) := by
      unfold liveIn
      rw [flatMap_append]
      exact perm_append_singleton dot _
    refine ⟨⟨h.values.concat hfresh, hlive.nodup_iff.mpr (nodup_cons.mpr ⟨hnew, h.dots⟩),
      fun f hf => ?_⟩, hlive, fun v d => ?_⟩
    · rcases mem_append.mp hf with hf | hf
      · exact h.nonempty f hf
      · rw [mem_singleton.mp hf]
        simp
    · unfold HeldIn
      simp only [mem_append, mem_singleton]
      constructor
      · rintro ⟨f, hf | rfl, rfl, hd⟩
        · exact .inl ⟨f, hf, rfl, hd⟩
        · exact .inr ⟨rfl, mem_singleton.mp hd⟩
      · rintro (⟨f, hf, hrest⟩ | ⟨rfl, rfl⟩)
        · exact ⟨f, .inl hf, hrest⟩
        · exact ⟨_, .inr rfl, rfl, mem_singleton_self _⟩

theorem applyAdds_eq (cc : List Dot) (entries : List (Entry T)) (delta : OrSet T) :
    applyAddsNotDominated cc entries delta =
      (held delta.entries).foldl (fun entries pair => if pair.2 ∈ cc then entries
        else addDot entries pair.1 pair.2)
        entries := by
  unfold applyAddsNotDominated held
  rw [foldl_flatMap]
  congr 1
  funext entries e
  rw [foldl_map]

theorem addAll_spec (h : EntriesWf entries) (cc : List Dot) {pairs : List (T × Dot)}
    (hnodup : (pairs.map (·.2)).Nodup)
    (hnew : ∀ dot ∈ pairs.map (·.2), dot ∉ cc → dot ∉ liveIn entries) :
    EntriesWf
      (pairs.foldl (fun entries pair => if pair.2 ∈ cc then entries
        else addDot entries pair.1 pair.2) entries) ∧
      ∀ v d, HeldIn
          (pairs.foldl (fun entries pair => if pair.2 ∈ cc then entries
            else addDot entries pair.1 pair.2)
        entries) v d ↔ HeldIn entries v d ∨ ((v, d) ∈ pairs ∧ d ∉ cc) := by
  induction pairs generalizing entries with
  | nil => exact ⟨h, fun v d => by simp⟩
  | cons pair pairs ih =>
    obtain ⟨value, dot⟩ := pair
    rw [map_cons] at hnodup hnew
    obtain ⟨hout, hrest⟩ := nodup_cons.mp hnodup
    rw [foldl_cons]
    by_cases hseen : dot ∈ cc
    · rw [if_pos hseen]
      obtain ⟨hwf, hheld⟩ := ih h hrest fun d hd => hnew d (mem_cons_of_mem _ hd)
      refine ⟨hwf, fun v d => (hheld v d).trans (or_congr_right ?_)⟩
      simp only [mem_cons, Prod.mk.injEq]
      constructor
      · exact fun hpair => ⟨.inr hpair.1, hpair.2⟩
      · rintro ⟨⟨rfl, rfl⟩ | hpair, hnot⟩
        · exact absurd hseen hnot
        · exact ⟨hpair, hnot⟩
    · rw [if_neg hseen]
      obtain ⟨hadd, hlive, hheldAdd⟩ := addDot_spec h value (hnew dot mem_cons_self hseen)
      obtain ⟨hwf, hheld⟩ := ih hadd hrest fun d hd hnot hmem => by
        rcases mem_cons.mp (hlive.mem_iff.mp hmem) with rfl | hmem
        · exact hout hd
        · exact hnew d (mem_cons_of_mem _ hd) hnot hmem
      refine ⟨hwf, fun v d => ?_⟩
      rw [hheld, hheldAdd, or_assoc]
      refine or_congr_right ?_
      simp only [mem_cons, Prod.mk.injEq]
      constructor
      · rintro (⟨rfl, rfl⟩ | ⟨hpair, hnot⟩)
        · exact ⟨.inl ⟨rfl, rfl⟩, hseen⟩
        · exact ⟨.inr hpair, hnot⟩
      · rintro ⟨hpair | hpair, hnot⟩
        · exact .inl hpair
        · exact .inr ⟨hpair, hnot⟩

/-- What a merge holds: its own dots that the delta does not forget, and the delta's dots
that it had not seen. -/
theorem mergeDelta_spec {self delta : OrSet T} (h : self.Wf) (hdelta : delta.Wf) :
    (self.mergeDelta delta).Wf ∧
    (∀ d, d ∈ (self.mergeDelta delta).cc ↔ d ∈ self.cc ∨ d ∈ delta.cc) ∧
      ∀ v d, HeldIn (self.mergeDelta delta).entries v d ↔
        (HeldIn self.entries v d ∧ (d ∈ delta.cc → d ∈ liveIn delta.entries)) ∨
          (HeldIn delta.entries v d ∧ d ∉ self.cc) := by
  obtain ⟨hremoved, hheldRemoved⟩ := removeDots_spec h.entries delta
  have hpairs : ((held delta.entries).map (·.2)).Nodup := by
    rw [held_dots]
    exact hdelta.entries.dots
  have hnew : ∀ d ∈ (held delta.entries).map (·.2), d ∉ self.cc →
      d ∉ liveIn (removeDotsDominatedBy self.entries delta) := by
    intro d _ hunseen hmem
    obtain ⟨v, hv⟩ := mem_liveIn.mp hmem
    exact hunseen (h.covered d (mem_liveIn.mpr ⟨v, ((hheldRemoved v d).mp hv).1⟩))
  obtain ⟨hwf, hheld⟩ := addAll_spec hremoved self.cc hpairs hnew
  rw [← applyAdds_eq] at hwf hheld
  have hmeaning : ∀ v d, HeldIn (self.mergeDelta delta).entries v d ↔
      (HeldIn self.entries v d ∧ (d ∈ delta.cc → d ∈ liveIn delta.entries)) ∨
        (HeldIn delta.entries v d ∧ d ∉ self.cc) := fun v d => by
    refine (hheld v d).trans ?_
    rw [hheldRemoved, forgets_iff, mem_held]
  have hcc : ∀ d, d ∈ (self.mergeDelta delta).cc ↔ d ∈ self.cc ∨
      d ∈ delta.cc := fun d => mem_mergeContext
  refine ⟨⟨hwf, fun d hd => ?_, mergeContext_nodup h.context _, fun d hd => ?_⟩, hcc, hmeaning⟩
  · obtain ⟨v, hv⟩ := mem_liveIn.mp hd
    rcases (hmeaning v d).mp hv with ⟨hheldSelf, -⟩ | ⟨hheldDelta, -⟩
    · exact (hcc d).mpr (.inl (h.covered d (mem_liveIn.mpr ⟨v, hheldSelf⟩)))
    · exact (hcc d).mpr (.inr (hdelta.covered d (mem_liveIn.mpr ⟨v, hheldDelta⟩)))
  · exact ((hcc d).mp hd).elim (h.counters d) (hdelta.counters d)

theorem add_wf {self delta after : OrSet T} (h : self.Wf)
    (hadd : self.add value = some (delta, after)) :
    after.Wf ∧ delta.Wf := by
  unfold OrSet.add at hadd
  split at hadd
  · cases hadd
  rename_i dot cc hnext
  obtain ⟨hunseen, hcounter, rfl⟩ := nextDot_spec hnext
  cases hadd
  have hnew : dot ∉ liveIn self.entries := fun hmem => hunseen (h.covered dot hmem)
  have hempty : EntriesWf ([] : List (Entry T)) := ⟨distinctKeys_nil _, nodup_nil, by simp⟩
  obtain ⟨hwf, hlive, -⟩ := addDot_spec h.entries value hnew
  obtain ⟨hwfDelta, hliveDelta, -⟩ :=
    addDot_spec hempty value (show dot ∉ liveIn ([] : List (Entry T)) by simp [liveIn])
  constructor
  · refine ⟨hwf, fun d hd => mem_observe.mpr ?_, observe_nodup h.context dot, fun d hd => ?_⟩
    · rcases mem_cons.mp (hlive.mem_iff.mp hd) with rfl | hd
      · exact .inr rfl
      · exact .inl (h.covered d hd)
    · exact (mem_observe.mp hd).elim (h.counters d) fun heq => heq ▸ hcounter
  · refine ⟨hwfDelta, fun d hd => ?_, observe_nodup nodup_nil dot, fun d hd => ?_⟩
    · show d ∈ observe [] dot
      rcases mem_cons.mp (hliveDelta.mem_iff.mp hd) with rfl | hd
      · exact mem_observe.mpr (.inr rfl)
      · cases hd
    · have hseen : d ∈ observe [] dot := hd
      exact (mem_observe.mp hseen).elim (fun hmem => nomatch hmem) fun heq => heq ▸ hcounter

theorem remove_wf {self : OrSet T} (h : self.Wf) (value : T) :
    (self.remove value).2.Wf ∧ (self.remove value).1.Wf := by
  unfold OrSet.remove
  cases hfind : findEntryIndex self.entries value with
  | none => exact ⟨h, OrSet.Wf.init _⟩
  | some idx =>
    obtain ⟨l, e, r, hentries, rfl, rfl⟩ := findEntryIndex_some hfind
    have hat : self.entries[l.length]? =
        some e := by rw [hentries, List.getElem?_append_right (Nat.le_refl _)]; simp
    have hin : ∀ d ∈ e.dots, d ∈ self.cc := fun d hd =>
      h.covered d
        (mem_liveIn.mpr ⟨e.value, e, by rw [hentries]; exact mem_split.mpr (.inl rfl), rfl, hd⟩)
    have hperm : (swapRemove self.entries l.length).Perm (l ++ r) :=
      hentries ▸ swapRemove_perm l r e
    have hsub : (l ++ r).Sublist self.entries := hentries ▸ (sublist_cons_self e r).append_left l
    have hrest : EntriesWf (l ++ r) :=
      ⟨h.entries.values.sublist hsub, h.entries.dots.sublist (hsub.flatMap _),
      fun f hf => h.entries.nonempty f (hsub.subset hf)⟩
    simp only [hat]
    constructor
    · refine ⟨hrest.perm hperm, fun d hd => mem_mergeContext.mpr (.inl ?_),
        mergeContext_nodup h.context _, fun d hd => ?_⟩
      · have hmem : d ∈ liveIn (l ++ r) := (hperm.flatMap_right Entry.dots).mem_iff.mp hd
        exact h.covered d ((hsub.flatMap Entry.dots).subset hmem)
      · exact (mem_mergeContext.mp hd).elim (h.counters d) fun hd => h.counters d (hin d hd)
    · refine ⟨⟨distinctKeys_nil _, nodup_nil, by simp⟩, by
        simp [liveIn], mergeContext_nodup nodup_nil _, fun d hd => ?_⟩
      exact (mem_mergeContext.mp hd).elim (fun hmem => nomatch hmem) fun hd =>
        h.counters d (hin d hd)

theorem Reachable.wf {self : OrSet T} (h : Reachable self) : self.Wf := by
  induction h with
  | init replicaId => exact OrSet.Wf.init replicaId
  | add value h hadd ih => exact (add_wf ih hadd).1
  | addDelta value h hadd ih => exact (add_wf ih hadd).2
  | remove value h ih => exact (remove_wf ih value).1
  | removeDelta value h ih => exact (remove_wf ih value).2
  | mergeDelta h hdelta ih ihdelta => exact (mergeDelta_spec ih ihdelta).1
  | rehash h hperm ih =>
    exact ⟨ih.entries, fun d hd => hperm.mem_iff.mpr (ih.covered d hd),
      hperm.nodup_iff.mpr ih.context, fun d hd => ih.counters d (hperm.mem_iff.mp hd)⟩

/-- Two sets of the same context that hold the same. -/
def SameSet (a b : OrSet T) : Prop :=
  (∀ d, d ∈ a.cc ↔ d ∈ b.cc) ∧ ∀ v d, HeldIn a.entries v d ↔ HeldIn b.entries v d

/-- Sets that hold the same are equal to the code. -/
theorem eql_of_same {a b : OrSet T} (ha : a.Wf) (hb : b.Wf) (h : SameSet a b) : a.eql b = true := by
  have hentries : a.entries.length = b.entries.length := by
    have hvalues := same_length ha.entries.values hb.entries.values fun v => by
      rw [mem_values_iff ha.entries, mem_values_iff hb.entries]
      exact exists_congr (h.2 v)
    rwa [length_map, length_map] at hvalues
  unfold OrSet.eql contextEql
  rw [Bool.and_eq_true, Bool.and_eq_true, Bool.and_eq_true, beq_iff_eq, beq_iff_eq, all_eq_true,
    all_eq_true]
  refine ⟨⟨⟨same_length ha.context hb.context h.1, fun d hd => decide_eq_true ((h.1 d).mp hd)⟩,
    hentries⟩, fun e he => ?_⟩
  cases hfind : findEntryIndex b.entries e.value with
  | none =>
    obtain ⟨dot, hdot⟩ := exists_mem_of_ne_nil _ (ha.entries.nonempty e he)
    obtain ⟨f, hf, hvalue, -⟩ := (h.2 e.value dot).mp ⟨e, he, rfl, hdot⟩
    exact absurd hvalue (findEntryIndex_none hfind f hf)
  | some idx =>
    obtain ⟨l, f, r, hb', rfl, hvalue⟩ := findEntryIndex_some hfind
    have hf : f ∈ b.entries := by
      rw [hb']
      exact mem_split.mpr (.inl rfl)
    have hat : b.entries[l.length]? =
        some f := by rw [hb', List.getElem?_append_right (Nat.le_refl _)]; simp
    have hdots : ∀ d, d ∈ e.dots ↔ d ∈ f.dots := fun d => by
      rw [entry_dots_iff ha.entries he, entry_dots_iff hb.entries hf, hvalue]
      exact h.2 _ d
    simp only [hat, dotListsEql]
    rw [Bool.and_eq_true, beq_iff_eq, all_eq_true]
    exact ⟨same_length (ha.entries.entry_nodup he) (hb.entries.entry_nodup hf) hdots,
      fun d hd => decide_eq_true ((hdots d).mp hd)⟩

/-- Deltas that hold the same have the same effect. -/
theorem mergeDelta_same {target a b : OrSet T} (htarget : target.Wf) (ha : a.Wf) (hb : b.Wf)
    (h : SameSet a b) :
    (target.mergeDelta a).eql (target.mergeDelta b) = true := by
  obtain ⟨hwfA, hccA, hheldA⟩ := mergeDelta_spec htarget ha
  obtain ⟨hwfB, hccB, hheldB⟩ := mergeDelta_spec htarget hb
  have hlive : ∀ d, d ∈ liveIn a.entries ↔ d ∈ liveIn b.entries := fun d => by
    rw [mem_liveIn, mem_liveIn]
    exact exists_congr fun v => h.2 v d
  refine eql_of_same hwfA hwfB ⟨fun d => ?_, fun v d => ?_⟩
  · rw [hccA, hccB, h.1]
  · rw [hheldA, hheldB, h.1, hlive, h.2]

end OnyxServer.Delta
