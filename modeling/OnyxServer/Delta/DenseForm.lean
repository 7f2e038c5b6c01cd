import OnyxServer.Delta.Member
import OnyxServer.Lib.Keyed

/-!
# The dense form

Expanding the frontier gives the dots it covers, sorting keeps the parallel arrays in step,
and the removes are the dots that no add holds. The view so filled is the one of a
canonical body that is determined by what the member holds.
-/
namespace OnyxServer.Delta

open Lib

/-- One counter a replica, and live adds of distinct dots that the context covers. -/
structure MemberEntry.Wf (entry : MemberEntry) : Prop where
  replicas : DistinctKeys VersionEntry.replica entry.context.entries
  counters : ∀ e ∈ entry.context.entries, e.counter ≠ 0
  dots : DistinctKeys MemberAdd.dot entry.adds
  covered : ∀ add ∈ entry.adds, add.dot.counter ≠ 0 ∧
    add.dot.counter ≤ entry.context.counter add.dot.replica

/-- An add of one dot. -/
def single (item : Bytes × Dot) : Bytes × List Dot := (item.1, [item.2])

/-- The three arrays of adds of one dot each. -/
def addArrays (items : List (Bytes × Dot)) : AddArrays :=
  ⟨layout 0 (items.map single), items.map (·.2), items.map (·.1)⟩

theorem layout_single (start : Nat) (items : List (Bytes × Dot)) (rest : List (Bytes × List Dot)) :
    layout start (items.map single ++ rest) =
      layout start (items.map single) ++ layout (start + items.length) rest := by
  induction items generalizing start with
  | nil => rfl
  | cons item items ih =>
    rw [List.map_cons, List.cons_append, layout, layout, ih]
    simp [single, Nat.add_assoc, Nat.add_comm 1]

theorem adds_split (l r : List (Bytes × Dot)) (b a : Bytes × Dot) :
    (addArrays (l ++ b :: a :: r)).adds = layout 0 (l.map single) ++
      ⟨b.1, l.length, 1⟩ :: ⟨a.1, l.length + 1, 1⟩ :: layout (l.length + 2) (r.map single) := by
  show layout 0 ((l ++ b :: a :: r).map single) = _
  rw [List.map_append, layout_single, Nat.zero_add]
  rfl

theorem layout_singles_length (items : List (Bytes × Dot)) :
    (layout 0 (items.map single)).length = items.length := by
  rw [layout_length, List.length_map]

theorem less_split (l r : List (Bytes × Dot)) (b a : Bytes × Dot) :
    (addArrays (l ++ b :: a :: r)).less (l.length + 1) = decide (a.1 < b.1) := by
  have hlen := layout_singles_length l
  have hafter : (addArrays (l ++ b :: a :: r)).adds[l.length + 1]? =
      some ⟨a.1, l.length + 1, 1⟩ := by
    rw [adds_split, ← hlen]
    simp
  have hbefore : (addArrays (l ++ b :: a :: r)).adds[l.length + 1 - 1]? =
      some ⟨b.1, l.length, 1⟩ := by
    rw [adds_split, Nat.add_sub_cancel]
    rw [List.getElem?_append_right hlen.le, hlen]
    simp
  unfold AddArrays.less
  rw [hafter, hbefore]

theorem modify_next {α : Type} (l r : List α) (x y : α) (f : α → α) :
    (l ++ x :: y :: r).modify (l.length + 1) f = l ++ x :: f y :: r := by
  simpa using modify_split (l ++ [x]) r y f

/-- The arrays stay in step when two neighbours are exchanged. -/
theorem swapBack_split (l r : List (Bytes × Dot)) (b a : Bytes × Dot) :
    (addArrays (l ++ b :: a :: r)).swapBack (l.length + 1) = addArrays (l ++ a :: b :: r) := by
  have hlen := layout_singles_length l
  have hadds : swapAt (addArrays (l ++ b :: a :: r)).adds l.length (l.length + 1) =
      layout 0 (l.map single) ++
      ⟨a.1, l.length + 1, 1⟩ :: ⟨b.1, l.length, 1⟩ :: layout (l.length + 2) (r.map single) := by
    rw [adds_split]
    have hswap := swapAt_split (layout 0 (l.map single)) (layout (l.length + 2) (r.map single))
      (⟨b.1, l.length, 1⟩ : Add) ⟨a.1, l.length + 1, 1⟩
    rwa [hlen] at hswap
  have hmap : ∀ {β : Type} (f : Bytes × Dot → β),
      swapAt ((l ++ b :: a :: r).map f) l.length (l.length + 1) = (l ++ a :: b :: r).map f := by
    intro β f
    have hswap := swapAt_split (l.map f) (r.map f) (f b) (f a)
    rw [List.length_map] at hswap
    simpa using hswap
  have hfirst : ((l ++ a :: b :: r).map (·.1)).getD (l.length + 1) [] = b.1 := by simp
  have hsecond : ((l ++ a :: b :: r).map (·.1)).getD l.length [] = a.1 := by simp
  have hvalues : swapAt (addArrays (l ++ b :: a :: r)).values l.length (l.length + 1) =
      (l ++ a :: b :: r).map (·.1) := hmap _
  have hdots : swapAt (addArrays (l ++ b :: a :: r)).addDots l.length (l.length + 1) =
      (l ++ a :: b :: r).map (·.2) := hmap _
  unfold AddArrays.swapBack
  simp only [Nat.add_sub_cancel, hadds, hvalues, hdots, hfirst, hsecond]
  have hnext := modify_next (layout 0 (l.map single)) (layout (l.length + 2) (r.map single))
    (⟨a.1, l.length + 1, 1⟩ : Add) ⟨b.1, l.length, 1⟩ fun add =>
      { add with value := b.1, dotsStart := l.length + 1 }
  rw [hlen] at hnext
  have hlast :=
    modify_split (layout 0 (l.map single))
    (⟨b.1, l.length + 1, 1⟩ :: layout (l.length + 2) (r.map single))
    (⟨a.1, l.length + 1, 1⟩ : Add) fun add => { add with value := a.1, dotsStart := l.length }
  rw [hlen] at hlast
  rw [hnext, hlast]
  show _ = AddArrays.mk (addArrays (l ++ a :: b :: r)).adds _ _
  rw [adds_split]

/-- The last add sinks to its place among the sorted ones before it. -/
theorem sinkAdd_spec (sorted r : List (Bytes × Dot)) (a : Bytes × Dot)
    (h : sorted.Pairwise fun x y => x.1 ≤ y.1) :
    ∃ ys : List (Bytes × Dot), sinkAdd sorted.length (addArrays (sorted ++ a :: r)) =
      addArrays (ys ++ r) ∧
      ys.Perm (a :: sorted) ∧ ys.Pairwise fun x y => x.1 ≤ y.1 := by
  induction sorted using List.reverseRecOn generalizing r with
  | nil => exact ⟨[a], rfl, List.Perm.refl _, List.pairwise_singleton _ _⟩
  | append_singleton init b ih =>
    obtain ⟨hinit, -, hbelow⟩ := List.pairwise_append.mp h
    rw [List.length_append, List.length_singleton, List.append_assoc, List.singleton_append,
      sinkAdd, less_split]
    by_cases hlt : a.1 < b.1
    · rw [if_pos (decide_eq_true hlt), swapBack_split]
      obtain ⟨ys, hys, hperm, hsorted⟩ := ih (b :: r) hinit
      refine ⟨ys ++ [b], by rw [hys, List.append_assoc]; rfl, ?_, ?_⟩
      · exact hperm.append_right [b]
      · refine List.pairwise_append.mpr ⟨hsorted, List.pairwise_singleton _ _, fun y hy z hz => ?_⟩
        rw [List.mem_singleton.mp hz]
        rcases List.mem_cons.mp (hperm.mem_iff.mp hy) with rfl | hy
        · exact hlt.le
        · exact hbelow y hy b (List.mem_singleton_self b)
    · rw [if_neg (by simpa using hlt)]
      refine ⟨init ++ [b] ++ [a], by simp, List.perm_append_singleton _ _, ?_⟩
      refine List.pairwise_append.mpr ⟨h, List.pairwise_singleton _ _, fun y hy z hz => ?_⟩
      rw [List.mem_singleton.mp hz]
      have hab : b.1 ≤ a.1 := not_lt.mp hlt
      rcases List.mem_append.mp hy with hy | hy
      · exact (hbelow y hy b (List.mem_singleton_self b)).trans hab
      · rw [List.mem_singleton.mp hy]
        exact hab

theorem sortAddsLoop_spec (sorted rest : List (Bytes × Dot))
    (h : sorted.Pairwise fun x y => x.1 ≤ y.1) :
    ∃ ys : List (Bytes × Dot), sortAddsLoop rest.length sorted.length (addArrays (sorted ++ rest)) =
      addArrays ys ∧
      ys.Perm (sorted ++ rest) ∧ ys.Pairwise fun x y => x.1 ≤ y.1 := by
  induction rest generalizing sorted with
  | nil => exact ⟨sorted, by rw [List.append_nil]; rfl, by rw [List.append_nil], h⟩
  | cons a rest ih =>
    obtain ⟨ys, hys, hperm, hsorted⟩ := sinkAdd_spec sorted rest a h
    obtain ⟨zs, hzs, hpermRest, hsortedRest⟩ := ih ys hsorted
    have hlen : ys.length = sorted.length + 1 := hperm.length_eq
    rw [List.length_cons, sortAddsLoop, hys, ← hlen]
    refine ⟨zs, hzs, hpermRest.trans ?_, hsortedRest⟩
    exact (hperm.append_right rest).trans List.perm_middle.symm

/-- Adds of distinct values are left in the one order. -/
theorem sortAdds_eq {items : List (Bytes × Dot)} (h : (items.map (·.1)).Nodup) :
    sortAdds (addArrays items) = addArrays (sortByKey (·.1) items) := by
  have hlen : (addArrays items).adds.length = items.length := layout_singles_length items
  unfold sortAdds
  rw [hlen]
  cases items with
  | nil => rfl
  | cons first rest =>
    obtain ⟨ys, hys, hperm, hsorted⟩ := sortAddsLoop_spec [first] rest (List.pairwise_singleton _ _)
    have hascending : Ascending (·.1) ys := by
      have hne := List.pairwise_map.mp ((hperm.map (·.1)).nodup_iff.mpr h)
      exact (hsorted.and hne).imp fun hab => lt_of_le_of_ne hab.1 hab.2
    refine hys.trans (congrArg addArrays (hascending.ext (sortByKey_ascending h) fun item => ?_))
    rw [hperm.mem_iff, (sortByKey_perm _ _).mem_iff]
    rfl

/-- The last `remaining` dots of an entry. -/
def lastDots (entry : VersionEntry) : Nat → List Dot
  | 0 => []
  | remaining + 1 => ⟨entry.replica, UInt64.ofNat (entry.counter.toNat - remaining)⟩ ::
      lastDots entry remaining

/-- The dots that a frontier covers. -/
def contextDots (entries : List VersionEntry) : List Dot :=
  entries.flatMap fun entry => lastDots entry entry.counter.toNat

theorem lastDots_length (entry : VersionEntry) (remaining : Nat) :
    (lastDots entry remaining).length = remaining := by
  induction remaining with
  | zero => rfl
  | succ remaining ih => rw [lastDots, List.length_cons, ih]

theorem contextDots_length (entries : List VersionEntry) :
    (contextDots entries).length = (entries.map fun entry => entry.counter.toNat).sum := by
  unfold contextDots
  rw [List.length_flatMap]
  simp only [lastDots_length]

variable {entry : VersionEntry} {remaining : Nat} {dot : Dot}

theorem mem_lastDots (h : remaining ≤ entry.counter.toNat) :
    dot ∈ lastDots entry remaining ↔ dot.replica = entry.replica ∧
      entry.counter.toNat - remaining < dot.counter.toNat ∧
      dot.counter.toNat ≤ entry.counter.toNat := by
  have hmax := entry.counter.toNat_lt
  induction remaining with
  | zero =>
    rw [lastDots]
    simp only [List.not_mem_nil, false_iff, not_and]
    omega
  | succ remaining ih =>
    have hcounter : (UInt64.ofNat (entry.counter.toNat - remaining)).toNat =
        entry.counter.toNat - remaining := by
      rw [UInt64.toNat_ofNat', Nat.mod_eq_of_lt (by omega)]
    have hrest : dot ∈ lastDots entry remaining ↔ _ := ih (by omega)
    rw [lastDots, List.mem_cons, hrest]
    constructor
    · rintro (rfl | ⟨hreplica, hlow, hhigh⟩)
      · refine ⟨rfl, ?_⟩
        show _ < (UInt64.ofNat _).toNat ∧ (UInt64.ofNat _).toNat ≤ _
        rw [hcounter]
        omega
      · exact ⟨hreplica, by omega, hhigh⟩
    · rintro ⟨hreplica, hlow, hhigh⟩
      by_cases heq : dot.counter.toNat = entry.counter.toNat - remaining
      · obtain ⟨replica, counter⟩ := dot
        refine .inl (Dot.mk.injEq .. ▸ ⟨hreplica, UInt64.toNat_inj.mp (hcounter.symm ▸ heq)⟩)
      · exact .inr ⟨hreplica, by omega, hhigh⟩

theorem lastDots_nodup (entry : VersionEntry) (h : remaining ≤ entry.counter.toNat) :
    (lastDots entry remaining).Nodup := by
  have hmax := entry.counter.toNat_lt
  induction remaining with
  | zero => exact List.nodup_nil
  | succ remaining ih =>
    refine List.nodup_cons.mpr ⟨fun hmem => ?_, ih (by omega)⟩
    obtain ⟨-, hlow, -⟩ := (mem_lastDots (by omega)).mp hmem
    have hcounter : (UInt64.ofNat (entry.counter.toNat - remaining)).toNat =
        entry.counter.toNat - remaining := by
      rw [UInt64.toNat_ofNat', Nat.mod_eq_of_lt (by omega)]
    have hlow' : entry.counter.toNat - remaining <
        (UInt64.ofNat (entry.counter.toNat - remaining)).toNat := hlow
    omega

variable {entries : List VersionEntry}

theorem mem_contextDots :
    dot ∈ contextDots entries ↔
      ∃ entry ∈ entries, dot.replica = entry.replica ∧ dot.counter ≠ 0 ∧
      dot.counter ≤ entry.counter := by
  unfold contextDots
  rw [List.mem_flatMap]
  refine exists_congr fun entry => and_congr_right fun _ => ?_
  rw [mem_lastDots (Nat.le_refl _), Nat.sub_self, Nat.pos_iff_ne_zero, UInt64.le_iff_toNat_le]
  refine and_congr_right fun _ => and_congr_left' (not_congr ?_)
  exact ⟨fun h => UInt64.toNat_inj.mp h, fun h => h ▸ rfl⟩

theorem find?_replica (h : DistinctKeys VersionEntry.replica entries)
    (hentry : entry ∈ entries) : (entries.find? fun e => e.replica == entry.replica) =
      some entry := by
  cases hfind : entries.find? fun e => e.replica == entry.replica with
  | none => exact absurd (List.find?_eq_none.mp hfind entry hentry) (by simp)
  | some e =>
    have hkey : (e.replica == entry.replica) = true :=
      List.find?_some (p := fun e : VersionEntry => e.replica == entry.replica) hfind
    rw [h.eq_of_key (List.mem_of_find?_eq_some hfind) hentry (beq_iff_eq.mp hkey)]

theorem counter_of_mem {vv : VersionVector} (h : DistinctKeys VersionEntry.replica vv.entries)
    (hentry : entry ∈ vv.entries) : vv.counter entry.replica = entry.counter := by
  unfold VersionVector.counter
  rw [find?_replica h hentry]

/-- The dots of a context are those up to its counters. -/
theorem mem_contextDots_iff {vv : VersionVector}
    (h : DistinctKeys VersionEntry.replica vv.entries) :
    dot ∈ contextDots vv.entries ↔ dot.counter ≠ 0 ∧ dot.counter ≤ vv.counter dot.replica := by
  rw [mem_contextDots]
  constructor
  · rintro ⟨entry, hentry, hreplica, hzero, hle⟩
    rw [hreplica, counter_of_mem h hentry]
    exact ⟨hzero, hle⟩
  · rintro ⟨hzero, hle⟩
    cases hfind : vv.entries.find? fun e => e.replica == dot.replica with
    | none =>
      unfold VersionVector.counter at hle
      rw [hfind] at hle
      exact absurd (UInt64.le_zero_iff.mp hle) hzero
    | some entry =>
      have hkey : (entry.replica == dot.replica) = true :=
        List.find?_some (p := fun e : VersionEntry => e.replica == dot.replica) hfind
      have hentry := List.mem_of_find?_eq_some hfind
      have hcounter := counter_of_mem h hentry
      rw [beq_iff_eq.mp hkey] at hcounter
      exact ⟨entry, hentry, (beq_iff_eq.mp hkey).symm, hzero, hcounter ▸ hle⟩

theorem contextDots_nodup (h : DistinctKeys VersionEntry.replica entries) :
    (contextDots entries).Nodup := by
  refine List.nodup_flatMap.mpr ⟨fun entry _ => lastDots_nodup entry (Nat.le_refl _), ?_⟩
  refine (distinctKeys_pairwise.mp h).imp fun {a b} hne => ?_
  intro dot hdot hother
  have hleft := ((mem_lastDots (Nat.le_refl _)).mp hdot).1
  have hright := ((mem_lastDots (Nat.le_refl _)).mp hother).1
  exact hne (hleft.symm.trans hright)

theorem maxContextDots_codecLimits : codecLimits.maxContextDots.toNat = 512 := rfl

theorem expandEntry_eq (entry : VersionEntry) {context : List Dot} (h : context.length ≤ 512) :
    expandEntry entry remaining context =
      if context.length + remaining ≤ 512 then .ok (context ++ lastDots entry remaining)
        else .error .oversize := by
  induction remaining generalizing context with
  | zero =>
    rw [if_pos (by omega), expandEntry, lastDots, List.append_nil]
  | succ remaining ih =>
    rw [expandEntry, maxContextDots_codecLimits]
    by_cases hfull : context.length = 512
    · rw [if_pos hfull, if_neg (by omega)]
    rw [if_neg hfull, ih (by rw [List.length_append, List.length_singleton]; omega),
      List.length_append,
      List.length_singleton, Nat.add_assoc, Nat.add_comm 1, List.append_assoc, lastDots]
    rfl

theorem expandEntries_eq (entries : List VersionEntry) {context : List Dot}
    (h : context.length ≤ 512) :
    expandEntries entries context =
      if context.length + (contextDots entries).length ≤
        512 then .ok (context ++ contextDots entries)
      else .error .oversize := by
  induction entries generalizing context with
  | nil =>
    simp [expandEntries, contextDots, h]
  | cons entry rest ih =>
    have hcons :
        contextDots (entry :: rest) = lastDots entry entry.counter.toNat ++ contextDots rest := rfl
    rw [expandEntries, expandEntry_eq entry h, hcons, List.length_append, lastDots_length]
    by_cases hfits : context.length + entry.counter.toNat ≤ 512
    · rw [if_pos hfits]
      show expandEntries rest (context ++ lastDots entry entry.counter.toNat) = _
      rw [ih (by rw [List.length_append, lastDots_length]; exact hfits), List.length_append,
        lastDots_length, List.append_assoc, Nat.add_assoc]
    · rw [if_neg hfits, if_neg (by omega)]
      rfl

theorem liveContains_iff {view : DeltaView} :
    liveContains view dot = true ↔ dot ∈ view.addDots := by
  obtain ⟨replica, counter⟩ := dot
  unfold liveContains dotEql
  simp only [List.any_eq_true, Bool.and_eq_true, beq_iff_eq]
  constructor
  · rintro ⟨⟨r, c⟩, hmem, rfl, rfl⟩
    exact hmem
  · exact fun hmem => ⟨_, hmem, rfl, rfl⟩

theorem removesLoop_eq {view : DeltaView} {rest removes : List Dot}
    (h : removes.length + rest.length ≤ 512) :
    removesLoop view rest removes = .ok (removes ++ rest.filter fun dot => dot ∉ view.addDots) := by
  have hmax : codecLimits.maxRemoveDots.toNat = 512 := rfl
  induction rest generalizing removes with
  | nil => simp [removesLoop]
  | cons dot rest ih =>
    rw [List.length_cons] at h
    rw [removesLoop, hmax]
    by_cases hlive : dot ∈ view.addDots
    · rw [if_pos (liveContains_iff.mpr hlive), ih (by omega),
        List.filter_cons_of_neg (by simpa using hlive)]
    rw [if_neg (fun h => hlive (liveContains_iff.mp h)), if_neg (by omega),
      ih (by rw [List.length_append, List.length_singleton]; omega),
      List.filter_cons_of_pos (by simpa using hlive), List.append_assoc]
    rfl

end OnyxServer.Delta
