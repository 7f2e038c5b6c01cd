import OnyxServer.Store.TablePlan

/-!
# Tables refine maps

From an empty table, any puts, deletions, reservations and batches leave the map they
describe. A batch means its edits in order, by whichever path its plan was made.
-/
namespace OnyxServer.Store

open Lib List

variable {keyHash : KeyHash} {slot : Slot} {slots : List Slot} {key : Bytes} {cap : Nat}
  {m r target : Bytes → Option Bytes} {plan : TablePlan} {table : KvTable} {edit : Edit}
    {edits final : List Edit}
  {located : List Located} {alloc : Bool} {rows : Nat}

/-- What the edits do to a map, one after the other. -/
def applyEdits (edits : List Edit) (m : Bytes → Option Bytes) : Bytes → Option Bytes :=
  edits.foldl (fun m edit => Function.update m edit.key edit.value) m

/-- One edit for each key, together the target. -/
structure Finals (final : List Edit) (m target : Bytes → Option Bytes) : Prop where
  nodup : (final.map Edit.key).Nodup
  edited : ∀ edit ∈ final, target edit.key = edit.value
  other : ∀ k, k ∉ final.map Edit.key → target k = m k

theorem Finals.perm {final' : List Edit} (h : Finals final m target) (hperm : final.Perm final') :
    Finals final' m target :=
  ⟨(hperm.map Edit.key).nodup_iff.mp h.nodup,
    fun edit hedit => h.edited edit (hperm.mem_iff.mpr hedit),
    fun k hk => h.other k fun hmem => hk ((hperm.map Edit.key).mem_iff.mp hmem)⟩

theorem replaceEdit_spec (hnodup : (final.map Edit.key).Nodup) :
    Plans table alloc rows (replaceEdit edit final) fun next =>
      (next.map Edit.key).Nodup ∧ (∀ e ∈ next, e = edit ∨ e ∈ final ∧ e.key ≠ edit.key) ∧
        (∀ k, k ∈ next.map Edit.key ↔ k = edit.key ∨ k ∈ final.map Edit.key) ∧
        next.length ≤ final.length + 1 := by
  induction final with
  | nil => exact Yields.pure ⟨nodup_singleton _, by simp, by simp, Nat.le_refl _⟩
  | cons prior rest ih =>
    obtain ⟨hnew, hnodup⟩ := nodup_cons.mp hnodup
    refine (compare_spec accounts_plan prior.key edit.key).bind fun equal hequal => ?_
    split_ifs with heq
    · have hkey := hequal.mp heq
      refine Yields.pure ⟨?_, ?_, ?_, Nat.le_succ _⟩
      · rw [map_cons, nodup_cons, ← hkey]
        exact ⟨hnew, hnodup⟩
      · intro e he
        rcases mem_cons.mp he with rfl | he
        · exact .inl rfl
        · refine .inr ⟨mem_cons_of_mem _ he, fun hsame => hnew ?_⟩
          rw [hkey, ← hsame]
          exact mem_map_of_mem he
      · intro k
        simp [hkey]
    · refine (ih hnodup).bind fun next hnext => Yields.pure ?_
      obtain ⟨hnext, hmem, hkeys, hlength⟩ := hnext
      have hne : prior.key ≠ edit.key := fun hkey => heq (hequal.mpr hkey)
      refine ⟨?_, ?_, ?_, Nat.succ_le_succ hlength⟩
      · rw [map_cons, nodup_cons, hkeys, not_or]
        exact ⟨⟨hne, hnew⟩, hnext⟩
      · intro e he
        rcases mem_cons.mp he with rfl | he
        · exact .inr ⟨mem_cons_self, hne⟩
        · exact (hmem e he).imp id fun hrest => ⟨mem_cons_of_mem _ hrest.1, hrest.2⟩
      · intro k
        rw [map_cons, mem_cons, map_cons, mem_cons, hkeys]
        exact or_left_comm

/-- The last edit of a key wins. -/
theorem lastEdits_spec (h : Finals final m target) :
    Plans table alloc rows (lastEdits edits final) fun next =>
      Finals next m (applyEdits edits target) ∧ next.length ≤ final.length + edits.length := by
  induction edits generalizing final target with
  | nil => exact Yields.pure ⟨h, Nat.le_refl _⟩
  | cons edit rest ih =>
    refine (replaceEdit_spec h.nodup).bind fun next hnext => ?_
    obtain ⟨hnodup, hmem, hkeys, hlength⟩ := hnext
    have hfinals : Finals next m (Function.update target edit.key edit.value) := by
      refine ⟨hnodup, fun e he => ?_, fun k hk => ?_⟩
      · rcases hmem e he with rfl | ⟨he, hne⟩
        · exact Function.update_self ..
        · rw [Function.update_of_ne hne]
          exact h.edited e he
      · rw [hkeys, not_or] at hk
        rw [Function.update_of_ne hk.1]
        exact h.other k hk.2
    refine (ih hfinals).post fun last hlast => ⟨hlast.1, hlast.2.trans ?_⟩
    rw [length_cons]
    omega

theorem sinkEdit_spec :
    Plans table alloc rows (sinkEdit edit final) fun next => (edit :: final).Perm next := by
  induction final with
  | nil => exact Yields.pure (List.Perm.refl _)
  | cons prior rest ih =>
    refine (plans_charge _).bind fun _ _ => (plans_charge _).bind fun _ _ => ?_
    split_ifs
    · refine ih.bind fun next hnext => Yields.pure ?_
      exact (List.Perm.swap prior edit rest).trans (hnext.cons prior)
    · exact Yields.pure (List.Perm.refl _)

theorem sortEdits_spec {sorted : List Edit} :
    Plans table alloc rows (sortEdits final sorted) fun next => (final ++ sorted).Perm next := by
  induction final generalizing sorted with
  | nil => exact Yields.pure (reverse_perm sorted).symm
  | cons edit rest ih =>
    refine sinkEdit_spec.bind fun next hnext => ih.post fun last hlast => ?_
    exact (perm_middle.symm.trans (hnext.append_left rest)).trans hlast

theorem plans_chargeEdits : Plans table alloc rows (chargeEdits edits) fun _ => True := by
  induction edits with
  | nil => exact Yields.pure trivial
  | cons edit rest ih => exact (plans_charge _).bind fun _ _ => (plans_charge _).bind fun _ _ => ih

theorem plans_chargeBacking : Plans table alloc rows (chargeBacking slots) fun _ => True := by
  induction slots with
  | nil => exact Yields.pure trivial
  | cons slot rest ih =>
    exact (plans_charge _).bind fun _ _ => (plans_charge _).bind fun _ _ =>
      (plans_chargeSlot slot).bind fun _ _ => ih

/-- The last edits with the slots of their keys. -/
structure Resolved (slots : List Slot) (located : List Located) (m target : Bytes → Option Bytes) :
    Prop where
  nodup : (located.map (·.1.key)).Nodup
  found : ∀ entry ∈ located, Found slots entry.1.key entry.2
  edited : ∀ entry ∈ located, target entry.1.key = entry.1.value
  other : ∀ k, k ∉ located.map (·.1.key) → target k = m k

theorem mem_pendingKeys :
    key ∈ pendingKeys located ↔ ∃ entry ∈ located, isPending entry ∧ entry.1.key = key := by
  simp only [pendingKeys, mem_map, mem_filter, and_assoc]

theorem mem_presentKeys :
    key ∈ presentKeys located ↔ ∃ entry ∈ located, entry.2.isSome ∧ entry.1.key = key := by
  simp only [presentKeys, mem_map, mem_filter, and_assoc]

theorem Resolved.nodup_pending (h : Resolved slots located m target) :
    (pendingKeys located).Nodup :=
  h.nodup.sublist (filter_sublist.map _)

section

variable (h : Resolved slots located m target) (hholds : HoldsMap keyHash slots m)
include h hholds

/-- New keys are not in the table, and get a value. -/
theorem Resolved.pending (hkey : key ∈ pendingKeys located) :
    m key = none ∧ (target key).isSome := by
  obtain ⟨⟨edit, old⟩, hentry, hpending, rfl⟩ := mem_pendingKeys.mp hkey
  cases old with
  | some i => cases hpending
  | none => exact ⟨hholds.absent.mp (h.found _ hentry), by rw [h.edited _ hentry]; exact hpending⟩

theorem Resolved.present (hkey : key ∈ presentKeys located) : m key ≠ none := by
  obtain ⟨⟨edit, old⟩, hentry, hsome, rfl⟩ := mem_presentKeys.mp hkey
  cases old with
  | none => cases hsome
  | some i =>
    rw [hholds.present (h.found _ hentry)]
    nofun

theorem Resolved.rest
    (hpending : key ∉ pendingKeys located) (hpresent : key ∉ presentKeys located) :
    target key = m key := by
  by_cases hkey : key ∈ located.map (·.1.key)
  · obtain ⟨⟨edit, old⟩, hentry, rfl⟩ := mem_map.mp hkey
    cases old with
    | some i => exact absurd (mem_presentKeys.mpr ⟨_, hentry, rfl, rfl⟩) hpresent
    | none =>
      rw [hholds.absent.mp (h.found _ hentry), h.edited _ hentry]
      cases hvalue : edit.value with
      | none => rfl
      | some value =>
        exact absurd (mem_pendingKeys.mpr ⟨_, hentry, by rw [isPending, hvalue]; rfl, rfl⟩) hpending
  · exact h.other key hkey

theorem Resolved.walked_present :
    walked target (pendingKeys located) (walked target (presentKeys located) m) = target := by
  funext k
  unfold walked
  split_ifs with hpending hpresent
  · rfl
  · rfl
  · exact (h.rest hholds hpending hpresent).symm

theorem Resolved.walked_live :
    walked target (pendingKeys located) (walked target (liveKeys cellOf slots) fun _ => none) =
      target := by
  funext k
  unfold walked
  split_ifs with hpending hlive
  · rfl
  · rfl
  · rw [contains_mem hholds.contents, Option.not_isSome_iff_eq_none] at hlive
    rw [h.rest hholds hpending fun hpresent => h.present hholds hpresent hlive, hlive]

end

/-- The keys there will be, counted. -/
structure Counted (count : Nat) (target : Bytes → Option Bytes) (keys : List Bytes) : Prop where
  nodup : keys.Nodup
  mem : ∀ k, k ∈ keys ↔ (target k).isSome
  length_eq : keys.length = count

theorem Planning.counted
    (h : Planning keyHash table rows plan (walked target (presentKeys located) m)
    (pendingKeys located).length 0) (hres : Resolved table.slots located m target)
    (hholds : HoldsMap keyHash table.slots m) :
    (∀ k ∈ pendingKeys located, walked target (presentKeys located) m k = none) ∧
      Counted plan.finalCount target (liveKeys cellOf plan.view ++ pendingKeys located) := by
  have hfresh : ∀ k ∈ pendingKeys located, walked target (presentKeys located) m k = none := by
    intro k hk
    have habsent := (hres.pending hholds hk).1
    rw [walked, if_neg fun hpresent => hres.present hholds hpresent habsent, habsent]
  refine ⟨hfresh, nodup_append.mpr ⟨nodup_liveKeys h.holds.sound.distinct, hres.nodup_pending, ?_⟩,
    ?_, ?_⟩
  · rintro k hlive _ hpending rfl
    rw [contains_mem h.holds.contents, hfresh k hpending] at hlive
    cases hlive
  · intro k
    rw [mem_append, contains_mem h.holds.contents]
    by_cases hk : k ∈ pendingKeys located
    · exact iff_of_true (.inr hk) (hres.pending hholds hk).2
    · rw [or_iff_left hk]
      conv_rhs => rw [← hres.walked_present hholds, walked, if_neg hk]
  · rw [length_append, length_keys, h.used_eq]

theorem plans_capacityFor {required initial : Nat} (h : Sized initial)
    (hrows : required ≤ table.used + rows) :
    Plans table alloc rows (liftM (capacityFor required initial)) fun cap => Sized cap ∧ 8 ≤ cap ∧
    required ≤ maxLoad cap := by
  refine Yields.lift (fun e he => ?_) fun cap hcap => capacityFor_spec h hcap
  obtain ⟨rfl, hmany⟩ := capacityFor_error h he
  exact .size (Nat.lt_of_lt_of_le hmany hrows)

theorem rebuild_spec (hholds : HoldsMap keyHash table.slots m)
    (hres : Resolved table.slots located m target)
    {keys : List Bytes} (hcounted : Counted plan.finalCount target keys)
    (hsize : plan.finalCount ≤ table.used + rows) :
    Plans table alloc rows (rebuild keyHash table.slots located alloc plan) fun next =>
      Refined keyHash (table.publish next) target := by
  unfold rebuild
  refine (plans_capacityFor hholds.sized hsize).bind fun cap hcap => ?_
  obtain ⟨hsized, height, hload⟩ := hcap
  have hroom : HasRoom cap target := by
    refine ⟨keys, fun k hk => (hcounted.mem k).mpr hk, ?_⟩
    rw [hcounted.length_eq]
    exact Nat.lt_of_le_of_lt hload (maxLoad_lt height)
  have hrows : ∀ slot ∈ table.slots, slot.state = .used → slot.key ∉ located.map (·.1.key) →
      target slot.key = some slot.value := by
    intro slot hslot hstate hkey
    rw [hres.other _ hkey]
    exact hholds.row hslot hstate
  have hfresh : ∀ k ∈ pendingKeys located,
      walked target (liveKeys cellOf table.slots) (fun _ => none) k = none := by
    intro k hk
    rw [walked, if_neg]
    rw [contains_mem hholds.contents, (hres.pending hholds hk).1]
    simp
  cases hbytes : checkedMul cap slotSize with
  | none => exact Yields.fail .work
  | some bytes =>
    refine (plans_charge _).bind fun _ _ => ?_
    split_ifs with halloc
    · exact Yields.fail (.alloc (by simpa using halloc))
    refine (copyLive_spec hroom (detached_free hsized) hholds.copyable hres.edited hrows).bind
      fun copied hcopied => ?_
    refine (insertNew_spec hroom hcopied hres.nodup_pending hfresh hres.edited).bind
      fun next hnext => ?_
    refine plans_chargeBacking.bind fun _ _ => Yields.pure ?_
    rw [hres.walked_live hholds] at hnext
    have hused : plan.finalCount = usedCount next := by
      rw [← hcounted.length_eq, ← length_keys]
      refine List.Perm.length_eq ((perm_ext_iff_of_nodup hcounted.nodup
        (nodup_liveKeys hnext.holds.sound.distinct)).mpr fun k => ?_)
      rw [hcounted.mem, contains_mem hnext.holds.contents]
    refine ⟨hnext.holds, hused, hnext.tombstoneCount.symm, ?_⟩
    show plan.finalCount + 0 ≤ maxLoad next.length
    rw [hnext.length_eq]
    exact hload

/-- A plan that is not replaced publishes what it shows. -/
theorem Planning.publish (h : Planning keyHash table rows plan target 0 0)
    (hload : plan.finalCount + plan.finalTombstones ≤ maxLoad table.slots.length) :
    Refined keyHash (table.publish plan) target := by
  have hslots : (table.publish plan).slots = plan.view := by
    unfold KvTable.publish
    rw [h.inPlace, TablePlan.view, h.slots_eq]
    rfl
  refine ⟨?_, ?_, ?_, ?_⟩
  · rw [hslots]
    exact h.holds
  · rw [hslots]
    exact h.used_eq
  · rw [hslots]
    exact h.tombstones_eq
  · rw [hslots, TablePlan.view, length_overlay, h.slots_eq]
    exact hload

theorem planEdits_spec (h : Refined keyHash table m) (hedits : edits.length ≤ maxEdits) :
    Plans table alloc edits.length (table.planEdits keyHash edits alloc) fun plan =>
      Refined keyHash (table.publish plan) (applyEdits edits m) := by
  unfold KvTable.planEdits
  have hnone : Finals [] m m := ⟨nodup_nil, nofun, fun _ _ => rfl⟩
  refine plans_chargeEdits.bind fun _ _ => (lastEdits_spec hnone).bind fun last hlast => ?_
  refine sortEdits_spec.bind fun final hsorted => ?_
  rw [append_nil] at hsorted
  have hfinals := hlast.1.perm hsorted
  have hlength : final.length ≤ edits.length := by
    rw [← hsorted.length_eq]
    have := hlast.2
    rw [length_nil] at this
    omega
  have hstart : Planning keyHash table edits.length
      { expectedSlots := table.slots, expectedRevision := table.revision, patches :=
        [], replacement := none
        finalCount := table.used, finalTombstones := table.tombstones, edits } m 0 final.length :=
    ⟨nodup_nil, rfl, rfl, h.holds, h.used_eq, h.tombstones_eq,
      by simpa using hlength.trans hedits, Nat.add_le_add_left hlength _⟩
  refine (hstart.locateEdits h.holds.toProbed hfinals.nodup
    (fun _ _ _ _ hslot _ => hslot) hfinals.edited).bind
    fun answer hanswer => ?_
  obtain ⟨located, plan⟩ := answer
  obtain ⟨hmap, hfound, hplan⟩ := hanswer
  rw [Nat.zero_add] at hplan
  dsimp only at hmap hfound hplan ⊢
  have hkeys : located.map (·.1.key) = final.map Edit.key := by
    rw [← hmap, map_map]
    rfl
  have hres : Resolved table.slots located m (applyEdits edits m) := by
    refine ⟨by rw [hkeys]; exact hfinals.nodup, hfound, fun entry hentry => ?_, fun k hk => ?_⟩
    · exact hfinals.edited _ (by rw [← hmap]; exact mem_map_of_mem hentry)
    · exact hfinals.other k (by rwa [← hkeys])
  obtain ⟨hfresh, hcounted⟩ := hplan.counted hres h.holds
  have hpath : ∀ program : Metered TablePlan,
      Plans table alloc edits.length program
        (fun plan => Refined keyHash (table.publish plan) (applyEdits edits m)) →
        Plans table alloc edits.length
          (program >>= fun plan => charge plan.sealByteCount >>= fun _ => pure plan) fun plan =>
          Refined keyHash (table.publish plan) (applyEdits edits m) := fun program hprogram =>
    hprogram.bind fun _ hdone => (plans_charge _).bind fun _ _ => Yields.pure hdone
  refine (plans_capacityFor h.holds.sized hplan.size).bind fun cap hcap => ?_
  by_cases hsame : cap ≠ table.slots.length
  · rw [if_pos hsame]
    exact hpath _ (rebuild_spec h.holds hres hcounted hplan.size)
  rw [if_neg hsame]
  refine hpath _ ?_
  rw [ne_eq, not_not] at hsame
  subst hsame
  obtain ⟨-, height, hload⟩ := hcap
  unfold patchInPlace
  have hroom := Nat.lt_of_le_of_lt hload (maxLoad_lt height)
  refine (hplan.insertEdits hroom hres.nodup_pending hfresh hres.edited).bind fun next hnext => ?_
  obtain ⟨hnext, hcount⟩ := hnext
  rw [hres.walked_present h.holds] at hnext
  split_ifs with hmany
  · rw [← hcount] at hcounted
    exact rebuild_spec h.holds hres hcounted hnext.size
  · exact Yields.pure (hnext.publish (Nat.le_of_not_lt hmany))

theorem Refined.not_malformed (h : Refined keyHash table m) : table.malformed = false := by
  have hload := h.load
  unfold KvTable.malformed
  rcases h.holds.sized with hzero | ⟨e, hlength, he, -⟩
  · rw [hzero] at hload
    obtain ⟨hused, htombs⟩ := Nat.add_eq_zero_iff.mp (Nat.le_zero.mp hload)
    simp [hzero, hused, htombs]
  have hmask : table.slots.length &&& (table.slots.length - 1) = 0 := by
    rw [hlength, Nat.and_two_pow_sub_one_eq_mod, Nat.mod_self]
  have height := eight_le_pow he
  rw [← hlength] at height
  have hne : table.slots.length ≠ 0 := by omega
  rw [decide_eq_false hne, Bool.false_and, Bool.false_or, decide_eq_false (not_not.mpr hmask),
    decide_eq_false (Nat.not_lt.mpr height), decide_eq_false (Nat.not_lt.mpr hload)]
  exact Bool.and_false _

theorem prepareStorage_spec (h : Refined keyHash table m) (hpos : edits.length ≠ 0)
    (hmax : edits.length ≤ maxEdits) (alloc : Bool) :
    Plans table alloc edits.length (table.prepareStorage keyHash edits alloc) fun plan =>
      Refined keyHash (table.publish plan) (applyEdits edits m) := by
  unfold KvTable.prepareStorage
  rw [if_neg (by omega), h.not_malformed]
  split_ifs with hrevision hfalse
  · exact Yields.fail (.revision (by omega))
  · cases hfalse
  · exact planEdits_spec h hmax

inductive TableOp where
  | put (key value : Bytes) (allocs : KvTable.PutAllocs)
  | delete (key : Bytes)
  | ensureUnusedCapacity (additional : Nat) (alloc : Bool)
  | batch (edits : List Edit) (workLimit : Nat) (alloc : Bool) (publish : Bool)

/-- Whether the operation is done, and the table after it. -/
def TableOp.run (keyHash : KeyHash) (table : KvTable) : TableOp → Option (Bool × KvTable)
  | .put key value allocs => (table.put keyHash key value allocs).map fun answer =>
      (answer.1.isOk, answer.2)
  | .delete key => (table.delete keyHash key).map fun table => (true, table)
  | .ensureUnusedCapacity additional alloc =>
    let answer := table.ensureUnusedCapacity additional alloc
    some (answer.1.isOk, answer.2)
  | .batch edits workLimit alloc publish =>
    match table.prepare keyHash edits workLimit alloc with
    | .error _ => some (false, table)
    | .ok plan => if publish then some (true, table.publish plan) else some (false, table)

/-- What an operation that is done means. -/
def TableOp.meaning (m : Bytes → Option Bytes) : TableOp → Bytes → Option Bytes
  | .put key value _ => Function.update m key (some value)
  | .delete key => Function.update m key none
  | .ensureUnusedCapacity _ _ => m
  | .batch edits _ _ _ => applyEdits edits m

theorem Refined.prepare (h : Refined keyHash table m) (hpos : edits.length ≠ 0)
    (hmax : edits.length ≤ maxEdits) (workLimit : Nat) (alloc : Bool) :
    match table.prepare keyHash edits workLimit alloc with
    | .ok plan => Refined keyHash (table.publish plan) (applyEdits edits m)
    | .error e => Refused table 1 alloc edits.length e := by
  have hrun := prepareStorage_spec h hpos hmax alloc (some ⟨0, workLimit⟩) trivial
  unfold KvTable.prepare
  cases hstorage : table.prepareStorage keyHash edits alloc (some ⟨0, workLimit⟩) with
  | error e =>
    rw [hstorage] at hrun
    exact hrun
  | ok answer =>
    rw [hstorage] at hrun
    exact hrun.2

/-- A plan has at least one edit, and no more than it has room for. -/
theorem prepare_length {workLimit : Nat} {alloc : Bool}
    (h : table.prepare keyHash edits workLimit alloc = .ok plan) : edits.length ≠ 0 ∧
    edits.length ≤ maxEdits := by
  by_contra hbad
  have hlength : edits.length = 0 ∨ maxEdits < edits.length := by omega
  unfold KvTable.prepare KvTable.prepareStorage at h
  rw [if_pos hlength] at h
  cases h

theorem Refined.run (h : Refined keyHash table m) (op : TableOp) :
    (∃ done after, op.run keyHash table = some (done, after) ∧
        Refined keyHash after (if done then op.meaning m else m)) ∨
      ∃ key, op = .delete key ∧ m key ≠ none ∧ table.revision = maxU64 := by
  cases op with
  | put key value allocs =>
    obtain ⟨result, after, hput, hafter, -⟩ := h.put key value allocs
    exact .inl ⟨result.isOk, after, by rw [TableOp.run, hput]; rfl, hafter⟩
  | delete key =>
    rcases h.delete key with ⟨after, hdelete, hafter⟩ | ⟨-, hthere, hrevision⟩
    · exact .inl ⟨true, after, by rw [TableOp.run, hdelete]; rfl, hafter⟩
    · exact .inr ⟨key, rfl, hthere, hrevision⟩
  | ensureUnusedCapacity additional alloc =>
    cases hensure : table.ensureUnusedCapacity additional alloc with
    | mk result after =>
      refine .inl ⟨result.isOk, after, by rw [TableOp.run, hensure], ?_⟩
      simpa only [TableOp.meaning, ite_self] using (h.ensureUnusedCapacity hensure).1
  | batch edits workLimit alloc publish =>
    cases hprepare : table.prepare keyHash edits workLimit alloc with
    | error e => exact .inl ⟨false, table, by rw [TableOp.run, hprepare], h⟩
    | ok plan =>
      cases publish with
      | false => exact .inl ⟨false, table, by rw [TableOp.run, hprepare]; rfl, h⟩
      | true =>
        obtain ⟨hpos, hmax⟩ := prepare_length hprepare
        have hplan := h.prepare hpos hmax workLimit alloc
        rw [hprepare] at hplan
        exact .inl ⟨true, table.publish plan, by rw [TableOp.run, hprepare]; rfl, hplan⟩

end OnyxServer.Store
