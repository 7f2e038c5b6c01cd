import OnyxServer.Store.TableRows

/-!
# Plans over a table

A plan shows the slots of its table with the patches laid over them. Locating the edits and
inserting the new keys keep what it shows a table of rows; new backing is filled with the
rows the edits leave.
-/
namespace OnyxServer.Store

open Lib List Option

variable {keyHash : KeyHash} {slot there : Slot} {slots : List Slot} {key value : Bytes}
    {i cap pending left : Nat}
  {m r target : Bytes → Option Bytes} {plan : TablePlan} {table : KvTable} {edit : Edit}
    {patches : List Patch}
  {located : List Located} {α : Type} {alloc : Bool} {rows : Nat}

/-- Planning may fail for want of work, stamps or memory, but never for a plan that is not
valid. -/
abbrev Plans (table : KvTable) (alloc : Bool) (rows : Nat) (program : Metered α)
    (post : α → Prop) : Prop :=
  Yields (fun _ => True) (Refused table 1 alloc rows) program post

theorem accounts_plan : Accounts (fun _ => True) (Refused table 1 alloc rows) :=
  accounts_some _ .work

theorem plans_charge (n : Nat) : Plans table alloc rows (charge n) fun _ => True :=
  accounts_plan n

theorem plans_chargeSlot (slot : Slot) :
    Plans table alloc rows (chargeSlot slot) fun _ => True := by
  refine (plans_charge _).bind fun _ _ => ?_
  split_ifs
  · exact (plans_charge _).bind fun _ _ => plans_charge _
  · exact Yields.pure trivial

def overlay (patches : List Patch) (slots : List Slot) : List Slot :=
  patches.foldl (fun slots patch => slots.set patch.index patch.after) slots

@[simp] theorem overlay_cons {patch : Patch} :
    overlay (patch :: patches) slots = overlay patches (slots.set patch.index patch.after) := rfl

theorem overlay_append {patch : Patch} :
    overlay (patches ++ [patch]) slots = (overlay patches slots).set patch.index patch.after := by
  rw [overlay, foldl_append]
  rfl

@[simp] theorem length_overlay : (overlay patches slots).length = slots.length := by
  induction patches generalizing slots with
  | nil => rfl
  | cons patch rest ih => rw [overlay_cons, ih, length_set]

/-- A slot that no patch touches. -/
theorem overlay_set (h : i ∉ patches.map Patch.index) :
    overlay patches (slots.set i slot) = (overlay patches slots).set i slot := by
  induction patches generalizing slots with
  | nil => rfl
  | cons patch rest ih =>
    rw [map_cons, mem_cons, not_or] at h
    obtain ⟨hne, hrest⟩ := h
    rw [overlay_cons, overlay_cons, set_comm _ _ hne, ih hrest]

theorem overlay_getElem? (h : i ∉ patches.map Patch.index) :
    (overlay patches slots)[i]? = slots[i]? := by
  induction patches generalizing slots with
  | nil => rfl
  | cons patch rest ih =>
    rw [map_cons, mem_cons, not_or] at h
    obtain ⟨hne, hrest⟩ := h
    rw [overlay_cons, ih hrest, List.getElem?_set_ne (Ne.symm hne)]

theorem patchAt_spec (slots : List Slot) (hnodup : (patches.map Patch.index).Nodup)
    (hi : i < slots.length) :
    Plans table alloc rows (patchAt i patches) fun found =>
      found.getD (slots.getD i freeSlot) = (overlay patches slots).getD i freeSlot := by
  induction patches generalizing slots with
  | nil => exact Yields.pure rfl
  | cons patch rest ih =>
    obtain ⟨hnew, hnodup⟩ := nodup_cons.mp hnodup
    refine (plans_charge 1).bind fun _ _ => ?_
    split_ifs with heq
    · refine Yields.pure ?_
      subst heq
      rw [overlay_cons, Option.getD_some, getD_eq_getElem?_getD, overlay_getElem? hnew,
        List.getElem?_set_self hi, Option.getD_some]
    · refine (ih (slots.set patch.index patch.after) hnodup (by rwa [length_set])).post ?_
      intro found hfound
      rw [overlay_cons, ← hfound, getD_eq_getElem?_getD (l := slots.set _ _),
        List.getElem?_set_ne heq, ← getD_eq_getElem?_getD]

theorem replacePatch_spec (hnodup : (patches.map Patch.index).Nodup) (after : Slot) :
    Plans table alloc rows (replacePatch i after patches) fun found =>
      match found with
      | none => i ∉ patches.map Patch.index
      | some next => next.map Patch.index = patches.map Patch.index ∧
          ∀ slots, overlay next slots = (overlay patches slots).set i after := by
  induction patches with
  | nil => exact Yields.pure not_mem_nil
  | cons patch rest ih =>
    obtain ⟨hnew, hnodup⟩ := nodup_cons.mp hnodup
    refine (plans_charge 1).bind fun _ _ => ?_
    split_ifs with heq
    · refine (plans_chargeSlot after).bind fun _ _ => Yields.pure ⟨rfl, fun slots => ?_⟩
      subst heq
      rw [overlay_cons, overlay_cons, overlay_set hnew, overlay_set hnew, set_set]
    refine (ih hnodup).bind fun found hfound => Yields.pure ?_
    cases found with
    | none =>
      rw [Option.map_none, map_cons, mem_cons, not_or]
      exact ⟨Ne.symm heq, hfound⟩
    | some next =>
      rw [Option.map_some]
      obtain ⟨hindices, hover⟩ := hfound
      exact ⟨by rw [map_cons, map_cons, hindices], fun slots => hover _⟩

/-- The slots as the plan leaves them. -/
def TablePlan.view (plan : TablePlan) : List Slot := overlay plan.patches plan.expectedSlots

/-- A slot has one patch at most. -/
def Planned (plan : TablePlan) : Prop := (plan.patches.map Patch.index).Nodup

theorem Planned.slotAt (h : Planned plan) (hi : i < plan.view.length) :
    Plans table alloc rows (plan.slotAt i) fun slot => slot = plan.view.getD i freeSlot := by
  rw [TablePlan.view, length_overlay] at hi
  exact (patchAt_spec _ h hi).bind fun found hfound => Yields.pure hfound

/-- One slot of what the plan shows is written. -/
theorem Planned.set (h : Planned plan) (after : Slot) (hroom : plan.patches.length < maxEdits) :
    Plans table alloc rows (plan.set i after) fun next =>
      Planned next ∧ next.view = plan.view.set i after ∧
      next.patches.length ≤ plan.patches.length + 1 ∧
        next = { plan with patches := next.patches } := by
  refine (replacePatch_spec h after).bind fun found hfound => ?_
  cases found with
  | some patches =>
    obtain ⟨hindices, hover⟩ := hfound
    refine Yields.pure ⟨by rw [Planned, hindices]; exact h, hover _, ?_, rfl⟩
    have hlength := congrArg List.length hindices
    rw [length_map, length_map] at hlength
    exact Nat.le_succ_of_le (Nat.le_of_eq hlength)
  | none =>
    dsimp only
    rw [if_neg (Nat.ne_of_lt hroom)]
    refine (plans_chargeSlot _).bind fun _ _ => (plans_chargeSlot _).bind fun _ _ => Yields.pure ?_
    refine ⟨?_, overlay_append, by rw [length_append, length_singleton], rfl⟩
    rw [Planned, map_append, nodup_append]
    refine ⟨h, nodup_singleton _, ?_⟩
    rintro a ha b hb rfl
    obtain rfl := mem_singleton.mp hb
    exact hfound ha

/-- The place of a new key, among the slots as the plan leaves them. -/
theorem insertionFrom_spec (hplanned : Planned plan) (h : Probed keyHash plan.view)
    (habsent : ∀ i, ¬ Uses cellOf plan.view i key) {remaining probe : Nat} {tomb : Option Nat}
    (hall : probe + remaining = plan.view.length)
    (hvacant : tomb = none → ∃ p < plan.view.length, probe ≤ p ∧
      ∃ slot, plan.view[places keyHash plan.view.length key p]? = some slot ∧ slot.state ≠ .used)
    (hnot : ∀ q < probe, ¬ IsFree cellOf plan.view (places keyHash plan.view.length key q))
    (htomb : ∀ i, tomb = some i → Place keyHash plan.view key i) :
    Plans table alloc rows (plan.insertionFrom (keyHash key) key remaining probe tomb)
    (Place keyHash plan.view key) := by
  have hlength : plan.expectedSlots.length = plan.view.length := length_overlay.symm
  induction remaining generalizing probe tomb with
  | zero =>
    cases tomb with
    | none =>
      obtain ⟨p, hp, hle, -⟩ := hvacant rfl
      omega
    | some i => exact Yields.pure (htomb i rfl)
  | succ remaining ih =>
    have hprobe : probe < plan.view.length := by omega
    have hslot := h.sized.slot_at keyHash key hprobe
    have hinside := (h.sized.cycles keyHash).inside key probe hprobe
    rw [TablePlan.insertionFrom, hlength]
    refine (plans_charge 1).bind fun _ _ => (hplanned.slotAt hinside).bind fun slot hat => ?_
    change slot = plan.view.getD (probeIndex plan.view.length (keyHash key) probe) freeSlot at hat
    rw [← hat] at hslot
    have hnext : slot.state ≠ .free →
        ∀ q < probe + 1, ¬ IsFree cellOf plan.view (places keyHash plan.view.length key q) :=
          fun hstate =>
      Nat.forall_lt_succ_right.mpr ⟨hnot, not_isFree hslot hstate⟩
    have htake : slot.state ≠ .used →
        Place keyHash plan.view key (tomb.getD (places keyHash plan.view.length key probe)) := by
      intro hstate
      cases htomb' : tomb with
      | none => exact place_at hprobe hslot hstate hnot
      | some i => exact htomb i htomb'
    cases hstate : slot.state with
    | free => exact Yields.pure (htake (by rw [hstate]; nofun))
    | tombstone =>
      refine ih (by omega) nofun (hnext (by rw [hstate]; nofun)) fun i hi => ?_
      cases hi
      exact htake (by rw [hstate]; nofun)
    | used =>
      have hcontinue :
          Plans table alloc rows (plan.insertionFrom (keyHash key) key remaining (probe + 1) tomb)
          (Place keyHash plan.view key) := by
        refine ih (by omega) (fun hnone => ?_) (hnext (by rw [hstate]; nofun)) htomb
        obtain ⟨p, hp, hle, other, hother, hunused⟩ := hvacant hnone
        refine ⟨p, hp, Nat.lt_of_le_of_ne hle fun heq => ?_, other, hother, hunused⟩
        subst heq
        rw [hslot] at hother
        exact hunused (some.inj hother ▸ hstate)
      dsimp only
      split_ifs with hhash
      · refine (compare_spec accounts_plan slot.key key).bind fun equal hequal => ?_
        split_ifs with heq
        · exact absurd ⟨slot, hslot, cellOf_eq_used.mpr ⟨hstate, hequal.mp heq⟩⟩ (habsent _)
        · exact hcontinue
      · exact hcontinue

theorem insertion_spec (hplanned : Planned plan) (h : HoldsMap keyHash plan.view r)
    (habsent : r key = none) (hroom : usedCount plan.view < plan.view.length) :
    Plans table alloc rows (plan.insertion (keyHash key) key) (Place keyHash plan.view key) := by
  have hlength : plan.expectedSlots.length = plan.view.length := length_overlay.symm
  unfold TablePlan.insertion
  rw [hlength, if_neg (by omega)]
  refine insertionFrom_spec hplanned h.toProbed (h.absent.mpr habsent) (Nat.zero_add _)
    (fun _ => ?_)
    (fun q hq => absurd hq (Nat.not_lt_zero q)) nofun
  rw [← length_keys] at hroom
  obtain ⟨p, hp, slot, hslot, hkey⟩ := (h.sized.cycles keyHash).vacant hroom key
  exact ⟨p, hp, Nat.zero_le p, slot, hslot, key?_cellOf.mp hkey⟩

/-- A new key, inserted once all edits are located. -/
def isPending : Located → Bool
  | (edit, none) => edit.value.isSome
  | (_, some _) => false

def pendingKeys (located : List Located) : List Bytes := (located.filter isPending).map (·.1.key)

def presentKeys (located : List Located) : List Bytes := (located.filter (·.2.isSome)).map (·.1.key)

theorem pendingKeys_new (hvalue : edit.value = some value) :
    pendingKeys ((edit, none) :: located) = edit.key :: pendingKeys located := by
  rw [pendingKeys, filter_cons_of_pos (by rw [isPending, hvalue]; rfl)]
  rfl

theorem pendingKeys_absent (hvalue : edit.value = none) :
    pendingKeys ((edit, none) :: located) = pendingKeys located := by
  rw [pendingKeys, filter_cons_of_neg (by rw [isPending, hvalue]; nofun)]
  rfl

/-- What the plan shows is the map, and its counters are ahead by the keys to come. As many
patches are left as there are such keys and edits, and an edit adds one of the new rows. -/
structure Planning (keyHash : KeyHash) (table : KvTable) (rows : Nat) (plan : TablePlan)
    (r : Bytes → Option Bytes) (pending left : Nat) : Prop where
  planned : Planned plan
  slots_eq : plan.expectedSlots = table.slots
  inPlace : plan.replacement = none
  holds : HoldsMap keyHash plan.view r
  used_eq : plan.finalCount = usedCount plan.view + pending
  tombstones_eq : plan.finalTombstones = tombstoneCount plan.view
  budget : plan.patches.length + pending + left ≤ maxEdits
  size : plan.finalCount + left ≤ table.used + rows

theorem Planning.patch (alloc : Bool) (count tombs pending' left' : Nat)
    (h : Planning keyHash table rows plan r pending left)
    {after : Slot} {r' : Bytes → Option Bytes}
    (hholds : HoldsMap keyHash (plan.view.set i after) r')
    (hcount : count = usedCount (plan.view.set i after) + pending')
    (htombs : tombs = tombstoneCount (plan.view.set i after))
    (hbudget : pending' + left' + 1 ≤ pending + left)
    (hsize : count + left' ≤ table.used + rows) :
    Plans table alloc rows
      ({ plan with finalCount := count, finalTombstones := tombs : TablePlan }.set i after)
      fun next =>
      Planning keyHash table rows next r' pending' left' ∧ next.view = plan.view.set i after ∧
        next.finalCount = count := by
  have hpatches := h.budget
  have hplanned : Planned { plan with finalCount := count, finalTombstones := tombs } := h.planned
  refine (hplanned.set after (by dsimp only; omega)).post ?_
  rintro next ⟨hnext, hview, hlength, heq⟩
  have hfields :=
    congrArg
    (fun p : TablePlan => (p.expectedSlots, p.replacement, p.finalCount, p.finalTombstones)) heq
  simp only [Prod.mk.injEq] at hfields
  obtain ⟨hslots, hreplacement, hfinal, hfinalTombs⟩ := hfields
  change next.view = plan.view.set i after at hview
  dsimp only at hlength
  refine ⟨⟨hnext, hslots.trans h.slots_eq, hreplacement.trans h.inPlace, ?_, ?_, ?_, by omega,
    hfinal ▸ hsize⟩, hview, hfinal⟩
  · rw [hview]
    exact hholds
  · rw [hfinal, hview]
    exact hcount
  · rw [hfinalTombs, hview]
    exact htombs

/-- The slot of the key, still as in the table. -/
def Untouched (slots view : List Slot) (key : Bytes) : Prop :=
  ∀ (i : Nat) (slot : Slot), slots[i]? = some slot → cellOf slot = .used key → view[i]? = some slot

theorem Planning.locateEdit (h : Planning keyHash table rows plan r pending (left + 1))
    {old : Option Nat}
    (hold : Found table.slots edit.key old)
    (huntouched : Untouched table.slots plan.view edit.key) :
    Plans table alloc rows (locateEdit table.slots edit old plan) fun next =>
      Planning keyHash table rows next (if old.isSome then
        Function.update r edit.key edit.value else r)
          (pending + (pendingKeys [(edit, old)]).length) left ∧
        ∀ j, old ≠ some j → next.view[j]? = plan.view[j]? := by
  unfold Store.locateEdit
  have husedEq := h.used_eq
  have htombsEq := h.tombstones_eq
  have hsize := h.size
  match old, hold, hvalue : edit.value with
  | some i, ⟨there, hthere, hcell⟩, some value =>
    have hat := huntouched i there hthere hcell
    have hstate := (cellOf_eq_used.mp hcell).1
    have hrewrite := h.holds.rewrite hat hcell { there with value } (.inl rfl)
    rw [if_pos hstate] at hrewrite
    obtain ⟨hused, htombs⟩ := counts_update hat value
    dsimp only
    rw [getD_of_slot hthere]
    refine (h.patch alloc plan.finalCount plan.finalTombstones pending left hrewrite (by omega)
      (by omega) (by omega) (by omega)).post ?_
    rintro next ⟨hnext, hview, -⟩
    refine ⟨hnext, fun j hj => ?_⟩
    rw [hview, List.getElem?_set_ne]
    rintro rfl
    exact hj rfl
  | some i, ⟨there, hthere, hcell⟩, none =>
    have hat := huntouched i there hthere hcell
    have hstate := (cellOf_eq_used.mp hcell).1
    have hrewrite := h.holds.rewrite hat hcell tombstoneSlot (.inr rfl)
    obtain ⟨hused, htombs⟩ := counts_remove hat hstate
    refine (h.patch alloc (plan.finalCount - 1) (plan.finalTombstones + 1) pending left hrewrite
      (by omega) (by omega) (by omega) (by omega)).post ?_
    rintro next ⟨hnext, hview, -⟩
    refine ⟨hnext, fun j hj => ?_⟩
    rw [hview, List.getElem?_set_ne]
    rintro rfl
    exact hj rfl
  | none, hold, some value =>
    have hone : (pendingKeys [(edit, none)]).length = 1 := by
      rw [pendingKeys_new hvalue]
      rfl
    dsimp only
    by_cases hmany : maxU32 < plan.finalCount + 1
    · rw [if_pos hmany]
      have hmax : maxRows < maxU32 := by decide
      exact Yields.fail (.size (by omega))
    rw [if_neg hmany]
    refine Yields.pure ⟨⟨h.planned, h.slots_eq, h.inPlace, h.holds, ?_, h.tombstones_eq, ?_,
      by dsimp only; omega⟩, fun _ _ => rfl⟩
    · rw [hone]
      exact (congrArg (· + 1) h.used_eq).trans (Nat.add_assoc _ _ _)
    · rw [hone]
      have := h.budget
      dsimp only
      omega
  | none, hold, none =>
    have hnil : (pendingKeys [(edit, none)]).length = 0 := by
      rw [pendingKeys_absent hvalue]
      rfl
    rw [hnil]
    have hbudget := h.budget
    exact Yields.pure
      ⟨⟨h.planned, h.slots_eq, h.inPlace, h.holds, h.used_eq, h.tombstones_eq, by omega, by omega⟩,
        fun _ _ => rfl⟩

theorem pendingKeys_cons (entry : Located) :
    pendingKeys (entry :: located) = pendingKeys [entry] ++ pendingKeys located := by
  rw [pendingKeys, pendingKeys, pendingKeys, ← map_append, ← filter_append]
  rfl

theorem presentKeys_some (i : Nat) :
    presentKeys ((edit, some i) :: located) = edit.key :: presentKeys located := rfl

/-- Every edit finds the slot of its key as it was in the table. -/
theorem Planning.locateEdits (htable : Probed keyHash table.slots) {edits : List Edit}
    (h : Planning keyHash table rows plan r pending edits.length)
    (hnodup : (edits.map Edit.key).Nodup)
    (huntouched : ∀ edit ∈ edits, Untouched table.slots plan.view edit.key)
    (htarget : ∀ edit ∈ edits, target edit.key = edit.value) :
    Plans table alloc rows (locateEdits keyHash table.slots edits plan) fun answer =>
      answer.1.map Prod.fst = edits ∧ (∀ entry ∈ answer.1, Found table.slots entry.1.key entry.2) ∧
        Planning keyHash table rows answer.2 (walked target (presentKeys answer.1) r)
          (pending + (pendingKeys answer.1).length) 0 := by
  induction edits generalizing plan r pending with
  | nil => exact Yields.pure ⟨rfl, nofun, by rwa [presentKeys, filter_nil, map_nil, walked_nil]⟩
  | cons edit rest ih =>
    obtain ⟨hnew, hnodup⟩ := nodup_cons.mp hnodup
    obtain ⟨hhere, hthere⟩ := forall_mem_cons.mp huntouched
    obtain ⟨hvalue, hrest⟩ := forall_mem_cons.mp htarget
    refine (find_spec accounts_plan htable edit.key).bind fun old hold => ?_
    refine (h.locateEdit hold hhere).bind fun next hnext => ?_
    obtain ⟨hnext, hother⟩ := hnext
    have huntouched' : ∀ other ∈ rest, Untouched table.slots next.view other.key := by
      intro other hmem j slot hslot hcell
      have hj : old ≠ some j := by
        rintro rfl
        obtain ⟨there, hat, hkey⟩ := hold
        rw [hslot] at hat
        cases hat
        rw [hcell] at hkey
        injection hkey with heq
        exact hnew (heq ▸ mem_map_of_mem hmem)
      rw [hother j hj]
      exact hthere other hmem j slot hslot hcell
    refine (ih hnext hnodup huntouched' hrest).bind fun answer hanswer => Yields.pure ?_
    obtain ⟨located, plan'⟩ := answer
    obtain ⟨hmap, hfound, hplan⟩ := hanswer
    refine ⟨by rw [map_cons, hmap], forall_mem_cons.mpr ⟨hold, hfound⟩, ?_⟩
    rw [pendingKeys_cons, length_append, ← Nat.add_assoc]
    cases old with
    | none => exact hplan
    | some i =>
      rw [presentKeys_some, walked_cons, hvalue]
      exact hplan

/-- One new key goes to its place. -/
theorem Planning.insertEdit (h : Planning keyHash table rows plan r (pending + 1) left)
    (habsent : r key = none) (hroom : plan.finalCount < table.slots.length) :
    Plans table alloc rows (insertEdit keyHash key value plan) fun next =>
      Planning keyHash table rows next (Function.update r key (some value)) pending left ∧
        next.finalCount = plan.finalCount := by
  have hlength : plan.view.length = table.slots.length := by
    rw [TablePlan.view, length_overlay, h.slots_eq]
  have husedEq := h.used_eq
  have htombsEq := h.tombstones_eq
  unfold Store.insertEdit
  refine (plans_charge _).bind fun _ _ => ?_
  refine (insertion_spec h.planned h.holds habsent (by omega)).bind fun i hplace => ?_
  obtain ⟨there, hthere, hstate⟩ := hplace.vacant
  refine (h.planned.slotAt (List.getElem?_eq_some_iff.mp hthere).1).bind fun slot hslot => ?_
  rw [getD_of_slot hthere] at hslot
  subst hslot
  obtain ⟨hused, htombs⟩ := counts_insert hthere hstate key value (keyHash key)
  have hpatch := h.patch alloc plan.finalCount
    (if slot.state = .tombstone then plan.finalTombstones - 1 else plan.finalTombstones)
      pending left
    (h.holds.insert habsent hplace value) (by omega) (by rw [htombs, htombsEq]) (by omega)
    h.size
  have hplan : { plan with
      finalCount := plan.finalCount
      finalTombstones := if slot.state = .tombstone then plan.finalTombstones - 1
      else plan.finalTombstones } =
      if slot.state = .tombstone then { plan with finalTombstones := plan.finalTombstones - 1 }
        else plan := by
    split_ifs <;> rfl
  rw [hplan] at hpatch
  exact hpatch.post fun next hnext => ⟨hnext.1, hnext.2.2⟩

theorem Planning.insertEdits (h : Planning keyHash table rows plan r (pendingKeys located).length 0)
    (hroom : plan.finalCount < table.slots.length) (hnodup : (pendingKeys located).Nodup)
    (hfresh : ∀ k ∈ pendingKeys located, r k = none)
    (htarget : ∀ entry ∈ located, target entry.1.key = entry.1.value) :
    Plans table alloc rows (insertEdits keyHash located plan) fun next =>
      Planning keyHash table rows next (walked target (pendingKeys located) r) 0 0 ∧
        next.finalCount = plan.finalCount := by
  induction located generalizing plan r with
  | nil => exact Yields.pure ⟨by rwa [pendingKeys, filter_nil, map_nil, walked_nil], rfl⟩
  | cons entry rest ih =>
    obtain ⟨hvalue, hrest⟩ := forall_mem_cons.mp htarget
    obtain ⟨edit, old⟩ := entry
    match old, hedit : edit.value with
    | none, some value =>
      rw [pendingKeys_new hedit] at h hnodup hfresh ⊢
      obtain ⟨hnew, hnodup⟩ := nodup_cons.mp hnodup
      obtain ⟨habsent, hfresh⟩ := forall_mem_cons.mp hfresh
      simp only [Store.insertEdits, hedit]
      refine (h.insertEdit habsent hroom).bind fun next hnext => ?_
      obtain ⟨hnext, hcount⟩ := hnext
      rw [walked_cons, hvalue, hedit, ← hcount]
      refine ih hnext (by rwa [hcount]) hnodup (fun k hk => ?_) hrest
      have hne : k ≠ edit.key := fun heq => hnew (heq ▸ hk)
      rw [Function.update_of_ne hne]
      exact hfresh k hk
    | none, none =>
      rw [pendingKeys_absent hedit] at h hnodup hfresh ⊢
      simp only [Store.insertEdits, hedit]
      exact ih h hroom hnodup hfresh hrest
    | some i, _ => exact ih h hroom hnodup hfresh hrest

/-- A row as the edits leave it: with the value of the map, or gone. -/
theorem editedSlot_spec (hstate : slot.state = .used)
    (htarget : ∀ entry ∈ located, target entry.1.key = entry.1.value)
    (hother : slot.key ∉ located.map (·.1.key) → target slot.key = some slot.value) :
    Plans table alloc rows (editedSlot slot located) fun next =>
      next.key = slot.key ∧ next.hash = slot.hash ∧
        target slot.key = if next.state = .used then some next.value else none := by
  induction located with
  | nil =>
    refine Yields.pure ⟨rfl, rfl, ?_⟩
    rw [if_pos hstate]
    exact hother not_mem_nil
  | cons entry rest ih =>
    obtain ⟨hvalue, hrest⟩ := forall_mem_cons.mp htarget
    obtain ⟨edit, old⟩ := entry
    refine (compare_spec accounts_plan edit.key slot.key).bind fun equal hequal => ?_
    split_ifs with heq
    · rw [hequal.mp heq] at hvalue
      rw [hvalue]
      cases hedit : edit.value with
      | none => exact Yields.pure ⟨rfl, rfl, rfl⟩
      | some value =>
        refine Yields.pure ⟨rfl, rfl, ?_⟩
        dsimp only
        rw [if_pos hstate]
    · refine ih hrest fun hmem => hother ?_
      rw [map_cons, mem_cons, not_or]
      exact ⟨fun hkey => heq (hequal.mpr hkey.symm), hmem⟩

/-- The rows of the table that the edits leave. -/
theorem copyLive_spec (hroom : HasRoom cap target) {rest replacement : List Slot}
    (h : Detached keyHash cap target replacement r) (hcopy : Copyable keyHash rest r)
    (htarget : ∀ entry ∈ located, target entry.1.key = entry.1.value)
    (hrows : ∀ slot ∈ rest, slot.state = .used → slot.key ∉ located.map (·.1.key) →
      target slot.key = some slot.value) :
    Plans table alloc rows (copyLive located rest replacement) fun next =>
      Detached keyHash cap target next (walked target (liveKeys cellOf rest) r) := by
  induction rest generalizing replacement r with
  | nil =>
    refine Yields.pure ?_
    rwa [liveKeys, filterMap_nil, walked_nil]
  | cons slot rest ih =>
    obtain ⟨hrow, hrows⟩ := forall_mem_cons.mp hrows
    refine (plans_charge 1).bind fun _ _ => ?_
    by_cases hstate : slot.state = .used
    · rw [if_neg (not_not.mpr hstate), live_cons_used hstate, walked_cons]
      obtain ⟨habsent, hcopy'⟩ := hcopy.used target hstate
      have hhash := hcopy.hashed slot mem_cons_self hstate
      refine (editedSlot_spec hstate htarget (hrow hstate)).bind fun next hnext => ?_
      obtain ⟨hkey, hsame, hvalue⟩ := hnext
      rw [← hkey] at habsent hcopy' hvalue ⊢
      split_ifs with hused
      · rw [if_pos hused] at hvalue
        refine (h.insert next accounts_plan hroom habsent hused
          (by rw [hsame, hhash, hkey]) hvalue).bind
          fun replacement hreplacement => ?_
        exact ih hreplacement hcopy' hrows
      · rw [if_neg hused] at hvalue
        exact ih (h.skip hvalue) hcopy' hrows
    · rw [if_pos hstate, live_cons_other hstate]
      exact ih h (hcopy.other hstate) hrows

theorem insertNew_spec (hroom : HasRoom cap target) {replacement : List Slot}
    (h : Detached keyHash cap target replacement r) (hnodup : (pendingKeys located).Nodup)
    (hfresh : ∀ k ∈ pendingKeys located, r k = none)
    (htarget : ∀ entry ∈ located, target entry.1.key = entry.1.value) :
    Plans table alloc rows (insertNew keyHash located replacement) fun next =>
      Detached keyHash cap target next (walked target (pendingKeys located) r) := by
  induction located generalizing replacement r with
  | nil =>
    refine Yields.pure ?_
    rwa [pendingKeys, filter_nil, map_nil, walked_nil]
  | cons entry rest ih =>
    obtain ⟨hvalue, hrest⟩ := forall_mem_cons.mp htarget
    obtain ⟨edit, old⟩ := entry
    match old, hedit : edit.value with
    | none, some value =>
      rw [pendingKeys_new hedit] at hnodup hfresh ⊢
      obtain ⟨hnew, hnodup⟩ := nodup_cons.mp hnodup
      obtain ⟨habsent, hfresh⟩ := forall_mem_cons.mp hfresh
      have hsome : target edit.key = some value := hvalue.trans hedit
      simp only [insertNew, hedit]
      refine (plans_charge _).bind fun _ _ => ?_
      refine (h.insert ⟨.used, keyHash edit.key, edit.key, value⟩ accounts_plan hroom habsent rfl
        rfl hsome).bind
        fun next hnext => ?_
      rw [walked_cons]
      refine ih hnext hnodup (fun k hk => ?_) hrest
      have hne : k ≠ edit.key := fun heq => hnew (heq ▸ hk)
      rw [Function.update_of_ne hne]
      exact hfresh k hk
    | none, none =>
      rw [pendingKeys_absent hedit] at hnodup hfresh ⊢
      simp only [insertNew, hedit]
      exact ih h hnodup hfresh hrest
    | some i, _ => exact ih h hnodup hfresh hrest

end OnyxServer.Store
