import OnyxServer.AcceptedLog.Session

/-!
# Rotation between origins

Two pages of a target that both hand out a row of `p` enclose a page with a row of
`o`, if `o` has a row to hand out all the time. Between the two pages the target's
cursor moves from `p` towards `o` and cannot step over it. What can defeat this is an
exclusion on the lowest row of `o`, and the removal of the last row of the origin
under the cursor, which sends the cursor elsewhere.
-/
namespace OnyxServer.AcceptedLog

open Lib List
open Relay.V2 (RelayId PublicKey Crypto)

/-- The answer is a page of the target with a row of the origin. -/
def Answer.Returns (answer : Answer) (target : UInt64) (origin : PublicKey) : Prop :=
  match answer with
  | .page node items => node = target ∧ ∃ item ∈ items, item.originPubkey = origin
  | _ => False

instance (answer : Answer) (target : UInt64) (origin : PublicKey) :
    Decidable (answer.Returns target origin) :=
  match answer with
  | .page node items =>
    inferInstanceAs (Decidable (node = target ∧ ∃ item ∈ items, item.originPubkey = origin))
  | .failed _ | .conflict | .ready | .done _ _ | .resealed | .idle => isFalse id

/-- The answer reports that the node was retired. -/
def Answer.retires (node : UInt64) : Answer → Bool
  | .done (.retire retired) _ => decide (retired = node)
  | _ => false

/-- The origin has a row that the target misses and that is not excluded for it. -/
def EventLog.Offers (log : EventLog) (target : UInt64) (origin : PublicKey) : Prop :=
  ∃ row ∈ log.rows, row.Outstanding target ∧ target ∉ row.excludedOnceNodes ∧
    row.originPubkey = origin

instance (log : EventLog) (target : UInt64) (origin : PublicKey) :
    Decidable (log.Offers target origin) :=
  inferInstanceAs (Decidable (∃ row ∈ log.rows, row.Outstanding target ∧
    target ∉ row.excludedOnceNodes ∧ row.originPubkey = origin))

instance (rows : List Row) (target : UInt64) (row : Row) : Decidable (Head rows target row) :=
  decidable_of_iff (row ∈ rows ∧ row.Outstanding target ∧ ∀ other ∈ rows, other.Outstanding target →
      other.originPubkey = row.originPubkey → row.hlc ≤ other.hlc)
    ⟨fun h => ⟨h.1, h.2.1, h.2.2⟩, fun h => ⟨h.mem, h.outstanding, h.least⟩⟩

/-- The lowest row of the origin that the target misses is not excluded for it. -/
def EventLog.HeadOpen (log : EventLog) (target : UInt64) (origin : PublicKey) : Prop :=
  ∀ row ∈ log.rows, Head log.rows target row → row.originPubkey = origin →
    target ∉ row.excludedOnceNodes

instance (log : EventLog) (target : UInt64) (origin : PublicKey) :
    Decidable (log.HeadOpen target origin) :=
  inferInstanceAs (Decidable (∀ row ∈ log.rows, Head log.rows target row →
    row.originPubkey = origin → target ∉ row.excludedOnceNodes))

/-- The origin under the target's cursor has a row left after the step. -/
def Anchored (target : UInt64) (log log' : EventLog) : Prop :=
  ∀ cursor ∈ log.cursors, cursor.node = target →
    cursor.afterOriginPubkey ∈ log'.rows.map Row.originPubkey

instance (target : UInt64) (log log' : EventLog) : Decidable (Anchored target log log') :=
  inferInstanceAs (Decidable (∀ cursor ∈ log.cursors, cursor.node = target →
    cursor.afterOriginPubkey ∈ log'.rows.map Row.originPubkey))

section Page

variable {crypto : Crypto} {target : UInt64} {room : Nat} {start p o : PublicKey}
  {visited : List Row} {log log' : EventLog}

theorem returns_of_visited {row : Row} (hrow : row ∈ visited)
    (hopen : target ∉ row.excludedOnceNodes) :
    Answer.Returns (.page target (pageOf target visited)) target row.originPubkey :=
  ⟨rfl, pageItem row, mem_map_of_mem (mem_filter.mpr ⟨hrow, by simpa using hopen⟩), rfl⟩

theorem visited_of_returns {node : UInt64} {origin : PublicKey}
    (h : Answer.Returns (.page node (pageOf node visited)) target origin) :
    node = target ∧ ∃ row ∈ visited, row.originPubkey = origin := by
  obtain ⟨hnode, item, hitem, horigin⟩ := h
  obtain ⟨row, hrow, rfl⟩ := mem_map.mp hitem
  exact ⟨hnode, row, (mem_filter.mp hrow).1, horigin⟩

section

variable (h : Collected crypto target room start visited log log')
include h

/-- A page that hands out nothing of `o` never came to `o`. -/
theorem Collected.unvisited (hopen : log.HeadOpen target o)
    (hnone : ¬ Answer.Returns (.page target (pageOf target visited)) target o) :
    ∀ row ∈ visited, row.originPubkey ≠ o := by
  intro row hrow horigin
  have hhead := h.heads row hrow
  apply hnone
  rw [← horigin]
  exact returns_of_visited hrow (hopen row hhead.mem hhead horigin)

/-- Everything such a page visited lies before `o`. -/
theorem Collected.short_of (hoffers : log.Offers target o)
    (hunvisited : ∀ row ∈ visited, row.originPubkey ≠ o)
    {row : Row} (hrow : row ∈ visited) : Before start row.originPubkey o := by
  obtain ⟨offered, hoffered, hout, -, horigin⟩ := hoffers
  rcases before_total start (hunvisited row hrow) with hbefore | hover
  · exact hbefore
  · rw [← horigin] at hover
    obtain ⟨other, hother, heq⟩ := h.unskipped offered hoffered hout ⟨row, hrow, hover⟩
    exact absurd (heq.trans horigin) (hunvisited other hother)

/-- The cursor ends where it was or on the last row visited. -/
theorem Collected.cursor_last :
    (visited = [] ∧ ⟨target, start⟩ ∈ log'.cursors) ∨
    ∃ last ∈ visited, ⟨target, last.originPubkey⟩ ∈ log'.cursors ∧
      ∀ row ∈ visited, row = last ∨ Before start row.originPubkey last.originPubkey := by
  have hend := h.endAt
  have horder := h.order
  rcases eq_nil_or_concat visited with rfl | ⟨rest, last, rfl⟩
  · exact Or.inl ⟨rfl, hend⟩
  rw [concat_eq_append] at hend horder ⊢
  rw [List.getLast?_append_of_ne_nil _ (cons_ne_nil _ _)] at hend
  refine Or.inr ⟨last, by simp, hend, fun row hrow => ?_⟩
  rcases mem_append.mp hrow with hrow | hrow
  · exact Or.inr ((pairwise_append.mp horder).2.2 row hrow last (by simp))
  · exact Or.inl (mem_singleton.mp hrow)

end

end Page

/-! ## From one page with a row of `p` to the next -/

/-- The target's cursor stands on `p`, or on its way from `p` to `o`. -/
def Underway (target : UInt64) (p o : PublicKey) (log : EventLog) : Prop :=
  ∃ reached, ⟨target, reached⟩ ∈ log.cursors ∧ (reached = p ∨ Before p reached o)

section Run

variable {crypto : Crypto} {target : UInt64} {p o : PublicKey} {session session' : Session}
  {answer : Answer}

theorem underway_first (hstep : session.Step crypto answer session')
    (hreturns : answer.Returns target p)
    (hoffers : session.log.Offers target o) (hopen : session.log.HeadOpen target o)
    (hnone : ¬ answer.Returns target o) : Underway target p o session'.log := by
  cases hstep with
  | quiet silent =>
    cases answer with
    | page node items =>
      obtain rfl : items = [] := silent
      obtain ⟨-, item, hitem, -⟩ := hreturns
      cases hitem
    | _ => cases hreturns
  | done => cases hreturns
  | page collected =>
    obtain ⟨rfl, row, hrow, horigin⟩ := visited_of_returns hreturns
    have hunvisited := collected.unvisited hopen hnone
    rcases collected.cursor_last with ⟨rfl, -⟩ | ⟨last, hlast, hcursor, hall⟩
    · cases hrow
    refine ⟨last.originPubkey, hcursor, ?_⟩
    rcases hall row hrow with rfl | hbefore
    · exact Or.inl horigin
    · rw [horigin] at hbefore
      exact Or.inr (hbefore.between (collected.short_of hoffers hunvisited hlast))

section

variable (hstep : session.Step crypto answer session') (h : Underway target p o session.log)
variable (hoffers : session.log.Offers target o) (hopen : session.log.HeadOpen target o)
include hstep h hoffers hopen

theorem underway_step
    (hanchored : Anchored target session.log session'.log) (hkeep : answer.retires target = false)
    (hnone : ¬ answer.Returns target o) : Underway target p o session'.log := by
  obtain ⟨reached, hreached, hway⟩ := h
  cases hstep with
  | quiet _ _ cursors =>
    rw [← cursors] at hreached
    exact ⟨reached, hreached, hway⟩
  | @done request _ _ committed =>
    refine ⟨reached, committed.cursors _ hreached ?_ (hanchored _ hreached rfl), hway⟩
    rintro rfl
    simp [Answer.retires] at hkeep
  | @page node _ start visited _ collected =>
    by_cases hnode : target = node
    · subst hnode
      have hstart : reached = start := collected.startAt _ hreached rfl
      have hunvisited := collected.unvisited hopen hnone
      rcases collected.cursor_last with ⟨-, hcursor⟩ | ⟨last, hlast, hcursor, -⟩
      · rw [← hstart] at hcursor
        exact ⟨reached, hcursor, hway⟩
      · have hshort := collected.short_of hoffers hunvisited hlast
        rw [← hstart] at hshort
        exact ⟨last.originPubkey, hcursor, Or.inr (Before.rebase hway hshort)⟩
    · exact ⟨reached, collected.others _ hreached hnode, hway⟩

/-- A page from a cursor underway cannot come back to `p` before it came to `o`. -/
theorem underway_last (hreturns : answer.Returns target p) :
    answer.Returns target o := by
  by_contra hnone
  obtain ⟨reached, hreached, hway⟩ := h
  cases hstep with
  | quiet silent =>
    cases answer with
    | page node items =>
      obtain rfl : items = [] := silent
      obtain ⟨-, item, hitem, -⟩ := hreturns
      cases hitem
    | _ => cases hreturns
  | done => cases hreturns
  | page collected =>
    obtain ⟨rfl, row, hrow, horigin⟩ := visited_of_returns hreturns
    have hstart := collected.startAt _ hreached rfl
    have hunvisited := collected.unvisited hopen hnone
    have hshort := collected.short_of hoffers hunvisited hrow
    rw [horigin, ← hstart] at hshort
    exact not_before_start (Before.rebase hway hshort)

end

theorem underway_run (hwf : session.Wf crypto) (h : Underway target p o session.log) (ops : List Op)
    (hoffers : ∀ v ∈ stepsOf crypto session ops, v.before.log.Offers target o)
    (hopen : ∀ v ∈ stepsOf crypto session ops, v.before.log.HeadOpen target o)
    (hanchored : ∀ v ∈ stepsOf crypto session ops, Anchored target v.before.log v.after.log)
    (hkeep : ∀ v ∈ stepsOf crypto session ops, v.output.retires target = false)
    (hnone : ∀ v ∈ stepsOf crypto session ops, ¬ v.output.Returns target o) :
    Underway target p o (runFrom crypto session ops).log := by
  induction ops generalizing session with
  | nil => exact h
  | cons op ops ih =>
    obtain ⟨hwf', hstep⟩ := op.run_step hwf
    simp only [stepsOf, visits, forall_mem_cons] at hoffers hopen hanchored hkeep hnone
    have hnext := underway_step hstep h hoffers.1 hopen.1 hanchored.1 hkeep.1 hnone.1
    exact ih hwf' hnext hoffers.2 hopen.2 hanchored.2 hkeep.2 hnone.2

end Run

/-- In every run: if two pages of the target hand out a row of `p`, and all the time
from the one to the other `o` has a row that the target misses and whose lowest such
row is not excluded, then one of the pages from the one to the other hands out a row
of `o`; provided that the target is not retired and the origin under its cursor is
not emptied meanwhile. -/
theorem rotation_reaches_origin (crypto : Crypto) {config : Config} {log : EventLog}
    (hinit : EventLog.init config = some log) (before : List Op) (first : Op) (middle : List Op)
    (last : Op) {target : UInt64} {p o : PublicKey} :
    let session := runFrom crypto (Session.start log) before
    let steps := stepsOf crypto session (first :: (middle ++ [last]))
    (first.run crypto session).1.Returns target p →
    (last.run crypto (runFrom crypto session (first :: middle))).1.Returns target p →
    (∀ v ∈ steps, v.output.retires target = false) →
    (∀ v ∈ steps, v.before.log.Offers target o) →
    (∀ v ∈ steps, v.before.log.HeadOpen target o) →
    (∀ v ∈ steps, Anchored target v.before.log v.after.log) →
    ∃ v ∈ steps, v.output.Returns target o := by
  intro session steps hfirst hlast hkeep hoffers hopen hanchored
  by_contra hnone
  push Not at hnone
  have hwf := runFrom_wf (@Session.start_wf crypto config log hinit) before
  obtain ⟨hwf', hstep⟩ := first.run_step hwf
  have hsteps :
      steps = ⟨session, first, (first.run crypto session).1, (first.run crypto session).2⟩ ::
      (stepsOf crypto (first.run crypto session).2 middle ++
        stepsOf crypto (runFrom crypto session (first :: middle)) [last]) :=
    congrArg (List.cons _) (visits_append _ _ _)
  rw [hsteps] at hkeep hoffers hopen hanchored hnone
  simp only [forall_mem_cons, forall_mem_append] at hkeep hoffers hopen hanchored hnone
  have hstart := underway_first hstep hfirst hoffers.1 hopen.1 hnone.1
  have hunder :=
    underway_run hwf' hstart middle hoffers.2.1 hopen.2.1 hanchored.2.1 hkeep.2.1 hnone.2.1
  obtain ⟨-, hstep'⟩ := last.run_step (runFrom_wf hwf' middle)
  have hend := underway_last hstep' hunder (hoffers.2.2 _ mem_cons_self)
    (hopen.2.2 _ mem_cons_self) hlast
  exact hnone.2.2 _ mem_cons_self hend

/-- Two origins take turns on pages of one row. -/
theorem rotation_reaches_origin_sample :
    let accepts := [sampleAccept 1 5 "x" 10 none [10, 20], sampleAccept 2 5 "y" 10 none [10, 20]]
    let page : Op := .collect 20 1 fun _ => true
    ∃ v ∈ stepsOf sampleCrypto (runFrom sampleCrypto (Session.start sampleLog) accepts)
        (page :: ([page] ++ [page])), v.output.Returns 20 (FixedBytes.splat 32 2) := by
  intro accepts page
  have hinit : EventLog.init sampleConfig = some sampleLog := by decide +kernel
  apply @rotation_reaches_origin sampleCrypto sampleConfig sampleLog hinit accepts page
    [page] page 20
    (FixedBytes.splat 32 1)
  all_goals decide +kernel

/-- A page can pass over an origin that has a row to hand out all the time. First, when
a lower row of that origin is excluded: the exclusion takes the place of a turn. Then,
when the last row of the origin under the cursor is confirmed: the cursor is sent to
the greatest origin, and the next page starts over from the least. -/
theorem rotation_passes_over_origin :
    let page : Op := .collect 20 1 fun _ => true
    let p : PublicKey := FixedBytes.splat 32 1
    let o : PublicKey := FixedBytes.splat 32 2
    (let session := runFrom sampleCrypto (Session.start sampleLog)
      [sampleAccept 1 5 "x" 10 none [10, 20], sampleAccept 2 5 "y" 10 (some 20) [10, 20],
        sampleAccept 2 6 "z" 10 none [10, 20]]
    let steps := stepsOf sampleCrypto session [page, page]
    (page.run sampleCrypto session).1.Returns 20 p ∧
    (page.run sampleCrypto (runFrom sampleCrypto session [page])).1.Returns 20 p ∧
    (∀ v ∈ steps, v.output.retires 20 = false) ∧ (∀ v ∈ steps, v.before.log.Offers 20 o) ∧
    ¬ ∃ v ∈ steps, v.output.Returns 20 o) ∧
    (let session := runFrom sampleCrypto (Session.start sampleLog)
      [sampleAccept 1 5 "x" 10 none [10, 20], sampleAccept 2 5 "y" 10 none [10, 20]]
    let middle : List Op := [.perform (.confirm (sampleId 1 5 "x") 20) fun _ => true,
      sampleAccept 1 6 "z" 10 none [10, 20]]
    let steps := stepsOf sampleCrypto session (page :: (middle ++ [page]))
    (page.run sampleCrypto session).1.Returns 20 p ∧
    (page.run sampleCrypto (runFrom sampleCrypto session (page :: middle))).1.Returns 20 p ∧
    (∀ v ∈ steps, v.output.retires 20 = false) ∧ (∀ v ∈ steps, v.before.log.Offers 20 o) ∧
    ¬ ∃ v ∈ steps, v.output.Returns 20 o) := by
  decide +kernel

end OnyxServer.AcceptedLog
