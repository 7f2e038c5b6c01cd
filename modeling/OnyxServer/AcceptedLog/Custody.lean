import OnyxServer.AcceptedLog.Session

/-!
# No event is lost before every node is done with it

An accepted event is owed to each required node until that node confirms it or is
retired. In every run the log holds the event, with its first wire, as long as some
node is owed it, and no longer.
-/
namespace OnyxServer.AcceptedLog

open Lib
open Relay.V2 (RelayId PublicKey Crypto)

/-- The committed change an answer reports. -/
def Answer.change : Answer → Option (Request × Outcome)
  | .done request outcome => some (request, outcome)
  | _ => none

/-- The answer reports that the node confirmed the event or was retired. -/
def Answer.Settles (answer : Answer) (relayId : RelayId) (node : UInt64) : Prop :=
  settles answer.change relayId node

/-- The answer reports that the event entered the log. -/
def Answer.Accepts (answer : Answer) (relayId : RelayId) : Prop :=
  ∃ wire acceptingNode ingressNode requiredNodes,
    answer =
      .done (.accept relayId wire acceptingNode ingressNode requiredNodes) (.reserved .inserted)

def answersOf (crypto : Crypto) (session : Session) (ops : List Op) : List Answer :=
  (stepsOf crypto session ops).map Visit.output

section Step

variable {crypto : Crypto} {session session' : Session} {answer : Answer}

theorem Answer.Silent.change (h : answer.Silent) : ∀ request outcome,
    answer.change = some (request, outcome) →
      outcome = .reserved .conflict ∧ ∀ relayId node, ¬ answer.Settles relayId node := by
  intro request outcome hchange
  unfold Answer.Settles
  cases answer with
  | done request' outcome' =>
    cases hchange
    unfold Answer.Silent at h
    split at h
    · rename_i heq
      cases heq
      exact ⟨rfl, fun _ _ => id⟩
    · cases h
    · rename_i heq
      cases heq
    · rename_i hdone _
      exact absurd rfl (hdone _ _)
  | _ => cases hchange

theorem Inserts.accepts {row : Row} {relayId : RelayId} (h : Inserts answer.change row)
    (hid : row.relayId = relayId) : answer.Accepts relayId := by
  unfold Inserts Answer.change at h
  cases answer with
  | done request outcome =>
    simp only at h
    split at h
    · rename_i heq
      cases heq
      obtain rfl := h.1.symm.trans hid
      exact ⟨_, _, _, _, rfl⟩
    · cases h
  | _ => cases h

theorem Session.Step.effect (h : session.Step crypto answer session') :
    Effect answer.change session.log.rows session'.log.rows := by
  cases h with
  | quiet silent rows =>
    rw [rows]
    have hchange := silent.change
    apply Effect.same
    · intro request heq
      cases (hchange _ _ heq).1
    · intro row _
      apply Succeeds.refl
      intro node _ hsettles
      cases hanswer : answer.change with
      | none => rw [hanswer] at hsettles; exact hsettles
      | some done => exact (hchange _ _ hanswer).2 _ _ hsettles
  | done committed => exact committed.effect
  | page collected => exact effect_of_custody collected.custody

end Step

/-! ## From its acceptance on -/

section Run

variable {crypto : Crypto} {session : Session} {relayId : RelayId} {wire : Bytes}
  {acceptingNode : UInt64} {requiredNodes : List UInt64}

/-- The nodes that have neither confirmed the event nor been retired since. -/
def owed (acceptingNode : UInt64) (requiredNodes : List UInt64) (relayId : RelayId)
    (answers : List Answer) : Set UInt64 :=
  { node | node ∈ requiredNodes ∧ node ≠ acceptingNode ∧
    ∀ answer ∈ answers, ¬ answer.Settles relayId node }

theorem owed_snoc (acceptingNode : UInt64) (requiredNodes : List UInt64) (relayId : RelayId)
    (answers : List Answer) (answer : Answer) (node : UInt64) :
    node ∈ owed acceptingNode requiredNodes relayId (answers ++ [answer]) ↔
      node ∈ owed acceptingNode requiredNodes relayId answers ∧ ¬ answer.Settles relayId node := by
  simp only [owed, Set.mem_ofPred_eq, List.forall_mem_append, List.forall_mem_singleton]
  tauto

/-- The log holds the event for exactly the nodes it is owed to. -/
def EventLog.Holds (log : EventLog) (relayId : RelayId) (wire : Bytes) (nodes : Set UInt64) :
    Prop :=
  ∃ row ∈ log.rows, row.relayId = relayId ∧ row.wire = wire ∧
    ∀ node, row.Outstanding node ↔ node ∈ nodes

theorem EventLog.Holds.step {session' : Session} {answer : Answer} {nodes nodes' : Set UInt64}
    (h : session.log.Holds relayId wire nodes) (hstep : session.Step crypto answer session')
    (hnodes : ∀ node, node ∈ nodes' ↔ node ∈ nodes ∧ ¬ answer.Settles relayId node)
    (hsome : nodes'.Nonempty) : session'.log.Holds relayId wire nodes' := by
  obtain ⟨row, hrow, rfl, hwire, hout⟩ := h
  obtain ⟨node, hnode⟩ := hsome
  have hkept : ∃ node, row.Outstanding node ∧ ¬ settles answer.change row.relayId node :=
    ⟨node, (hout node).mpr ((hnodes node).mp hnode).1, ((hnodes node).mp hnode).2⟩
  obtain ⟨row', hrow', hsucc⟩ := hstep.effect.kept row hrow hkept
  refine ⟨row', hrow', hsucc.relayId, hsucc.wire.trans hwire, fun other => ?_⟩
  rw [hsucc.outstanding, hout, hnodes]
  rfl

/-- Right after its acceptance the event is held for every node but the accepting one. -/
theorem Session.Step.accepted {session' : Session} {ingressNode : Option UInt64}
    (hstep : session.Step crypto (.done
      (.accept relayId wire acceptingNode ingressNode requiredNodes) (.reserved .inserted))
        session') :
    session'.log.Holds relayId wire (owed acceptingNode requiredNodes relayId []) := by
  obtain ⟨row, hrow, hid, hwire, hreq, hconf⟩ := hstep.effect.inserted _ rfl
  refine ⟨row, hrow, hid, hwire, fun node => ?_⟩
  simp only [Row.Outstanding, hreq, hconf, owed, List.mem_singleton, List.not_mem_nil,
    Set.mem_ofPred_eq]
  tauto

/-- How the event is held after `ops`, counted from its acceptance. -/
structure Tracked (crypto : Crypto) (session : Session) (relayId : RelayId) (wire : Bytes)
    (acceptingNode : UInt64) (requiredNodes : List UInt64) (ops : List Op) : Prop where
  held : (owed acceptingNode requiredNodes relayId (answersOf crypto session ops)).Nonempty →
    (runFrom crypto session ops).log.Holds relayId wire
      (owed acceptingNode requiredNodes relayId (answersOf crypto session ops))
  /-- Once nobody is owed the event, only a second acceptance brings it back. -/
  gone : owed acceptingNode requiredNodes relayId (answersOf crypto session ops) = ∅ →
    ∀ row ∈ (runFrom crypto session ops).log.rows, row.relayId = relayId →
      ∃ earlier op later, ops = earlier ++ op :: later ∧
        owed acceptingNode requiredNodes relayId (answersOf crypto session earlier) = ∅ ∧
        (op.run crypto (runFrom crypto session earlier)).1.Accepts relayId

theorem answersOf_snoc (ops : List Op) (op : Op) :
    answersOf crypto session (ops ++ [op]) =
      answersOf crypto session ops ++ [(op.run crypto (runFrom crypto session ops)).1] := by
  rw [answersOf, stepsOf, visits_append, List.map_append]
  rfl

theorem runFrom_snoc (ops : List Op) (op : Op) :
    runFrom crypto session (ops ++ [op]) = (op.run crypto (runFrom crypto session ops)).2 :=
  final_append _ _ _

theorem Tracked.snoc (hwf : session.Wf crypto) {ops : List Op} (op : Op)
    (h : Tracked crypto session relayId wire acceptingNode requiredNodes ops) :
    Tracked crypto session relayId wire acceptingNode requiredNodes (ops ++ [op]) := by
  have hreached := runFrom_wf hwf ops
  obtain ⟨hwf', hstep⟩ := op.run_step hreached
  have hshrink := owed_snoc acceptingNode requiredNodes relayId (answersOf crypto session ops)
    (op.run crypto (runFrom crypto session ops)).1
  rw [← answersOf_snoc] at hshrink
  constructor
  · intro hsome
    have hbefore :
        (owed acceptingNode requiredNodes relayId (answersOf crypto session ops)).Nonempty :=
      hsome.imp fun node hnode => ((hshrink node).mp hnode).1
    rw [runFrom_snoc]
    exact (h.held hbefore).step hstep hshrink hsome
  · intro hnone row' hrow' hid
    rw [runFrom_snoc] at hrow'
    rcases Set.eq_empty_or_nonempty
      (owed acceptingNode requiredNodes relayId (answersOf crypto session ops)) with hempty | hsome
    · rcases hstep.effect.source row' hrow' with ⟨row, hrow, hsucc⟩ | ⟨hinserts, -⟩
      · obtain ⟨earlier, op', later, rfl, hearlier, haccepts⟩ :=
          h.gone hempty row hrow (hsucc.relayId.symm.trans hid)
        exact ⟨earlier, op', later ++ [op], by simp, hearlier, haccepts⟩
      · refine ⟨ops, op, [], rfl, hempty, ?_⟩
        exact hinserts.accepts hid
    · -- The row that held the event has nobody left to wait for, so it was removed.
      obtain ⟨row, hrow, hrowId, -, hout⟩ := h.held hsome
      rcases hstep.effect.source row' hrow' with ⟨old, hold, hsucc⟩ | ⟨-, habsent⟩
      · have heq : old = row := hreached.log.ascending.eq_of_key hold hrow
          (hsucc.relayId.symm.trans (hid.trans hrowId.symm))
        obtain ⟨node, hnode⟩ := (hwf'.log.rows row' hrow').pending
        have hnode := (hsucc.outstanding node).mp hnode
        rw [heq, hout, hrowId] at hnode
        have hmem := (hshrink node).mpr hnode
        rw [hnone] at hmem
        cases hmem
      · exact absurd (hrowId.trans hid.symm) (habsent row hrow)

theorem Tracked.of_accepted (hwf : session.Wf crypto)
    (h : session.log.Holds relayId wire (owed acceptingNode requiredNodes relayId []))
    (ops : List Op) : Tracked crypto session relayId wire acceptingNode requiredNodes ops := by
  induction ops using List.reverseRecOn with
  | nil =>
    refine ⟨fun _ => h, fun hnone row hrow hid => ?_⟩
    obtain ⟨held, hheld, hheldId, -, hout⟩ := h
    obtain ⟨node, hnode⟩ := (hwf.log.rows held hheld).pending
    have hmem := (hout node).mp hnode
    have hnone : owed acceptingNode requiredNodes relayId [] = ∅ := hnone
    rw [hnone] at hmem
    cases hmem
  | append_singleton ops op ih => exact ih.snoc hwf op

end Run

/-- In every run, from the acceptance of an event on: as long as some required node
other than the accepting one has neither confirmed the event nor been retired, the
log holds the event with the accepted wire for exactly those nodes; and once there
is no such node the event is gone, until it is accepted again. -/
theorem accepted_held_until_settled (crypto : Crypto) {config : Config} {log : EventLog}
    (hinit : EventLog.init config = some log) (before : List Op) (op : Op)
    {relayId : RelayId} {wire : Bytes} {acceptingNode : UInt64} {ingressNode : Option UInt64}
    {requiredNodes : List UInt64}
    (haccepted : (op.run crypto (runFrom crypto (Session.start log) before)).1 =
      .done (.accept relayId wire acceptingNode ingressNode requiredNodes) (.reserved .inserted))
    (after : List Op) :
    let session := (op.run crypto (runFrom crypto (Session.start log) before)).2
    let nodes := owed acceptingNode requiredNodes relayId (answersOf crypto session after)
    let rows := (runFrom crypto session after).log.rows
    (nodes.Nonempty → ∃ row ∈ rows, row.relayId = relayId ∧ row.wire = wire ∧
      ∀ node, row.Outstanding node ↔ node ∈ nodes) ∧
    (nodes = ∅ → ∀ row ∈ rows, row.relayId = relayId →
      ∃ earlier again later, after = earlier ++ again :: later ∧
        owed acceptingNode requiredNodes relayId (answersOf crypto session earlier) = ∅ ∧
        (again.run crypto (runFrom crypto session earlier)).1.Accepts relayId) := by
  have hwf := runFrom_wf (@Session.start_wf crypto config log hinit) before
  obtain ⟨hwf', hstep⟩ := op.run_step hwf
  rw [haccepted] at hstep
  have htracked := Tracked.of_accepted hwf' hstep.accepted after
  exact ⟨htracked.held, htracked.gone⟩

/-- One of two peers confirms, a preparation is dropped: the event is still held. -/
theorem accepted_held_until_settled_sample :
    let accept := sampleAccept 1 5 "x" 10 none [10, 20, 30]
    let after : List Op := [.perform (.confirm (sampleId 1 5 "x") 20) fun _ => true,
      .prepare (.retire 30) fun _ => true, .abort]
    let session := (accept.run sampleCrypto (runFrom sampleCrypto (Session.start sampleLog) [])).2
    ∃ row ∈ (runFrom sampleCrypto session after).log.rows,
      row.relayId = sampleId 1 5 "x" ∧ row.wire = sampleWire 1 5 "x" := by
  intro accept after session
  have haccepted : (accept.run sampleCrypto (runFrom sampleCrypto (Session.start sampleLog) [])).1 =
      .done (.accept (sampleId 1 5 "x") (sampleWire 1 5 "x") 10 none [10, 20, 30])
        (.reserved .inserted) := by decide +kernel
  have hanswers : answersOf sampleCrypto session after =
      [.done (.confirm (sampleId 1 5 "x") 20) (.confirmed .confirmed), .ready, .idle] := by
    decide +kernel
  have hinit : EventLog.init sampleConfig = some sampleLog := by decide +kernel
  have htracked := accepted_held_until_settled sampleCrypto hinit [] accept haccepted after
  have howed : (30 : UInt64) ∈ owed 10 [10, 20, 30] (sampleId 1 5 "x")
      (answersOf sampleCrypto session after) := by
    rw [hanswers]
    refine ⟨by decide, by decide, fun answer hanswer => ?_⟩
    simp only [List.mem_cons, List.not_mem_nil, or_false] at hanswer
    rcases hanswer with rfl | rfl | rfl
    · simp [Answer.Settles, Answer.change, settles]
    · exact id
    · exact id
  obtain ⟨row, hrow, hid, hwire, -⟩ := htracked.1 ⟨30, howed⟩
  refine ⟨row, ?_, hid, hwire⟩
  unfold session
  exact hrow

end OnyxServer.AcceptedLog
