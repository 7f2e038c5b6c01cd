import OnyxServer.AcceptedLog.Prepare
import OnyxServer.Lib.Search

/-!
# The effect of a commit

`Effect` says what a step does to the custody of every event: which rows survive
it, and which of their nodes are then still outstanding. `Committed` collects what
holds of the log after a commit of a token that fits.
-/
namespace OnyxServer.AcceptedLog

open Lib List Option
open Relay.V2 (RelayId PublicKey Crypto)

/-- The node is done with the event. -/
def settles (done : Option (Request × Outcome)) (relayId : RelayId) (node : UInt64) : Prop :=
  match done with
  | some (.confirm id confirmed, _) => relayId = id ∧ node = confirmed
  | some (.retire retired, _) => node = retired
  | _ => False

/-- The node is done with the event because it confirmed it. -/
def confirms (done : Option (Request × Outcome)) (relayId : RelayId) (node : UInt64) : Prop :=
  match done with
  | some (.confirm id confirmed, _) => relayId = id ∧ node = confirmed
  | _ => False

/-- The row is the one the request put in. -/
def Inserts (done : Option (Request × Outcome)) (row : Row) : Prop :=
  match done with
  | some (.accept relayId wire acceptingNode _ requiredNodes, .reserved .inserted) =>
    row.relayId = relayId ∧ row.wire = wire ∧ row.requiredNodes = requiredNodes ∧
      row.confirmedNodes = [acceptingNode]
  | _ => False

/-- `row'` holds the event of `row` after `done`. -/
structure Succeeds (done : Option (Request × Outcome)) (row row' : Row) : Prop where
  relayId : row'.relayId = row.relayId
  key : eventKey row' = eventKey row
  wire : row'.wire = row.wire
  outstanding : ∀ node, row'.Outstanding node ↔
    row.Outstanding node ∧ ¬ settles done row.relayId node
  confirmed : ∀ node ∈ row'.confirmedNodes,
    node ∈ row.confirmedNodes ∨ confirms done row.relayId node

/-- The custody of every event across one step. -/
structure Effect (done : Option (Request × Outcome)) (rows rows' : List Row) : Prop where
  kept : ∀ row ∈ rows, (∃ node, row.Outstanding node ∧ ¬ settles done row.relayId node) →
    ∃ row' ∈ rows', Succeeds done row row'
  source : ∀ row' ∈ rows', (∃ row ∈ rows, Succeeds done row row') ∨
    (Inserts done row' ∧ ∀ row ∈ rows, row.relayId ≠ row'.relayId)
  inserted : ∀ request, done = some (request, .reserved .inserted) →
    ∃ row' ∈ rows', Inserts done row'

section Effect

variable {done : Option (Request × Outcome)} {l r : List Row} {row row' : Row}

theorem Succeeds.refl (h : ∀ node, row.Outstanding node → ¬ settles done row.relayId node) :
    Succeeds done row row where
  relayId := rfl
  key := rfl
  wire := rfl
  outstanding node := ⟨fun hout => ⟨hout, h node hout⟩, And.left⟩
  confirmed _ hnode := Or.inl hnode

theorem Effect.replace (hdone : ∀ request, done ≠ some (request, .reserved .inserted))
    (hrow : Succeeds done row row') (hothers : ∀ other ∈ l ++ r, Succeeds done other other) :
    Effect done (l ++ row :: r) (l ++ row' :: r) where
  kept other hother _ := by
    simp only [mem_append, mem_cons] at hother hothers
    rcases hother with hother | rfl | hother
    · exact ⟨other, by simp [hother], hothers other (Or.inl hother)⟩
    · exact ⟨row', by simp, hrow⟩
    · exact ⟨other, by simp [hother], hothers other (Or.inr hother)⟩
  source other hother := by
    left
    simp only [mem_append, mem_cons] at hother hothers
    rcases hother with hother | rfl | hother
    · exact ⟨other, by simp [hother], hothers other (Or.inl hother)⟩
    · exact ⟨row, by simp, hrow⟩
    · exact ⟨other, by simp [hother], hothers other (Or.inr hother)⟩
  inserted request heq := absurd heq (hdone request)

theorem Effect.same {rows : List Row}
    (hdone : ∀ request, done ≠ some (request, .reserved .inserted))
    (h : ∀ row ∈ rows, Succeeds done row row) : Effect done rows rows where
  kept row hrow _ := ⟨row, hrow, h row hrow⟩
  source row hrow := Or.inl ⟨row, hrow, h row hrow⟩
  inserted request heq := absurd heq (hdone request)

/-- Exclusions are no part of custody. -/
theorem Succeeds.exclusions (h : ∀ node, row.Outstanding node → ¬ settles done row.relayId node)
    (excluded : List UInt64) : Succeeds done row { row with excludedOnceNodes := excluded } where
  relayId := rfl
  key := rfl
  wire := rfl
  outstanding := (Succeeds.refl h).outstanding
  confirmed _ hnode := Or.inl hnode

end Effect

/-- Everything a commit leaves behind. -/
structure Committed (crypto : Crypto) (request : Request) (outcome : Outcome)
    (log log' : EventLog) : Prop where
  wf : log'.Wf crypto
  idle : log'.preparedActive = false
  config : log'.config = log.config
  effect : Effect (some (request, outcome)) log.rows log'.rows
  cursors : ∀ cursor ∈ log.cursors, request ≠ .retire cursor.node →
    cursor.afterOriginPubkey ∈ log'.rows.map Row.originPubkey → cursor ∈ log'.cursors

section Commit

variable {crypto : Crypto} {log : EventLog} {l r : List Row} {row : Row}

variable {node : UInt64}

theorem Row.Wf.exclude {config : Config} (h : row.Wf crypto config)
    (hout : row.Outstanding node) (hnot : node ∉ row.excludedOnceNodes) :
    Row.Wf crypto config { row with
      excludedOnceNodes := insertNodeAssumeCapacity row.excludedOnceNodes
        (lowerBoundNodes row.excludedOnceNodes node) node } := by
  obtain ⟨hasc, hmem, -⟩ := insertNode_spec h.excluded hnot
  refine { h with excluded := hasc, excludedSub := ?_, disjoint := ?_ }
  · intro other hother
    rcases (hmem other).mp hother with rfl | hother
    · exact hout.1
    · exact h.excludedSub other hother
  · intro other hother hex
    rcases (hmem other).mp hex with rfl | hex
    · exact hout.2 hother
    · exact h.disjoint other hother hex

/-- The other rows of an ascending table carry other ids. -/
theorem others_ne {rows : List Row} (h : Ascending Row.relayId rows)
    (hrows : rows = l ++ row :: r) :
    ∀ other ∈ l ++ r, other.relayId ≠ row.relayId := by
  rw [hrows] at h
  obtain ⟨-, hr, hlr⟩ := ascending_append.mp h
  intro other hother
  rcases mem_append.mp hother with hother | hother
  · exact (hlr other hother row mem_cons_self).ne
  · exact ((ascending_cons.mp hr).1 other hother).ne'

theorem mem_split_of {other : Row} (hrows : log.rows = l ++ row :: r) (hother : other ∈ l ++ r) :
    other ∈ log.rows := by
  rw [hrows]
  simp only [mem_append, mem_cons] at hother ⊢
  tauto

section

variable (h : log.Wf crypto)
include h

theorem commit_duplicate (relayId : RelayId) (wire : Bytes)
    (acceptingNode : UInt64) (ingressNode : Option UInt64) (requiredNodes : List UInt64) :
    Committed crypto (.accept relayId wire acceptingNode ingressNode requiredNodes)
      (.reserved .exactDuplicate) log log.closePrepare where
  wf := h.flags _ _
  idle := rfl
  config := rfl
  effect := Effect.same (by simp) fun row _ => Succeeds.refl fun _ _ => id
  cursors _ hcursor _ _ := hcursor

theorem commit_exclude (relayId : RelayId) (wire : Bytes)
    (acceptingNode : UInt64) (ingressNode : Option UInt64) (requiredNodes : List UInt64)
    (hrows : log.rows = l ++ row :: r) (hout : row.Outstanding node)
    (hnot : node ∉ row.excludedOnceNodes) (room : log.Room nodeLen nodeLen) :
    Committed crypto (.accept relayId wire acceptingNode ingressNode requiredNodes)
      (.reserved .exactDuplicate) log
      (AcceptedAction.apply
        (.addExclusion l.length (lowerBoundNodes row.excludedOnceNodes node) node)
        log).closePrepare := by
  have hwf := h.rows row (by simp [hrows])
  have hlen := (insertNode_spec hwf.excluded hnot).2.2
  have happly : (AcceptedAction.apply
      (.addExclusion l.length (lowerBoundNodes row.excludedOnceNodes node) node) log) =
      { log with
        rows := l ++ { row with
          excludedOnceNodes := insertNodeAssumeCapacity row.excludedOnceNodes
            (lowerBoundNodes row.excludedOnceNodes node) node } :: r
        aggregateBytes := log.aggregateBytes + nodeLen
        checkpointBodyBytes := log.checkpointBodyBytes + nodeLen } := by
    simp only [AcceptedAction.apply, hrows, modify_split]
  rw [happly]
  refine {
    wf := EventLog.Shape.flags (h.replace hrows (hwf.exclude hout hnot) (fun other hother =>
      h.rows other (mem_split_of hrows hother)) rfl rfl ?_ ?_ room.aggregate room.body) _ _
    idle := rfl, config := rfl, effect := ?_, cursors := fun _ hcursor _ _ => hcursor }
  · simp only [rowAggregateBytes, hlen, nodeLen]
    omega
  · simp only [rowBodyBytes, rowAggregateBytes, hlen, nodeLen]
    omega
  · show Effect _ log.rows (l ++ _ :: r)
    rw [hrows]
    exact Effect.replace (by simp) (Succeeds.exclusions (fun _ _ => id) _)
      fun other _ => Succeeds.refl fun _ _ => id

theorem commit_insert {acceptingNode : UInt64} (ingressNode : Option UInt64)
    (wf : row.Wf crypto log.config) (hconfirmed : row.confirmedNodes = [acceptingNode])
    (habsent : ∀ other ∈ log.rows, other.relayId ≠ row.relayId)
    (hfresh : eventKey row ∉ log.rows.map eventKey) (hslot : log.rows.length < log.config.maxRows)
    (room : log.Room (rowAggregateBytes row) (rowBodyBytes row)) :
    Committed crypto (.accept row.relayId row.wire acceptingNode ingressNode row.requiredNodes)
      (.reserved .inserted) log (AcceptedAction.apply (.insert row) log).closePrepare := by
  rcases h.ascending.findBy_cases row.relayId with
    ⟨l, old, r, hrows, hid, -⟩ | ⟨l, r, hrows, hlb, -, hl, hr⟩
  · exact absurd hid (habsent old (by simp [hrows]))
  have happly : AcceptedAction.apply (.insert row) log =
      { log with
        rows := l ++ row :: r
        aggregateBytes := log.aggregateBytes + rowAggregateBytes row
        checkpointBodyBytes := log.checkpointBodyBytes + rowBodyBytes row } := by
    simp only [AcceptedAction.apply, lowerBoundRows, hlb]
    rw [hrows, insertShift_append]
  rw [happly]
  refine {
    wf := EventLog.Shape.flags
      (h.insert hrows hl hr hfresh wf hslot room.aggregate room.body) _ _
    idle := rfl, config := rfl, effect := ?_, cursors := fun _ hcursor _ _ => hcursor }
  show Effect _ log.rows (l ++ row :: r)
  have hself : ∀ other : Row, Succeeds (some (Request.accept row.relayId row.wire acceptingNode
      ingressNode row.requiredNodes, Outcome.reserved .inserted)) other other :=
    fun other => Succeeds.refl fun _ _ => id
  have hnew : Inserts (some (Request.accept row.relayId row.wire acceptingNode
      ingressNode row.requiredNodes, Outcome.reserved .inserted)) row :=
    ⟨rfl, rfl, rfl, hconfirmed⟩
  constructor
  · intro other hother _
    refine ⟨other, ?_, hself other⟩
    rw [hrows] at hother
    simp only [mem_append, mem_cons] at hother ⊢
    tauto
  · intro other hother
    by_cases heq : other = row
    · subst heq
      exact Or.inr ⟨hnew, habsent⟩
    refine Or.inl ⟨other, ?_, hself other⟩
    rw [hrows]
    simp only [mem_append, mem_cons] at hother ⊢
    tauto
  · intro _ _
    exact ⟨row, by simp, hnew⟩

theorem commit_confirmed {relayId : RelayId}
    (hmem : row ∈ log.rows) (hid : row.relayId = relayId) (hconf : node ∈ row.confirmedNodes) :
    Committed crypto (.confirm relayId node)
    (.confirmed .alreadyConfirmed) log log.closePrepare where
  wf := h.flags _ _
  idle := rfl
  config := rfl
  effect := Effect.same (by simp) fun other hother => Succeeds.refl fun n hout hset => by
    obtain ⟨hother', rfl⟩ := hset
    rw [h.ascending.eq_of_key hother hmem (hother'.trans hid.symm)] at hout
    exact hout.2 hconf
  cursors _ hcursor _ _ := hcursor

theorem commit_confirm (hrows : log.rows = l ++ row :: r)
    (hout : row.Outstanding node) (hmore : ∃ other, other ≠ node ∧ row.Outstanding other)
    (room : node ∉ row.excludedOnceNodes → log.Room nodeLen nodeLen) :
    Committed crypto (.confirm row.relayId node) (.confirmed .confirmed) log
      (ConfirmationAction.apply (.add l.length (lowerBoundNodes row.confirmedNodes node)
        (nodeIndex row.excludedOnceNodes node) node) log).closePrepare := by
  have hwf := h.rows row (by simp [hrows])
  have hne := others_ne h.ascending hrows
  have hothers : ∀ other ∈ l ++ r, Row.Wf crypto log.config other := fun other hother =>
    h.rows other (mem_split_of hrows hother)
  have hlen := (insertNode_spec hwf.confirmed hout.2).2.2
  have hmemc := (insertNode_spec hwf.confirmed hout.2).2.1
  have hnew : ∀ excluded, excluded = row.excludedOnceNodes.filter (· ≠ node) →
      Row.Wf crypto log.config { row with
        excludedOnceNodes := excluded
        confirmedNodes := insertNodeAssumeCapacity row.confirmedNodes
          (lowerBoundNodes row.confirmedNodes node) node } := by
    intro excluded hexcluded
    obtain ⟨other, hother, hothere⟩ := hmore
    exact {
      toSets := hwf.confirm hout hexcluded, authentic := hwf.authentic, bounded := hwf.bounded
      pending := ⟨other, (Row.confirm_outstanding hwf.toSets hout excluded other).mpr
        ⟨hothere, hother⟩⟩ }
  have heffect : ∀ excluded, Effect (some (Request.confirm row.relayId node,
      Outcome.confirmed .confirmed)) log.rows (l ++ { row with
        excludedOnceNodes := excluded
        confirmedNodes := insertNodeAssumeCapacity row.confirmedNodes
          (lowerBoundNodes row.confirmedNodes node) node } :: r) := by
    intro excluded
    rw [hrows]
    refine Effect.replace (by simp) ⟨rfl, rfl, rfl, fun n => ?_, fun n hn => ?_⟩ fun other hother =>
      Succeeds.refl fun n _ hset => hne other hother hset.1
    · rw [Row.confirm_outstanding hwf.toSets hout]
      simp [settles]
    · rcases (hmemc n).mp hn with rfl | hn
      · exact Or.inr ⟨rfl, rfl⟩
      · exact Or.inl hn
  cases hidx : nodeIndex row.excludedOnceNodes node with
  | none =>
    have hex := (nodeIndex_none hwf.excluded).mp hidx
    have hfilter : row.excludedOnceNodes = row.excludedOnceNodes.filter (· ≠ node) :=
      (filter_ne_of_not_mem hex).symm
    simp only [ConfirmationAction.apply, hrows, modify_split]
    refine {
      wf := EventLog.Shape.flags (h.replace hrows (hnew _ hfilter) hothers rfl rfl ?_ ?_
        (room hex).aggregate (room hex).body) _ _
      idle := rfl, config := rfl, effect := heffect _, cursors := fun _ hcursor _ _ => hcursor }
    · simp only [rowAggregateBytes, hlen, nodeLen]
      omega
    · simp only [rowBodyBytes, rowAggregateBytes, hlen, nodeLen]
      omega
  | some index =>
    obtain ⟨hremove, hcount, -⟩ := removeNode_spec hwf.excluded hidx
    simp only [ConfirmationAction.apply, hrows, modify_split]
    refine {
      wf := EventLog.Shape.flags (h.replace hrows (hnew _ hremove) hothers rfl rfl ?_ ?_
        h.aggregateBound h.bodyBound) _ _
      idle := rfl, config := rfl, effect := heffect _, cursors := fun _ hcursor _ _ => hcursor }
    · simp only [rowAggregateBytes, hlen, nodeLen]
      omega
    · simp only [rowBodyBytes, rowAggregateBytes, hlen, nodeLen]
      omega

theorem commit_last (hrows : log.rows = l ++ row :: r)
    (hout : ∀ other, row.Outstanding other ↔ other = node) :
    Committed crypto (.confirm row.relayId node) (.confirmed .confirmedAndRetired) log
      (ConfirmationAction.apply (.retireRow l.length) log).closePrepare := by
  have hne := others_ne h.ascending hrows
  obtain ⟨hrows', hconfig⟩ := EventLog.removeRowAt_rows hrows
  have hshape := h.removeRowAt hrows fun other hother => h.rows other (mem_split_of hrows hother)
  rw [← hconfig] at hshape
  have hself : ∀ other ∈ l ++ r, Succeeds (some (Request.confirm row.relayId node,
      Outcome.confirmed .confirmedAndRetired)) other other := fun other hother =>
    Succeeds.refl fun n _ hset => hne other hother hset.1
  refine {
    wf := EventLog.Shape.flags hshape _ _, idle := rfl, config := hconfig, effect := ?_
    cursors := fun cursor hcursor _ hpresent => ?_ }
  · show Effect _ log.rows (log.removeRowAt l.length).rows
    rw [hrows']
    constructor
    · rintro other hother ⟨n, hn, hset⟩
      rw [hrows] at hother
      have hother' : other = row ∨ other ∈ l ++ r := by
        simp only [mem_append, mem_cons] at hother ⊢
        tauto
      rcases hother' with rfl | hother'
      · exact absurd ⟨rfl, (hout n).mp hn⟩ hset
      · exact ⟨other, hother', hself other hother'⟩
    · intro other hother
      exact Or.inl ⟨other, mem_split_of hrows hother, hself other hother⟩
    · intro request heq
      cases heq
  · have hpresent : cursor.afterOriginPubkey ∈
        (log.removeRowAt l.length).rows.map Row.originPubkey := hpresent
    rw [hrows'] at hpresent
    exact EventLog.removeRowAt_cursors hrows hcursor hpresent

end

/-- The row without the node. -/
def Row.withoutNode (row : Row) (node : UInt64) : Row :=
  { row with
    requiredNodes := row.requiredNodes.filter (· ≠ node)
    confirmedNodes := row.confirmedNodes.filter (· ≠ node)
    excludedOnceNodes := row.excludedOnceNodes.filter (· ≠ node) }

/-- What a retirement makes of a row; nothing is left of a row it covers. -/
def Row.retire (node : UInt64) (row : Row) : Option Row :=
  if node ∈ row.requiredNodes then
    if rowCovered (row.withoutNode node) then none else some (row.withoutNode node)
  else some row

theorem Row.Sets.withoutNode (h : row.Sets) (node : UInt64) : (row.withoutNode node).Sets where
  required := h.required.sublist filter_sublist
  confirmed := h.confirmed.sublist filter_sublist
  excluded := h.excluded.sublist filter_sublist
  nonzero hmem := h.nonzero (mem_of_mem_filter hmem)
  confirmedSub other hother := by
    obtain ⟨hmem, hne⟩ := mem_filter.mp hother
    exact mem_filter.mpr ⟨h.confirmedSub other hmem, hne⟩
  excludedSub other hother := by
    obtain ⟨hmem, hne⟩ := mem_filter.mp hother
    exact mem_filter.mpr ⟨h.excludedSub other hmem, hne⟩
  disjoint other hother hex :=
    h.disjoint other (mem_of_mem_filter hother) (mem_of_mem_filter hex)

theorem Row.withoutNode_outstanding (row : Row) (node other : UInt64) :
    (row.withoutNode node).Outstanding other ↔ row.Outstanding other ∧ other ≠ node := by
  simp only [Row.Outstanding, Row.withoutNode, mem_filter, decide_eq_true_eq]
  tauto

theorem Row.Wf.withoutNode {config : Config} (h : row.Wf crypto config) (node : UInt64)
    (hcovered : ¬ rowCovered (row.withoutNode node) = true) :
    (row.withoutNode node).Wf crypto config := by
  have hsets := h.toSets.withoutNode node
  refine {
    toSets := hsets, authentic := h.authentic
    bounded := (length_filter_le _ _).trans h.bounded, pending := ?_ }
  by_contra hnone
  exact hcovered (hsets.covered_iff.mpr fun other hother => hnone ⟨other, hother⟩)

theorem removeNode_eq {nodes : List UInt64} (h : Ordered nodes) (node : UInt64) :
    (removeNode nodes node).1 = nodes.filter (· ≠ node) ∧
    nodes.length * nodeLen = (nodes.filter (· ≠ node)).length * nodeLen +
      (removeNode nodes node).2 := by
  unfold removeNode
  cases hidx : nodeIndex nodes node with
  | none => simp only [filter_ne_of_not_mem ((nodeIndex_none h).mp hidx), true_and]; omega
  | some index =>
    obtain ⟨hremove, hlen, -⟩ := removeNode_spec h hidx
    simp only [← hremove, true_and, nodeLen]
    omega

/-- The bytes the three removals free are the bytes the row shrinks by. -/
theorem dropNodeAt_eq (hsets : row.Sets) (hrows : log.rows = l ++ row :: r)
    {requiredIndex : Nat} (hidx : nodeIndex row.requiredNodes node = some requiredIndex) :
    ∃ freed, rowAggregateBytes row = rowAggregateBytes (row.withoutNode node) + freed ∧
      log.dropNodeAt node l.length requiredIndex row =
        (row.withoutNode node,
          { log with
            rows := l ++ row.withoutNode node :: r
            aggregateBytes := log.aggregateBytes - freed
            checkpointBodyBytes := log.checkpointBodyBytes - freed }) := by
  obtain ⟨hreq, hlen, -⟩ := removeNode_spec hsets.required hidx
  obtain ⟨hconf, hconfLen⟩ := removeNode_eq hsets.confirmed node
  obtain ⟨hex, hexLen⟩ := removeNode_eq hsets.excluded node
  have hrow : { row with
      requiredNodes := removeNodeAt row.requiredNodes requiredIndex
      confirmedNodes := (removeNode row.confirmedNodes node).1
      excludedOnceNodes := (removeNode row.excludedOnceNodes node).1 } = row.withoutNode node := by
    rw [hreq, hconf, hex]
    rfl
  refine ⟨nodeLen + (removeNode row.confirmedNodes node).2 +
    (removeNode row.excludedOnceNodes node).2, ?_, ?_⟩
  · rw [hreq] at hlen
    simp only [rowAggregateBytes, Row.withoutNode, Nat.add_mul]
    have : row.requiredNodes.length * nodeLen =
        (row.requiredNodes.filter (· ≠ node)).length * nodeLen + nodeLen := by
      rw [hlen, Nat.add_mul, Nat.one_mul]
    omega
  · have hset : log.rows.set l.length (row.withoutNode node) = l ++ row.withoutNode node :: r := by
      rw [hrows, set_append_right _ _ (Nat.le_refl _)]
      simp
    simp only [EventLog.dropNodeAt, hrow, hset, Nat.sub_sub, Nat.add_assoc]

theorem Row.retire_of_absent (h : node ∉ row.requiredNodes) :
    row.retire node = some row := if_neg h

theorem Row.retire_origin {row' : Row} (h : row.retire node = some row') :
    row'.originPubkey = row.originPubkey := by
  unfold Row.retire at h
  split_ifs at h
  · cases h
    rfl
  · cases h
    rfl

theorem retire_origins_subset (node : UInt64) {passed todo : List Row} {origin : PublicKey}
    (h : origin ∈ (passed ++ todo.filterMap (Row.retire node)).map Row.originPubkey) :
    origin ∈ (passed ++ todo).map Row.originPubkey := by
  obtain ⟨row', hrow', rfl⟩ := mem_map.mp h
  rcases mem_append.mp hrow' with hrow' | hrow'
  · exact mem_map_of_mem (mem_append_left _ hrow')
  · obtain ⟨row, hrow, hretire⟩ := mem_filterMap.mp hrow'
    rw [Row.retire_origin hretire]
    exact mem_map_of_mem (mem_append_right _ hrow)

/-- The retirement loop maps `Row.retire` over the rows it has not passed yet and
keeps every cursor whose origin survives. -/
theorem retireNodeLoop_spec (node : UInt64) (todo : List Row) :
    ∀ (passed : List Row) (fuel : Nat) (log : EventLog) (result : NodeRetirementResult),
      log.Wf crypto → log.rows = passed ++ todo → todo.length ≤ fuel →
      (log.retireNodeLoop node fuel passed.length result).2.Wf crypto ∧
      (log.retireNodeLoop node fuel passed.length result).2.config = log.config ∧
      (log.retireNodeLoop node fuel passed.length result).2.rows =
        passed ++ todo.filterMap (Row.retire node) ∧
      ∀ cursor ∈ log.cursors,
        cursor.afterOriginPubkey ∈
          (passed ++ todo.filterMap (Row.retire node)).map Row.originPubkey →
        cursor ∈ (log.retireNodeLoop node fuel passed.length result).2.cursors := by
  induction todo with
  | nil =>
    intro passed fuel log result h hrows _
    have hend : log.rows[passed.length]? = none := by simp [hrows]
    have hstop : log.retireNodeLoop node fuel passed.length result = (result, log) := by
      cases fuel with
      | zero => rfl
      | succ fuel => simp only [EventLog.retireNodeLoop, hend]
    rw [hstop]
    exact ⟨h, rfl, by simpa using hrows, fun cursor hcursor _ => hcursor⟩
  | cons row todo ih =>
    intro passed fuel log result h hrows hfuel
    obtain ⟨fuel, rfl⟩ : ∃ n, fuel = n + 1 := ⟨fuel - 1, by simp at hfuel; omega⟩
    have hfuel : todo.length ≤ fuel := by simpa using hfuel
    have hwf := h.rows row (by simp [hrows])
    have hothers : ∀ other ∈ passed ++ todo, Row.Wf crypto log.config other := fun other hother =>
      h.rows other (mem_split_of hrows hother)
    have hat : log.rows[passed.length]? = some row := by rw [hrows, getElem?_middle]
    have hnext : ∀ x : Row, passed.length + 1 = (passed ++ [x]).length := by simp
    simp only [EventLog.retireNodeLoop, hat]
    cases hidx : nodeIndex row.requiredNodes node with
    | none =>
      have habsent := (nodeIndex_none hwf.required).mp hidx
      simp only
      rw [hnext row, filterMap_cons_some (Row.retire_of_absent habsent),
        append_cons passed row (todo.filterMap (Row.retire node))]
      exact ih (passed ++ [row]) fuel log result h (by simp [hrows]) hfuel
    | some requiredIndex =>
      have hmem : node ∈ row.requiredNodes := (removeNode_spec hwf.required hidx).2.2
      obtain ⟨freed, hfreed, hdrop⟩ := dropNodeAt_eq hwf.toSets hrows hidx
      simp only [hdrop]
      have hagg := h.aggregate
      have hbody := h.body
      have haggBound := h.aggregateBound
      have hbodyBound := h.bodyBound
      rw [hrows, bytesOf_middle] at hagg hbody
      have hrowBody : rowBodyBytes row = rowBodyBytes (row.withoutNode node) + freed := by
        simp only [rowBodyBytes, hfreed]
        omega
      split
      · rename_i hcovered
        have hretire : row.retire node = none := by rw [Row.retire, if_pos hmem, if_pos hcovered]
        -- The covered row is in the table for a moment, so only its neighbours are well formed.
        have hmiddle := @EventLog.Shape.replace _ (fun _ => True) log passed todo row
          (row.withoutNode node) h hrows trivial (fun _ _ => trivial) rfl rfl
          (log.aggregateBytes - freed) (log.checkpointBodyBytes - freed) (by omega) (by omega)
          (by omega) (by omega)
        obtain ⟨hrows', hconfig⟩ := @EventLog.removeRowAt_rows
          { log with
            rows := passed ++ row.withoutNode node :: todo
            aggregateBytes := log.aggregateBytes - freed
            checkpointBodyBytes := log.checkpointBodyBytes - freed } passed todo _ rfl
        have hshape := hmiddle.removeRowAt rfl hothers
        rw [filterMap_cons_none hretire]
        obtain ⟨hwf', hconfig', hout, hcursors⟩ := ih passed fuel _
          { result with
            rowsChanged := result.rowsChanged + 1, rowsRetired := result.rowsRetired + 1 }
          (by rw [EventLog.Wf, hconfig]; exact hshape) hrows' hfuel
        refine ⟨hwf', hconfig'.trans hconfig, hout, fun cursor hcursor hpresent => ?_⟩
        exact hcursors cursor (EventLog.removeRowAt_cursors rfl hcursor
          (retire_origins_subset node hpresent)) hpresent
      · rename_i hcovered
        have hretire : row.retire node = some (row.withoutNode node) := by
          rw [Row.retire, if_pos hmem, if_neg hcovered]
        have hwf' : EventLog.Wf crypto
            { log with
              rows := passed ++ row.withoutNode node :: todo
              aggregateBytes := log.aggregateBytes - freed
              checkpointBodyBytes := log.checkpointBodyBytes - freed } :=
          h.replace hrows (hwf.withoutNode node hcovered) hothers rfl rfl
            (by omega) (by omega) (by omega) (by omega)
        rw [hnext (row.withoutNode node), filterMap_cons_some hretire,
          append_cons passed _ (todo.filterMap (Row.retire node))]
        exact ih (passed ++ [row.withoutNode node]) fuel _
          { result with rowsChanged := result.rowsChanged + 1 } hwf' (by simp) hfuel

theorem dropCursor_spec (h : log.Wf crypto) (node : UInt64) :
    (log.dropCursor node).2.Wf crypto ∧ (log.dropCursor node).2.rows = log.rows ∧
      (log.dropCursor node).2.config = log.config ∧
      ∀ cursor ∈ log.cursors, cursor.node ≠ node → cursor ∈ (log.dropCursor node).2.cursors := by
  unfold EventLog.dropCursor
  rcases h.cursorsAscending.findBy_cases node with
    ⟨l, cursor, r, hcursors, hnode, -, hfind, -⟩ | ⟨l, r, -, -, hfind, -⟩
  · rw [cursorAt, hfind]
    have hslot : removeCursorSlot log.cursors l.length = l ++ r := by
      rw [removeCursorSlot, hcursors, removeShift_append]
    have hsub : (l ++ r).Sublist log.cursors := by
      rw [hcursors]
      exact List.Sublist.append_left (sublist_cons_self _ _) l
    have hlen : log.cursors.length = (l ++ r).length + 1 := by
      rw [hcursors]
      simp only [length_append, length_cons]
      omega
    have hagg := h.aggregate
    have hbody := h.body
    have haggBound := h.aggregateBound
    have hbodyBound := h.bodyBound
    have hbound := h.cursorsBound
    rw [bytesOf, hlen] at hagg hbody
    simp only [hslot, cursorEntryLen] at hagg hbody ⊢
    refine ⟨h.setCursors (h.cursorsAscending.sublist hsub)
      (fun other hother => h.cursorNonzero other (hsub.subset hother))
      (fun other hother => h.cursorTarget other (hsub.subset hother)) (by omega) ?_ ?_ (by omega)
      (by omega), trivial, trivial, fun other hother hne => ?_⟩
    · simp only [hlen, cursorEntryLen]
      omega
    · simp only [hlen, cursorEntryLen]
      omega
    · rw [hcursors] at hother
      simp only [mem_append, mem_cons] at hother ⊢
      rcases hother with hother | rfl | hother
      · exact Or.inl hother
      · exact absurd hnode hne
      · exact Or.inr hother
  · rw [cursorAt, hfind]
    exact ⟨h, rfl, rfl, fun cursor hcursor _ => hcursor⟩

theorem Row.retire_succeeds {outcome : Outcome} {row' : Row}
    (h : row.retire node = some row') : Succeeds (some (.retire node, outcome)) row row' := by
  unfold Row.retire at h
  split_ifs at h with hmem hcovered
  · cases h
    refine ⟨rfl, rfl, rfl, fun other => Row.withoutNode_outstanding row node other, ?_⟩
    intro other hother
    exact Or.inl (mem_of_mem_filter hother)
  · cases h
    refine Succeeds.refl fun other hother hset => ?_
    exact hmem (hset ▸ hother.1)

theorem effect_retire (node : UInt64) (outcome : NodeRetirementResult) {rows : List Row}
    (h : ∀ row ∈ rows, row.Wf crypto log.config) :
    Effect (some (.retire node, .retired outcome)) rows (rows.filterMap (Row.retire node)) where
  kept row hrow hleft := by
    obtain ⟨other, hother, hset⟩ := hleft
    cases hretire : row.retire node with
    | some row' => exact ⟨row', mem_filterMap.mpr ⟨row, hrow, hretire⟩, Row.retire_succeeds hretire⟩
    | none =>
      unfold Row.retire at hretire
      split_ifs at hretire with hmem hcovered
      have := ((h row hrow).toSets.withoutNode node).covered_iff.mp hcovered other
      exact absurd ((Row.withoutNode_outstanding row node other).mpr ⟨hother, hset⟩) this
  source row' hrow' := by
    obtain ⟨row, hrow, hretire⟩ := mem_filterMap.mp hrow'
    exact Or.inl ⟨row, hrow, Row.retire_succeeds hretire⟩
  inserted request heq := by cases heq

theorem commit_retire (h : log.Wf crypto) (epoch node : UInt64) :
    Committed crypto (.retire node)
      (.retired (PreparedNodeRetirement.commit ⟨epoch, node⟩ log).1) log
      (PreparedNodeRetirement.commit ⟨epoch, node⟩ log).2 := by
  obtain ⟨hwf, hconfig, hrows, hcursors⟩ := retireNodeLoop_spec node log.rows [] log.rows.length log
    { rowsChanged := 0, rowsRetired := 0, cursorRemoved := false } h rfl (Nat.le_refl _)
  obtain ⟨hwf', hrows', hconfig', hcursors'⟩ := dropCursor_spec hwf node
  rw [nil_append] at hrows hcursors
  rw [length_nil] at hwf' hrows' hconfig' hcursors' hrows hcursors hconfig
  refine {
    wf := EventLog.Shape.flags hwf' _ _, idle := rfl, config := hconfig'.trans hconfig
    effect := ?_, cursors := fun cursor hcursor hne hpresent => ?_ }
  · show Effect _ log.rows (EventLog.dropCursor _ node).2.rows
    rw [hrows', hrows]
    exact effect_retire node _ h.rows
  · have hpresent : cursor.afterOriginPubkey ∈
        (EventLog.dropCursor _ node).2.rows.map Row.originPubkey := hpresent
    rw [hrows', hrows] at hpresent
    exact hcursors' cursor (hcursors cursor hcursor hpresent) fun heq => hne (by rw [heq])

theorem Token.Fits.commit {request : Request} {token : Token} (h : log.Wf crypto)
    (hfits : token.Fits crypto log request) :
    Committed crypto request (token.commit log).1 log (token.commit log).2 := by
  cases hfits with
  | duplicate => exact commit_duplicate h _ _ _ _ _
  | exclude hrows hout hnot room => exact commit_exclude h _ _ _ _ _ hrows hout hnot room
  | insert wf hwire hrequired hconfirmed habsent hfresh hslot room =>
    subst hwire hrequired
    exact commit_insert h _ wf hconfirmed habsent hfresh hslot room
  | confirmed hmem hid hconf => exact commit_confirmed h hmem hid hconf
  | confirm hrows hout hmore room => exact commit_confirm h hrows hout hmore room
  | last hrows hout => exact commit_last h hrows hout
  | retire => exact commit_retire h _ _

end Commit

end OnyxServer.AcceptedLog
