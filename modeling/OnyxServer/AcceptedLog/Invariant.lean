import OnyxServer.AcceptedLog.Model
import Mathlib.Data.List.Perm.Subperm

/-!
# The invariant of the accepted-event log

What the searches, the coverage test by length and the two byte counters rely on.
`Shape` is stated over a property of the rows, so that a table in the middle of a
node retirement, where one row is already covered, has a shape too.
-/
namespace OnyxServer.AcceptedLog

open Lib List
open Relay.V2 (RelayId PublicKey Crypto)

/-- The wire verifies under the row's id and carries the row's origin and HLC. -/
def Row.Authentic (crypto : Crypto) (config : Config) (row : Row) : Prop :=
  validateWireAndId crypto config row.relayId row.wire (fun _ => true) =
    .ok ⟨row.originPubkey, row.originNode, row.hlc⟩

/-- The node still owes a confirmation. -/
def Row.Outstanding (row : Row) (node : UInt64) : Prop :=
  node ∈ row.requiredNodes ∧ node ∉ row.confirmedNodes

instance (row : Row) (node : UInt64) : Decidable (row.Outstanding node) :=
  inferInstanceAs (Decidable (_ ∧ _))

/-- The node sets of a row. -/
structure Row.Sets (row : Row) : Prop where
  required : Ordered row.requiredNodes
  confirmed : Ordered row.confirmedNodes
  excluded : Ordered row.excludedOnceNodes
  nonzero : 0 ∉ row.requiredNodes
  confirmedSub : ∀ node ∈ row.confirmedNodes, node ∈ row.requiredNodes
  excludedSub : ∀ node ∈ row.excludedOnceNodes, node ∈ row.requiredNodes
  disjoint : ∀ node ∈ row.confirmedNodes, node ∉ row.excludedOnceNodes

structure Row.Wf (crypto : Crypto) (config : Config) (row : Row) : Prop extends Row.Sets row where
  authentic : row.Authentic crypto config
  bounded : row.requiredNodes.length ≤ config.maxConfirmedNodesPerRow
  pending : ∃ node, row.Outstanding node

section Row

variable {row : Row} {node : UInt64}

theorem Row.Sets.confirmed_length (h : row.Sets) :
    row.confirmedNodes.length ≤ row.requiredNodes.length :=
  (h.confirmed.nodup.subperm h.confirmedSub).length_le

theorem Row.Sets.excluded_length (h : row.Sets) :
    row.excludedOnceNodes.length ≤ row.requiredNodes.length :=
  (h.excluded.nodup.subperm h.excludedSub).length_le

/-- The length test of the source is coverage of the sets. -/
theorem Row.Sets.covered_iff (h : row.Sets) :
    rowCovered row = true ↔ ∀ node, ¬ row.Outstanding node := by
  have hsub := h.confirmed.nodup.subperm h.confirmedSub
  rw [rowCovered, beq_iff_eq]
  constructor
  · rintro hlen node ⟨hreq, hconf⟩
    exact hconf ((hsub.perm_of_length_le hlen.ge).mem_iff.mpr hreq)
  · intro hall
    have hrev : row.requiredNodes ⊆ row.confirmedNodes := fun node hnode =>
      not_not.mp fun hconf => hall node ⟨hnode, hconf⟩
    exact Nat.le_antisymm hsub.length_le (h.required.nodup.subperm hrev).length_le

theorem Row.Sets.missing_iff (h : row.Sets) :
    rowMissingForTarget row node = true ↔ row.Outstanding node := by
  rw [rowMissingForTarget, Bool.and_eq_true, Bool.not_eq_true', ← Bool.not_eq_true,
    containsNode_iff h.required, containsNode_iff h.confirmed]
  rfl

theorem Row.Wf.uncovered {crypto : Crypto} {config : Config} (h : row.Wf crypto config) :
    row.confirmedNodes.length < row.requiredNodes.length := by
  obtain ⟨node, hnode⟩ := h.pending
  have hne : rowCovered row ≠ true := fun hcov => h.covered_iff.mp hcov node hnode
  rw [rowCovered, Ne, beq_iff_eq] at hne
  exact lt_of_le_of_ne h.confirmed_length hne

section

variable (h : row.Sets) (hout : row.Outstanding node)
include h hout

/-- The row with one more confirmation. -/
theorem Row.Sets.confirm {excluded : List UInt64}
    (hexcluded : excluded = row.excludedOnceNodes.filter (· ≠ node)) :
    Row.Sets { row with
      excludedOnceNodes := excluded
      confirmedNodes := insertNodeAssumeCapacity row.confirmedNodes
        (lowerBoundNodes row.confirmedNodes node) node } := by
  obtain ⟨hasc, hmem, -⟩ := insertNode_spec h.confirmed hout.2
  subst hexcluded
  refine { h with
    confirmed := hasc, excluded := ?_, confirmedSub := ?_, excludedSub := ?_, disjoint := ?_ }
  · exact h.excluded.sublist filter_sublist
  · intro other hother
    rcases (hmem other).mp hother with rfl | hother
    · exact hout.1
    · exact h.confirmedSub other hother
  · intro other hother
    exact h.excludedSub other (mem_of_mem_filter hother)
  · intro other hother hex
    obtain ⟨hex, hne⟩ := mem_filter.mp hex
    rcases (hmem other).mp hother with rfl | hother
    · simp at hne
    · exact h.disjoint other hother hex

theorem Row.confirm_outstanding (excluded : List UInt64) (other : UInt64) :
    Row.Outstanding { row with
      excludedOnceNodes := excluded
      confirmedNodes := insertNodeAssumeCapacity row.confirmedNodes
        (lowerBoundNodes row.confirmedNodes node) node } other ↔
      row.Outstanding other ∧ other ≠ node := by
  obtain ⟨-, hmem, -⟩ := insertNode_spec h.confirmed hout.2
  simp only [Row.Outstanding, hmem]
  tauto

/-- The length test before a confirmation is coverage after it. -/
theorem Row.Sets.coverageAfter_iff :
    coverageAfterConfirmation row = true ↔ ∀ other, row.Outstanding other → other = node := by
  have hconfirm := h.confirm hout rfl
  have hlen := (insertNode_spec h.confirmed hout.2).2.2
  have hiff := hconfirm.covered_iff
  simp only [Row.confirm_outstanding h hout, rowCovered, hlen] at hiff
  rw [coverageAfterConfirmation, hiff]
  constructor
  · intro hall other hother
    exact not_not.mp fun hne => hall other ⟨hother, hne⟩
  · rintro hall other ⟨hother, hne⟩
    exact hne (hall other hother)

theorem Row.Sets.last_outstanding (hlast : coverageAfterConfirmation row = true) (other : UInt64) :
    row.Outstanding other ↔ other = node :=
  ⟨(h.coverageAfter_iff hout).mp hlast other, fun heq => heq ▸ hout⟩

theorem Row.Sets.more_outstanding (hmore : ¬ coverageAfterConfirmation row = true) :
    ∃ other, other ≠ node ∧ row.Outstanding other := by
  by_contra hall
  refine hmore ((h.coverageAfter_iff hout).mpr fun other hother => ?_)
  exact not_not.mp fun hne => hall ⟨other, hne, hother⟩

end

end Row

theorem shortId_ne_zero (crypto : Crypto) (nodeId : FixedBytes 20) :
    Relay.V2.shortId crypto nodeId ≠ 0 := by
  rw [Relay.V2.shortId]
  split
  · decide
  · assumption

section Wire

variable {crypto : Crypto} {config : Config} {relayId : RelayId} {wire : Bytes} {alloc : Allocator}
  {wireMeta : WireMeta}

/-- Everything a successful validation has checked. -/
theorem validateWireAndId_ok
    (h : validateWireAndId crypto config relayId wire alloc = .ok wireMeta) :
    0 < wire.length ∧ wire.length ≤ config.maxWireBytes ∧
    ∃ msg, Relay.V2.decode wire = .ok msg ∧
      Relay.V2.verifyAndRelayId crypto msg = .verified relayId ∧
      Relay.V2.encode msg = .ok wire ∧
      wireMeta = ⟨FixedBytes.ofSlice 32 msg.originPubkey, msg.originNode, msg.hlc⟩ := by
  unfold validateWireAndId at h
  by_cases hlen : wire.length = 0 ∨ config.maxWireBytes < wire.length
  · rw [if_pos hlen] at h
    cases h
  rw [if_neg hlen] at h
  refine ⟨by omega, by omega, ?_⟩
  cases hmsg : Relay.V2.decode wire with
  | error e => simp only [hmsg] at h; split at h <;> cases h
  | ok msg =>
    cases hver : Relay.V2.verifyAndRelayId crypto msg with
    | verified derived =>
      cases henc : Relay.V2.encode msg with
      | error e => simp only [hmsg, hver, henc] at h; split_ifs at h
      | ok canonical =>
        simp only [hmsg, hver, henc] at h
        split_ifs at h with h0 h1 hid h2 hwire
        exact ⟨msg, rfl, by rw [not_not.mp hid] at hver; exact hver,
          by rw [henc, not_not.mp hwire], (Except.ok.inj h).symm⟩
    | _ => simp only [hmsg, hver] at h; split_ifs at h

/-- A validation that succeeds also succeeds with memory to spare. -/
theorem validateWireAndId_alloc
    (h : validateWireAndId crypto config relayId wire alloc = .ok wireMeta) :
    validateWireAndId crypto config relayId wire (fun _ => true) = .ok wireMeta := by
  obtain ⟨hpos, hmax, msg, hmsg, hver, henc, rfl⟩ := validateWireAndId_ok h
  have hlen : ¬ (wire.length = 0 ∨ config.maxWireBytes < wire.length) := by omega
  rw [validateWireAndId, if_neg hlen]
  simp [hmsg, hver, henc]

theorem verifyAndRelayId_node {msg : Relay.V2.RelayMessage}
    (h : Relay.V2.verifyAndRelayId crypto msg = .verified relayId) : msg.originNode ≠ 0 := by
  unfold Relay.V2.verifyAndRelayId at h
  split_ifs at h
  simp only at h
  split_ifs at h
  · rename_i horigin
    rw [← not_not.mp horigin]
    exact shortId_ne_zero _ _

theorem validateWireAndId_node
    (h : validateWireAndId crypto config relayId wire alloc = .ok wireMeta) :
    wireMeta.originNode ≠ 0 := by
  obtain ⟨-, -, msg, -, hver, -, rfl⟩ := validateWireAndId_ok h
  exact verifyAndRelayId_node hver

end Wire

theorem foldl_add_eq_sum (f : Row → Nat) (rows : List Row) (start : Nat) :
    rows.foldl (fun total row => total + f row) start = start + (rows.map f).sum := by
  induction rows generalizing start with
  | nil => rfl
  | cons row rows ih =>
    rw [foldl_cons, ih, map_cons, sum_cons]
    omega

/-- The bytes a table of rows holds. -/
def bytesOf (f : Row → Nat) (rows : List Row) (cursors : List CursorEntry) : Nat :=
  cursors.length * cursorEntryLen + (rows.map f).sum

theorem recomputeAggregateBytes_eq (rows : List Row) (cursors : List CursorEntry) :
    recomputeAggregateBytes rows cursors = bytesOf rowAggregateBytes rows cursors :=
  foldl_add_eq_sum _ _ _

theorem recomputeBodyBytes_eq (rows : List Row) (cursors : List CursorEntry) :
    recomputeBodyBytes rows cursors = bytesOf rowBodyBytes rows cursors :=
  foldl_add_eq_sum _ _ _

theorem bytesOf_middle (f : Row → Nat) (l r : List Row) (row : Row) (cursors : List CursorEntry) :
    bytesOf f (l ++ row :: r) cursors = bytesOf f (l ++ r) cursors + f row := by
  simp only [bytesOf, map_append, map_cons, sum_append, sum_cons]
  omega

/-- The identity an origin gives an event. -/
def eventKey (row : Row) : PublicKey × UInt64 := (row.originPubkey, row.hlc)

/-- The two tables and their counters; `P` is what holds of each row. -/
structure EventLog.Shape (P : Row → Prop) (log : EventLog) : Prop where
  valid : log.config.valid = true
  frozen : log.frozenConfig = log.config
  ascending : Ascending Row.relayId log.rows
  distinct : (log.rows.map eventKey).Nodup
  rows : ∀ row ∈ log.rows, P row
  rowsBound : log.rows.length ≤ log.config.maxRows
  cursorsAscending : Ascending CursorEntry.node log.cursors
  cursorNonzero : ∀ cursor ∈ log.cursors, cursor.node ≠ 0
  cursorTarget : ∀ cursor ∈ log.cursors, cursor.afterOriginPubkey ∈ log.rows.map Row.originPubkey
  cursorsBound : log.cursors.length ≤ log.config.maxCursorNodes
  aggregate : log.aggregateBytes = bytesOf rowAggregateBytes log.rows log.cursors
  body : log.checkpointBodyBytes = bytesOf rowBodyBytes log.rows log.cursors
  aggregateBound : log.aggregateBytes ≤ log.config.maxAggregateBytes
  bodyBound : log.checkpointBodyBytes ≤ hardMaxCheckpointBytes - checkpointHeaderLen - checksumLen

def EventLog.Wf (crypto : Crypto) (log : EventLog) : Prop :=
  log.Shape (Row.Wf crypto log.config)

theorem EventLog.Shape.flags {P : Row → Prop} {log : EventLog} (h : log.Shape P)
    (epoch : UInt64) (active : Bool) :
    EventLog.Shape P { log with mutationEpoch := epoch, preparedActive := active } :=
  { h with }

theorem EventLog.init_wf {crypto : Crypto} {config : Config} {log : EventLog}
    (h : EventLog.init config = some log) : log.Wf crypto ∧ log.preparedActive = false := by
  unfold EventLog.init at h
  split at h
  · rename_i hvalid
    cases h
    refine ⟨?_, rfl⟩
    constructor <;> simp [hvalid, Ascending, bytesOf]
  · cases h

section Shape

variable {P Q : Row → Prop} {log : EventLog} {l r : List Row} {row row' : Row}

theorem EventLog.Shape.replace (h : log.Shape P) (hrows : log.rows = l ++ row :: r) (hrow : Q row')
    (hothers : ∀ other ∈ l ++ r, Q other)
    (hid : row'.relayId = row.relayId) (hkey : eventKey row' = eventKey row)
    {aggregate body : Nat} (hagg : aggregate + rowAggregateBytes row =
      log.aggregateBytes + rowAggregateBytes row')
    (hbody : body + rowBodyBytes row = log.checkpointBodyBytes + rowBodyBytes row')
    (haggBound : aggregate ≤ log.config.maxAggregateBytes)
    (hbodyBound : body ≤ hardMaxCheckpointBytes - checkpointHeaderLen - checksumLen) :
    EventLog.Shape Q { log with
      rows := l ++ row' :: r, aggregateBytes := aggregate, checkpointBodyBytes := body } := by
  have horigin : row'.originPubkey = row.originPubkey := congrArg Prod.fst hkey
  have hasc := h.ascending
  have hdistinct := h.distinct
  have htarget := h.cursorTarget
  have haggregate := h.aggregate
  have hbodyEq := h.body
  have hlen := h.rowsBound
  rw [hrows] at hasc hdistinct htarget haggregate hbodyEq hlen
  rw [bytesOf_middle] at haggregate hbodyEq
  refine { h with
    ascending := ?_, distinct := ?_, rows := ?_, rowsBound := ?_, cursorTarget := ?_
    aggregate := ?_, body := ?_, aggregateBound := haggBound, bodyBound := hbodyBound }
  · rw [Ascending, ← pairwise_map] at hasc ⊢
    simpa [hid] using hasc
  · simpa [hkey] using hdistinct
  · intro other hother
    rcases mem_append.mp hother with hother | hother
    · exact hothers other (mem_append_left _ hother)
    · rcases mem_cons.mp hother with rfl | hother
      · exact hrow
      · exact hothers other (mem_append_right _ hother)
  · simpa using hlen
  · intro cursor hcursor
    simpa [horigin] using htarget cursor hcursor
  · show aggregate = bytesOf rowAggregateBytes (l ++ row' :: r) log.cursors
    rw [bytesOf_middle]
    omega
  · show body = bytesOf rowBodyBytes (l ++ row' :: r) log.cursors
    rw [bytesOf_middle]
    omega

/-- A new row joins between its neighbours. -/
theorem EventLog.Shape.insert (h : log.Shape P) (hrows : log.rows = l ++ r)
    (hl : ∀ other ∈ l, other.relayId < row.relayId) (hr : ∀ other ∈ r, row.relayId < other.relayId)
    (hfresh : eventKey row ∉ log.rows.map eventKey) (hrow : P row)
    (hroom : log.rows.length < log.config.maxRows)
    (haggBound : log.aggregateBytes + rowAggregateBytes row ≤ log.config.maxAggregateBytes)
    (hbodyBound : log.checkpointBodyBytes + rowBodyBytes row ≤
      hardMaxCheckpointBytes - checkpointHeaderLen - checksumLen) :
    EventLog.Shape P { log with
      rows := l ++ row :: r
      aggregateBytes := log.aggregateBytes + rowAggregateBytes row
      checkpointBodyBytes := log.checkpointBodyBytes + rowBodyBytes row } := by
  have hasc := h.ascending
  have hdistinct := h.distinct
  have hold := h.rows
  have htarget := h.cursorTarget
  have haggregate := h.aggregate
  have hbodyEq := h.body
  rw [hrows] at hasc hdistinct hold htarget haggregate hbodyEq hfresh hroom
  refine { h with
    ascending := hasc.insert hl hr, distinct := ?_, rows := ?_, rowsBound := ?_, cursorTarget := ?_
    aggregate := ?_, body := ?_, aggregateBound := haggBound, bodyBound := hbodyBound }
  · rw [map_append] at hdistinct hfresh
    rw [map_append, map_cons, nodup_middle, nodup_cons]
    exact ⟨hfresh, hdistinct⟩
  · intro other hother
    rcases mem_append.mp hother with hother | hother
    · exact hold other (mem_append_left _ hother)
    · rcases mem_cons.mp hother with rfl | hother
      · exact hrow
      · exact hold other (mem_append_right _ hother)
  · simp only [length_append, length_cons] at hroom ⊢
    omega
  · intro cursor hcursor
    have := htarget cursor hcursor
    simp only [map_append, map_cons, mem_append, mem_cons] at this ⊢
    tauto
  · show _ = bytesOf rowAggregateBytes (l ++ row :: r) log.cursors
    rw [bytesOf_middle, haggregate]
  · show _ = bytesOf rowBodyBytes (l ++ row :: r) log.cursors
    rw [bytesOf_middle, hbodyEq]

theorem rehome_length (rows : List Row) (origin : PublicKey) (cursors : List CursorEntry) :
    (rehome rows origin cursors).map CursorEntry.node = cursors.map CursorEntry.node := by
  unfold rehome
  split
  · rfl
  split
  · rw [map_map]
    apply map_congr_left
    intro cursor _
    simp only [Function.comp_apply]
    split <;> rfl
  · rfl

theorem rehome_target {rows : List Row} {origin : PublicKey} {cursors : List CursorEntry}
    (hne : rows ≠ [])
    (h : ∀ cursor ∈ cursors, cursor.afterOriginPubkey = origin ∨
      cursor.afterOriginPubkey ∈ rows.map Row.originPubkey) :
    ∀ cursor ∈ rehome rows origin cursors,
      cursor.afterOriginPubkey ∈ rows.map Row.originPubkey := by
  intro cursor hcursor
  unfold rehome at hcursor
  split at hcursor
  · rename_i hpresent
    obtain ⟨row, hrow, horigin⟩ := containsOrigin_iff.mp hpresent
    rcases h cursor hcursor with heq | hmem
    · rw [heq, ← horigin]
      exact mem_map_of_mem hrow
    · exact hmem
  cases hgreatest : greatestOrigin rows with
  | none =>
    obtain ⟨row, hrow⟩ := exists_mem_of_ne_nil _ hne
    have := @greatestOriginWhere_isSome rows none (fun _ => true) (Or.inr ⟨row, hrow, rfl⟩)
    rw [← greatestOrigin, hgreatest] at this
    cases this
  | some fallback =>
    rw [hgreatest] at hcursor
    obtain ⟨old, hold, rfl⟩ := mem_map.mp hcursor
    split
    · rcases greatestOriginWhere_mem hgreatest with hnone | ⟨row, hrow, -, horigin⟩
      · cases hnone
      · show fallback ∈ _
        rw [← horigin]
        exact mem_map_of_mem hrow
    · rename_i hne
      exact (h old hold).resolve_left hne

theorem EventLog.Shape.removeRowAt (h : log.Shape P) (hrows : log.rows = l ++ row :: r)
    (hothers : ∀ other ∈ l ++ r, Q other) : EventLog.Shape Q (log.removeRowAt l.length) := by
  have hat : log.rows[l.length]? = some row := by rw [hrows, getElem?_middle]
  have hslot : removeRowSlot log.rows l.length = l ++ r := by
    rw [removeRowSlot, hrows, removeShift_append]
  have hsub : (l ++ r).Sublist log.rows := by
    rw [hrows]
    exact List.Sublist.append_left (sublist_cons_self _ _) l
  have htarget := h.cursorTarget
  have haggregate := h.aggregate
  have hbodyEq := h.body
  have haggBound := h.aggregateBound
  have hbodyBound := h.bodyBound
  have hlen := h.rowsBound
  rw [hrows] at htarget haggregate hbodyEq hlen
  rw [bytesOf_middle] at haggregate hbodyEq
  rw [length_append, length_cons] at hlen
  have hasc := h.ascending.sublist hsub
  have hdistinct := h.distinct.sublist (hsub.map eventKey)
  unfold EventLog.removeRowAt
  rw [hat]
  simp only [hslot]
  by_cases hempty : (l ++ r).length = 0
  · rw [if_pos hempty]
    have hnil := length_eq_zero_iff.mp hempty
    rw [hnil] at haggregate hbodyEq
    simp only [bytesOf, map_nil, sum_nil] at haggregate hbodyEq
    constructor <;> simp only [hnil]
    · exact h.valid
    · exact h.frozen
    · exact List.Pairwise.nil
    · exact List.Pairwise.nil
    · simp
    · simp
    · exact List.Pairwise.nil
    · simp
    · simp
    · simp
    · simp only [bytesOf, length_nil, map_nil, sum_nil]
      omega
    · simp only [bytesOf, length_nil, map_nil, sum_nil]
      omega
    · omega
    · omega
  · rw [if_neg hempty]
    have hnodes := rehome_length (l ++ r) row.originPubkey log.cursors
    have hcount : (rehome (l ++ r) row.originPubkey log.cursors).length = log.cursors.length := by
      simpa using congrArg List.length hnodes
    have hbytes : ∀ f, bytesOf f (l ++ r) (rehome (l ++ r) row.originPubkey log.cursors) =
        bytesOf f (l ++ r) log.cursors := fun f => by rw [bytesOf, hcount, bytesOf]
    refine { h with
      ascending := hasc, distinct := hdistinct, rows := hothers, rowsBound := ?_
      cursorsAscending := ?_, cursorNonzero := ?_, cursorTarget := ?_, cursorsBound := ?_
      aggregate := ?_, body := ?_, aggregateBound := ?_, bodyBound := ?_ }
    · show (l ++ r).length ≤ log.config.maxRows
      rw [length_append]
      omega
    · have hold := h.cursorsAscending
      rw [Ascending, ← pairwise_map] at hold ⊢
      rw [hnodes]
      exact hold
    · intro cursor hcursor
      have hmem : cursor.node ∈ log.cursors.map CursorEntry.node := by
        rw [← hnodes]
        exact mem_map_of_mem hcursor
      obtain ⟨old, hold, heq⟩ := mem_map.mp hmem
      rw [← heq]
      exact h.cursorNonzero old hold
    · apply rehome_target (by rintro heq; simp [heq] at hempty)
      intro cursor hcursor
      have := htarget cursor hcursor
      simp only [map_append, map_cons, mem_append, mem_cons] at this ⊢
      tauto
    · show (rehome (l ++ r) row.originPubkey log.cursors).length ≤ log.config.maxCursorNodes
      rw [hcount]
      exact h.cursorsBound
    · show log.aggregateBytes - rowAggregateBytes row = _
      rw [hbytes]
      omega
    · show log.checkpointBodyBytes - rowBodyBytes row = _
      rw [hbytes]
      omega
    · show log.aggregateBytes - rowAggregateBytes row ≤ log.config.maxAggregateBytes
      omega
    · show log.checkpointBodyBytes - rowBodyBytes row ≤ _
      omega

theorem EventLog.Shape.setCursors (h : log.Shape P) {cursors : List CursorEntry}
    {aggregate body : Nat} (hasc : Ascending CursorEntry.node cursors)
    (hnonzero : ∀ cursor ∈ cursors, cursor.node ≠ 0)
    (htarget : ∀ cursor ∈ cursors, cursor.afterOriginPubkey ∈ log.rows.map Row.originPubkey)
    (hbound : cursors.length ≤ log.config.maxCursorNodes)
    (hagg : aggregate + log.cursors.length * cursorEntryLen =
      log.aggregateBytes + cursors.length * cursorEntryLen)
    (hbody : body + log.cursors.length * cursorEntryLen =
      log.checkpointBodyBytes + cursors.length * cursorEntryLen)
    (haggBound : aggregate ≤ log.config.maxAggregateBytes)
    (hbodyBound : body ≤ hardMaxCheckpointBytes - checkpointHeaderLen - checksumLen) :
    EventLog.Shape P { log with
      cursors := cursors, aggregateBytes := aggregate, checkpointBodyBytes := body } := by
  have haggregate := h.aggregate
  have hbodyEq := h.body
  rw [bytesOf] at haggregate hbodyEq
  refine { h with
    cursorsAscending := hasc, cursorNonzero := hnonzero, cursorTarget := htarget
    cursorsBound := hbound, aggregate := ?_, body := ?_
    aggregateBound := haggBound, bodyBound := hbodyBound }
  · show aggregate = cursors.length * cursorEntryLen + (log.rows.map rowAggregateBytes).sum
    omega
  · show body = cursors.length * cursorEntryLen + (log.rows.map rowBodyBytes).sum
    omega

/-- A removal keeps every cursor whose origin is still there. -/
theorem EventLog.removeRowAt_cursors (hrows : log.rows = l ++ row :: r) {cursor : CursorEntry}
    (hcursor : cursor ∈ log.cursors)
    (hpresent : cursor.afterOriginPubkey ∈ (l ++ r).map Row.originPubkey) :
    cursor ∈ (log.removeRowAt l.length).cursors := by
  have hat : log.rows[l.length]? = some row := by rw [hrows, getElem?_middle]
  have hslot : removeRowSlot log.rows l.length = l ++ r := by
    rw [removeRowSlot, hrows, removeShift_append]
  unfold EventLog.removeRowAt
  rw [hat]
  simp only [hslot]
  have hne : ¬ (l ++ r).length = 0 := by
    intro hempty
    rw [length_eq_zero_iff.mp hempty] at hpresent
    cases hpresent
  rw [if_neg hne]
  show cursor ∈ rehome _ _ _
  unfold rehome
  split
  · exact hcursor
  rename_i habsent
  split
  · refine mem_map.mpr ⟨cursor, hcursor, if_neg ?_⟩
    intro heq
    obtain ⟨other, hother, horigin⟩ := mem_map.mp hpresent
    exact habsent (containsOrigin_iff.mpr ⟨other, hother, horigin.trans heq⟩)
  · exact hcursor

theorem EventLog.removeRowAt_rows (hrows : log.rows = l ++ row :: r) :
    (log.removeRowAt l.length).rows = l ++ r ∧ (log.removeRowAt l.length).config = log.config := by
  have hat : log.rows[l.length]? = some row := by rw [hrows, getElem?_middle]
  have hslot : removeRowSlot log.rows l.length = l ++ r := by
    rw [removeRowSlot, hrows, removeShift_append]
  unfold EventLog.removeRowAt
  rw [hat]
  simp only [hslot]
  split
  · exact ⟨rfl, rfl⟩
  · exact ⟨rfl, rfl⟩

end Shape

end OnyxServer.AcceptedLog
