import OnyxServer.AcceptedLog.Invariant

/-!
# Prepared changes

A request is prepared into a token and the token is committed or dropped. `Fits`
says what a preparation has checked of the tables when it hands out its token.
-/
namespace OnyxServer.AcceptedLog

open Lib List Option Except
open Relay.V2 (RelayId PublicKey Crypto)

/-- The arguments of the three preparations. -/
inductive Request where
  | accept (relayId : RelayId) (wire : Bytes) (acceptingNode : UInt64)
      (ingressNode : Option UInt64) (requiredNodes : List UInt64)
  | confirm (relayId : RelayId) (node : UInt64)
  | retire (node : UInt64)
  deriving DecidableEq

inductive Token where
  | accepted (prepared : PreparedAccepted)
  | confirmation (prepared : PreparedConfirmation)
  | retirement (prepared : PreparedNodeRetirement)
  deriving DecidableEq

inductive Outcome where
  | reserved (outcome : ReserveOutcome)
  | confirmed (outcome : ConfirmationOutcome)
  | retired (result : NodeRetirementResult)
  deriving DecidableEq

/-- A conflict opens nothing. -/
def EventLog.prepare (crypto : Crypto) (log : EventLog) (alloc : Allocator) :
    Request → Except Error (Option Token) × EventLog
  | .accept relayId wire acceptingNode ingressNode requiredNodes =>
    match log.prepareAccepted crypto relayId wire acceptingNode ingressNode requiredNodes alloc with
    | (.error e, log) => (.error e, log)
    | (.ok .conflict, log) => (.ok none, log)
    | (.ok (.ready prepared), log) => (.ok (some (.accepted prepared)), log)
  | .confirm relayId node =>
    match log.prepareAuthenticatedDurableAck relayId node alloc with
    | (.error e, log) => (.error e, log)
    | (.ok prepared, log) => (.ok (some (.confirmation prepared)), log)
  | .retire node =>
    match log.prepareConfiguredNodeRetirement node with
    | (.error e, log) => (.error e, log)
    | (.ok prepared, log) => (.ok (some (.retirement prepared)), log)

def Token.commit (token : Token) (log : EventLog) : Outcome × EventLog :=
  match token with
  | .accepted prepared => ((.reserved (prepared.commit log).1), (prepared.commit log).2)
  | .confirmation prepared => ((.confirmed (prepared.commit log).1), (prepared.commit log).2)
  | .retirement prepared => ((.retired (prepared.commit log).1), (prepared.commit log).2)

/-! ## What a preparation has checked -/

/-- `added` more bytes keep both counters within their limits. -/
structure EventLog.Room (log : EventLog) (addedAggregate addedBody : Nat) : Prop where
  aggregate : log.aggregateBytes + addedAggregate ≤ log.config.maxAggregateBytes
  body : log.checkpointBodyBytes + addedBody ≤
    hardMaxCheckpointBytes - checkpointHeaderLen - checksumLen

inductive Token.Fits (crypto : Crypto) (log : EventLog) : Request → Token → Prop where
  | duplicate {relayId wire acceptingNode ingressNode requiredNodes epoch} :
    Fits crypto log (.accept relayId wire acceptingNode ingressNode requiredNodes)
      (.accepted ⟨epoch, .exactDuplicate, .noOp⟩)
  | exclude {relayId wire acceptingNode ingressNode requiredNodes epoch l row r node}
    (rows : log.rows = l ++ row :: r) (outstanding : row.Outstanding node)
    (notYet : node ∉ row.excludedOnceNodes) (room : log.Room nodeLen nodeLen) :
    Fits crypto log (.accept relayId wire acceptingNode ingressNode requiredNodes)
      (.accepted ⟨epoch, .exactDuplicate,
        .addExclusion l.length (lowerBoundNodes row.excludedOnceNodes node) node⟩)
  | insert {wire acceptingNode ingressNode requiredNodes epoch row}
    (wf : row.Wf crypto log.config) (wireEq : row.wire = wire)
    (required : row.requiredNodes = requiredNodes) (confirmed : row.confirmedNodes =
      [acceptingNode])
    (absent : ∀ other ∈ log.rows, other.relayId ≠ row.relayId)
    (fresh : eventKey row ∉ log.rows.map eventKey) (slot : log.rows.length < log.config.maxRows)
    (room : log.Room (rowAggregateBytes row) (rowBodyBytes row)) :
    Fits crypto log (.accept row.relayId wire acceptingNode ingressNode requiredNodes)
      (.accepted ⟨epoch, .inserted, .insert row⟩)
  | confirmed {relayId node epoch row} (mem : row ∈ log.rows) (id : row.relayId = relayId)
    (already : node ∈ row.confirmedNodes) :
    Fits crypto log (.confirm relayId node) (.confirmation ⟨epoch, .alreadyConfirmed, .noOp⟩)
  | confirm {node epoch l row r} (rows : log.rows = l ++ row :: r)
    (outstanding : row.Outstanding node) (more : ∃ other, other ≠ node ∧ row.Outstanding other)
    (room : node ∉ row.excludedOnceNodes → log.Room nodeLen nodeLen) :
    Fits crypto log (.confirm row.relayId node)
      (.confirmation ⟨epoch, .confirmed,
        .add l.length (lowerBoundNodes row.confirmedNodes node)
          (nodeIndex row.excludedOnceNodes node) node⟩)
  | last {node epoch l row r} (rows : log.rows = l ++ row :: r)
    (outstanding : ∀ other, row.Outstanding other ↔ other = node) :
    Fits crypto log (.confirm row.relayId node)
      (.confirmation ⟨epoch, .confirmedAndRetired, .retireRow l.length⟩)
  | retire {node epoch} : Fits crypto log (.retire node) (.retirement ⟨epoch, node⟩)

section Prepare

variable {crypto : Crypto} {log : EventLog}

theorem validateLiveConfig_ok {P : Row → Prop} (h : log.Shape P) :
    log.validateLiveConfig = .ok () := by
  have heql : log.config.eql log.frozenConfig = true := by simp [h.frozen, Config.eql]
  have hcap : ¬ (log.config.maxRows < log.rows.length ∨
      log.config.maxCursorNodes < log.cursors.length) := by
    have := h.rowsBound
    have := h.cursorsBound
    omega
  simp [EventLog.validateLiveConfig, h.valid, heql, if_neg hcap]

theorem beginPrepare_cases {P : Row → Prop} (h : log.Shape P) :
    (log.preparedActive = true ∧ log.beginPrepare = (.error .preparedMutationActive, log)) ∨
    (log.preparedActive = false ∧
      log.beginPrepare = (.ok log.mutationEpoch, { log with preparedActive := true })) := by
  rw [EventLog.beginPrepare, validateLiveConfig_ok h]
  cases hactive : log.preparedActive
  · exact Or.inr ⟨rfl, by simp⟩
  · exact Or.inl ⟨rfl, by simp⟩

theorem ensureProspectiveCapacity_ok {addedAggregate addedBody : Nat}
    (h : log.ensureProspectiveCapacity addedAggregate addedBody = .ok ()) :
    log.Room addedAggregate addedBody := by
  unfold EventLog.ensureProspectiveCapacity checkedAdd at h
  split_ifs at h with h1 h2
  · simp only at h
    split_ifs at h with h3 h4
    exact ⟨by omega, by omega⟩
  · simp only at h
    split_ifs at h

variable {nodes : List UInt64}

theorem validateNodeOrder_ok {previous : Option UInt64}
    (h : validateNodeOrder previous nodes = .ok ()) :
    Ordered nodes ∧ 0 ∉ nodes ∧ ∀ prior ∈ previous, ∀ node ∈ nodes, prior < node := by
  induction nodes generalizing previous with
  | nil => exact ⟨List.Pairwise.nil, by simp, by simp⟩
  | cons node nodes ih =>
    rw [validateNodeOrder] at h
    split_ifs at h with hzero hdup horder
    obtain ⟨hasc, hnonzero, hlater⟩ := ih h
    have habove := hlater node rfl
    refine ⟨ascending_cons.mpr ⟨habove, hasc⟩, ?_, ?_⟩
    · rw [mem_cons, not_or]
      exact ⟨Ne.symm hzero, hnonzero⟩
    · intro prior hprior other hother
      rw [Option.mem_def] at hprior
      subst hprior
      have hlt : prior < node := by
        have hle : ¬ node < prior := by simpa using horder
        exact lt_of_le_of_ne (not_lt.mp hle) fun heq => hdup (by rw [heq])
      rcases mem_cons.mp hother with rfl | hother
      · exact hlt
      · exact hlt.trans (habove other hother)

variable {acceptingNode : UInt64}

theorem validateRequiredMembership_ok {maximum : Nat}
    (h : validateRequiredMembership nodes acceptingNode maximum = .ok ()) :
    2 ≤ nodes.length ∧ nodes.length ≤ maximum ∧ Ordered nodes ∧ 0 ∉ nodes ∧
      acceptingNode ∈ nodes := by
  unfold validateRequiredMembership at h
  by_cases hlen : nodes.length < 2 ∨ maximum < nodes.length
  · rw [if_pos hlen] at h
    cases h
  rw [if_neg hlen] at h
  cases horder : validateNodeOrder none nodes with
  | error e => rw [horder] at h; cases h
  | ok u =>
    rw [horder] at h
    simp only at h
    split_ifs at h with hcontains
    obtain ⟨hasc, hnonzero, -⟩ := validateNodeOrder_ok horder
    exact ⟨by omega, by omega, hasc, hnonzero, (containsNode_iff hasc).mp hcontains⟩

variable {requiredNodes : List UInt64} {ingressNode : Option UInt64}

theorem ingressExcluded_spec
    (h : Ordered requiredNodes) :
    ingressExcluded acceptingNode ingressNode requiredNodes = [] ∨
    ∃ node, ingressExcluded acceptingNode ingressNode requiredNodes = [node] ∧
      node ≠ acceptingNode ∧ node ∈ requiredNodes := by
  unfold ingressExcluded
  cases ingressNode with
  | none => exact Or.inl rfl
  | some node =>
    simp only
    split_ifs with hnode
    · exact Or.inr ⟨node, rfl, hnode.1, (containsNode_iff h).mp hnode.2⟩
    · exact Or.inl rfl

theorem exists_other (h : Ordered nodes) (hlen : 2 ≤ nodes.length)
    (node : UInt64) : ∃ other ∈ nodes, other ≠ node := by
  by_contra hall
  have hsub : nodes ⊆ [node] := fun other hother =>
    mem_singleton.mpr (not_not.mp fun hne => hall ⟨other, hother, hne⟩)
  have := (h.nodup.subperm hsub).length_le
  simp only [length_singleton] at this
  omega

variable {relayId : RelayId} {alloc : Allocator} {wire : Bytes}

theorem planInsert_ok
    {row : Row}
    (hreq : validateRequiredMembership requiredNodes acceptingNode
      log.config.maxConfirmedNodesPerRow = .ok ())
    (h : log.planInsert crypto relayId wire acceptingNode ingressNode requiredNodes alloc =
      .ok row) :
    row.Wf crypto log.config ∧ row.relayId = relayId ∧ row.wire = wire ∧
      row.requiredNodes = requiredNodes ∧ row.confirmedNodes = [acceptingNode] ∧
      eventKey row ∉ log.rows.map eventKey ∧ log.rows.length < log.config.maxRows ∧
      log.Room (rowAggregateBytes row) (rowBodyBytes row) := by
  obtain ⟨hlen, hmax, hasc, hnonzero, haccepting⟩ := validateRequiredMembership_ok hreq
  unfold EventLog.planInsert at h
  split_ifs at h with hslot
  simp only at h
  cases hagg : checkedAdd wire.length ((requiredNodes.length + 1 +
      (ingressExcluded acceptingNode ingressNode requiredNodes).length) * nodeLen) with
  | none => rw [hagg] at h; cases h
  | some addedAggregate =>
    simp only [hagg] at h
    cases hbody : checkedAdd rowPrefixLen addedAggregate with
    | none => rw [hbody] at h; cases h
    | some addedBody =>
      simp only [hbody] at h
      cases hroom : log.ensureProspectiveCapacity addedAggregate addedBody with
      | error e => rw [hroom] at h; cases h
      | ok u =>
        simp only [hroom] at h
        cases hwire : validateWireAndId crypto log.config relayId wire alloc with
        | error e => rw [hwire] at h; cases h
        | ok wireMeta =>
          simp only [hwire] at h
          split_ifs at h with hdup halloc
          cases h
          have haggEq : addedAggregate = wire.length + (requiredNodes.length + 1 +
              (ingressExcluded acceptingNode ingressNode requiredNodes).length) * nodeLen := by
            unfold checkedAdd at hagg
            split_ifs at hagg
            exact (some.inj hagg).symm
          have hbodyEq : addedBody = rowPrefixLen + addedAggregate := by
            unfold checkedAdd at hbody
            split_ifs at hbody
            exact (some.inj hbody).symm
          obtain ⟨other, hother, hne⟩ := exists_other hasc hlen acceptingNode
          refine ⟨?_, rfl, rfl, rfl, rfl, ?_, by omega, ?_⟩
          · refine {
              required := hasc, confirmed := pairwise_singleton _ _, excluded := ?_
              nonzero := hnonzero, confirmedSub := ?_, excludedSub := ?_, disjoint := ?_
              authentic := validateWireAndId_alloc hwire, bounded := hmax
              pending := ⟨other, hother, by simpa using hne⟩ }
            · rcases ingressExcluded_spec hasc with hnil | ⟨node, hnode, -, -⟩
              · exact hnil ▸ List.Pairwise.nil
              · exact hnode ▸ pairwise_singleton _ _
            · intro node hnode
              exact mem_singleton.mp hnode ▸ haccepting
            · intro node hnode
              rcases ingressExcluded_spec hasc with hnil | ⟨excluded, hex, -, hmem⟩
              · rw [hnil] at hnode
                cases hnode
              · rw [hex] at hnode
                exact mem_singleton.mp hnode ▸ hmem
            · intro node hnode hexcluded
              rcases ingressExcluded_spec hasc with hnil | ⟨excluded, hex, hneq, -⟩
              · rw [hnil] at hexcluded
                cases hexcluded
              · rw [hex] at hexcluded
                exact hneq ((mem_singleton.mp hexcluded).symm.trans (mem_singleton.mp hnode))
          · intro hmem
            obtain ⟨old, hold, hkey⟩ := mem_map.mp hmem
            obtain ⟨horigin, hhlc⟩ := Prod.mk.inj hkey
            refine hdup (any_eq_true.mpr ⟨old, hold, ?_⟩)
            simp [horigin, hhlc]
          · have hroomOk := ensureProspectiveCapacity_ok hroom
            rw [hbodyEq, haggEq] at hroomOk
            exact hroomOk

/-- The first failing check of a duplicate leaves nothing; otherwise the exclusion fits. -/
theorem planDuplicate_fits (h : log.Wf crypto)
    {l r : List Row} {row : Row} {action : AcceptedAction} (epoch : UInt64)
    (hrows : log.rows = l ++ row :: r)
    (hplan : log.planDuplicate l.length row ingressNode alloc = .ok action) :
    Token.Fits crypto log (.accept relayId wire acceptingNode ingressNode requiredNodes)
      (.accepted ⟨epoch, .exactDuplicate, action⟩) := by
  have hwf := h.rows row (by simp [hrows])
  unfold EventLog.planDuplicate at hplan
  cases hneed : exclusionNeeded row ingressNode with
  | none =>
    rw [hneed] at hplan
    cases hplan
    exact .duplicate
  | some node =>
    simp only [hneed] at hplan
    by_cases hfull : log.config.maxConfirmedNodesPerRow ≤ row.excludedOnceNodes.length
    · rw [if_pos hfull] at hplan
      cases hplan
    rw [if_neg hfull] at hplan
    cases hroom : log.ensureProspectiveCapacity nodeLen nodeLen with
    | error e => rw [hroom] at hplan; cases hplan
    | ok u =>
      simp only [hroom] at hplan
      split_ifs at hplan with halloc
      cases hplan
      unfold exclusionNeeded at hneed
      cases ingressNode with
      | none => cases hneed
      | some ingress =>
        simp only at hneed
        split_ifs at hneed with hcond
        cases hneed
        rw [containsNode_iff hwf.required, containsNode_iff hwf.confirmed,
          containsNode_iff hwf.excluded] at hcond
        exact .exclude hrows ⟨hcond.1, hcond.2.1⟩ hcond.2.2 (ensureProspectiveCapacity_ok hroom)

theorem planAccepted_fits (h : log.Wf crypto)
    {outcome : ReserveOutcome} {action : AcceptedAction} (epoch : UInt64)
    (hreq : validateRequiredMembership requiredNodes acceptingNode
      log.config.maxConfirmedNodesPerRow = .ok ())
    (hplan : log.planAccepted crypto relayId wire acceptingNode ingressNode requiredNodes alloc =
      .ok (some (outcome, action))) :
    Token.Fits crypto log (.accept relayId wire acceptingNode ingressNode requiredNodes)
      (.accepted ⟨epoch, outcome, action⟩) := by
  unfold EventLog.planAccepted at hplan
  rcases h.ascending.findBy_cases relayId with
    ⟨l, row, r, hrows, -, -, hfind, -⟩ | ⟨l, r, hrows, -, hfind, hl, hr⟩
  · rw [rowAt, hfind] at hplan
    simp only at hplan
    by_cases hwire : row.wire ≠ wire
    · rw [if_pos hwire] at hplan
      cases hplan
    rw [if_neg hwire] at hplan
    cases hdup : log.planDuplicate l.length row ingressNode alloc with
    | error e => rw [hdup] at hplan; cases hplan
    | ok planned =>
      rw [hdup] at hplan
      obtain ⟨rfl, rfl⟩ := Prod.mk.inj (some.inj (ok.inj hplan))
      exact planDuplicate_fits h epoch hrows hdup
  · rw [rowAt, hfind] at hplan
    simp only at hplan
    cases hins : log.planInsert crypto relayId wire acceptingNode ingressNode requiredNodes
      alloc with
    | error e => rw [hins] at hplan; cases hplan
    | ok row =>
      rw [hins] at hplan
      obtain ⟨rfl, rfl⟩ := Prod.mk.inj (some.inj (ok.inj hplan))
      obtain ⟨hwf, rfl, hwire, hrequired, hconfirmed, hfresh, hslot, hroom⟩ :=
        planInsert_ok hreq hins
      refine .insert hwf hwire hrequired hconfirmed (fun other hother => ?_) hfresh hslot hroom
      rw [hrows] at hother
      rcases mem_append.mp hother with hother | hother
      · exact (hl other hother).ne
      · exact (hr other hother).ne'

theorem planConfirmation_fits (h : log.Wf crypto) {node : UInt64}
    {outcome : ConfirmationOutcome} {action : ConfirmationAction}
    (epoch : UInt64) (hplan : log.planConfirmation relayId node alloc = .ok (outcome, action)) :
    Token.Fits crypto log (.confirm relayId node) (.confirmation ⟨epoch, outcome, action⟩) := by
  unfold EventLog.planConfirmation at hplan
  rcases h.ascending.findBy_cases relayId with
    ⟨l, row, r, hrows, rfl, -, hfind, -⟩ | ⟨l, r, hrows, -, hfind, hl, hr⟩
  · have hmem : row ∈ log.rows := by simp [hrows]
    have hwf := h.rows row hmem
    rw [rowAt, hfind] at hplan
    simp only at hplan
    by_cases hreq : node ∈ row.requiredNodes
    · rw [(containsNode_iff hwf.required).mpr hreq] at hplan
      simp only [Bool.not_true, Bool.false_eq_true, ↓reduceIte] at hplan
      by_cases hconf : node ∈ row.confirmedNodes
      · rw [if_pos ((containsNode_iff hwf.confirmed).mpr hconf)] at hplan
        cases hplan
        exact .confirmed hmem rfl hconf
      rw [if_neg (mt (containsNode_iff hwf.confirmed).mp hconf)] at hplan
      by_cases hlast : coverageAfterConfirmation row = true
      · rw [if_pos hlast] at hplan
        cases hplan
        exact .last hrows (hwf.last_outstanding ⟨hreq, hconf⟩ hlast)
      rw [if_neg hlast] at hplan
      have hmore := hwf.more_outstanding ⟨hreq, hconf⟩ hlast
      by_cases hex : node ∈ row.excludedOnceNodes
      · simp only [nodeIndex_of_mem hwf.excluded hex, Option.isNone_some, Bool.false_eq_true,
          ↓reduceIte] at hplan
        split_ifs at hplan with halloc
        cases hplan
        rw [← nodeIndex_of_mem hwf.excluded hex]
        exact .confirm hrows ⟨hreq, hconf⟩ hmore fun hne => absurd hex hne
      · simp only [(nodeIndex_none hwf.excluded).mpr hex, Option.isNone_none, ↓reduceIte] at hplan
        cases hroom : log.ensureProspectiveCapacity nodeLen nodeLen with
        | error e => rw [hroom] at hplan; cases hplan
        | ok u =>
          simp only [hroom] at hplan
          split_ifs at hplan with halloc
          cases hplan
          rw [← (nodeIndex_none hwf.excluded).mpr hex]
          exact .confirm hrows ⟨hreq, hconf⟩ hmore fun _ => ensureProspectiveCapacity_ok hroom
    · rw [Bool.eq_false_iff.mpr (mt (containsNode_iff hwf.required).mp hreq)] at hplan
      cases hplan
  · rw [rowAt, hfind] at hplan
    cases hplan

theorem EventLog.reopen {log : EventLog} (h : log.preparedActive = false) :
    { { log with preparedActive := true } with preparedActive := false } = log := by
  cases log
  simp only at h
  rw [h]

/-- A preparation answers with a token that fits, or leaves the log as it was. -/
theorem prepare_cases (h : log.Wf crypto) (request : Request) (alloc : Allocator) :
    (∃ token, log.prepare crypto alloc request =
        (.ok (some token), { log with preparedActive := true }) ∧
      log.preparedActive = false ∧ token.Fits crypto log request) ∨
    (∃ e, log.prepare crypto alloc request = (.error e, log)) ∨
    (∃ relayId wire acceptingNode ingressNode requiredNodes,
        request = .accept relayId wire acceptingNode ingressNode requiredNodes) ∧
      log.prepare crypto alloc request = (.ok none, log) := by
  cases request with
  | accept relayId wire acceptingNode ingressNode requiredNodes =>
    simp only [EventLog.prepare, EventLog.prepareAccepted]
    split_ifs with hzero hingress
    · exact Or.inr (Or.inl ⟨_, rfl⟩)
    · exact Or.inr (Or.inl ⟨_, rfl⟩)
    · cases hreq : validateRequiredMembership requiredNodes acceptingNode
          log.config.maxConfirmedNodesPerRow with
      | error e => exact Or.inr (Or.inl ⟨_, rfl⟩)
      | ok u =>
        rcases beginPrepare_cases h with ⟨-, hbegin⟩ | ⟨hactive, hbegin⟩
        · rw [hbegin]
          exact Or.inr (Or.inl ⟨_, rfl⟩)
        rw [hbegin]
        simp only
        cases hplan : EventLog.planAccepted crypto { log with preparedActive :=
          true } relayId wire
            acceptingNode ingressNode requiredNodes alloc with
        | error e =>
          refine Or.inr (Or.inl ⟨e, ?_⟩)
          simp only
          rw [EventLog.reopen hactive]
        | ok planned =>
          cases planned with
          | none =>
            refine Or.inr (Or.inr ⟨⟨_, _, _, _, _, rfl⟩, ?_⟩)
            simp only
            rw [EventLog.reopen hactive]
          | some planned =>
            exact Or.inl ⟨_, rfl, hactive, planAccepted_fits h _ hreq hplan⟩
  | confirm relayId node =>
    simp only [EventLog.prepare, EventLog.prepareAuthenticatedDurableAck]
    split_ifs with hzero
    · exact Or.inr (Or.inl ⟨_, rfl⟩)
    rcases beginPrepare_cases h with ⟨-, hbegin⟩ | ⟨hactive, hbegin⟩
    · rw [hbegin]
      exact Or.inr (Or.inl ⟨_, rfl⟩)
    rw [hbegin]
    simp only
    cases hplan : EventLog.planConfirmation { log with preparedActive := true } relayId node
        alloc with
    | error e =>
      refine Or.inr (Or.inl ⟨e, ?_⟩)
      simp only
      rw [EventLog.reopen hactive]
    | ok planned => exact Or.inl ⟨_, rfl, hactive, planConfirmation_fits h _ hplan⟩
  | retire node =>
    simp only [EventLog.prepare, EventLog.prepareConfiguredNodeRetirement]
    split_ifs with hzero
    · exact Or.inr (Or.inl ⟨_, rfl⟩)
    rcases beginPrepare_cases h with ⟨-, hbegin⟩ | ⟨hactive, hbegin⟩
    · rw [hbegin]
      exact Or.inr (Or.inl ⟨_, rfl⟩)
    · rw [hbegin]
      exact Or.inl ⟨_, rfl, hactive, .retire⟩

end Prepare

end OnyxServer.AcceptedLog
