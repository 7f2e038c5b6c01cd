import OnyxServer.AcceptedLog.Rows
import OnyxServer.Lib.Wire

/-!
# The accepted-event log

Every row retains the exact origin-signed wire of an accepted event until each
node of its membership snapshot has confirmed it or was retired by configuration.
A change is prepared, which may fail, and then committed or aborted, which may not;
at most one prepared change is open. The definitions follow `store.zig`: a call
answers with its result and the log it leaves behind, failed calls included.
-/
namespace OnyxServer.AcceptedLog

open Lib
open Relay.V2 (RelayId PublicKey Crypto)

def hardMaxRows : Nat := 65536
def hardMaxConfirmedNodesPerRow : Nat := 4096
def hardMaxCursorNodes : Nat := 4096
def hardMaxWireBytes : Nat := 1024 * 1024
def hardMaxAggregateBytes : Nat := 64 * 1024 * 1024
def hardMaxCheckpointBytes : Nat := 64 * 1024 * 1024

def checkpointHeaderLen : Nat := 46
def checksumLen : Nat := 32
def rowPrefixLen : Nat := 16 + 32 + 8 + 8 + 4 + 4 + 4 + 4
def cursorEntryLen : Nat := 8 + 32
def nodeLen : Nat := 8

structure Config where
  maxRows : Nat
  maxConfirmedNodesPerRow : Nat
  maxCursorNodes : Nat
  maxWireBytes : Nat
  maxAggregateBytes : Nat
  deriving DecidableEq

def Config.valid (config : Config) : Bool :=
  decide (0 < config.maxRows) && decide (config.maxRows ≤ hardMaxRows) &&
    decide (0 < config.maxConfirmedNodesPerRow) &&
    decide (config.maxConfirmedNodesPerRow ≤ hardMaxConfirmedNodesPerRow) &&
    decide (0 < config.maxCursorNodes) && decide (config.maxCursorNodes ≤ hardMaxCursorNodes) &&
    decide (0 < config.maxWireBytes) && decide (config.maxWireBytes ≤ hardMaxWireBytes) &&
    decide (0 < config.maxAggregateBytes) &&
    decide (config.maxAggregateBytes ≤ hardMaxAggregateBytes)

def Config.eql (a b : Config) : Bool :=
  a.maxRows == b.maxRows && a.maxConfirmedNodesPerRow == b.maxConfirmedNodesPerRow &&
    a.maxCursorNodes == b.maxCursorNodes && a.maxWireBytes == b.maxWireBytes &&
    a.maxAggregateBytes == b.maxAggregateBytes

inductive ReserveOutcome where
  | inserted
  | exactDuplicate
  | conflict
  deriving DecidableEq

inductive ConfirmationOutcome where
  | alreadyConfirmed
  | confirmed
  | confirmedAndRetired
  deriving DecidableEq

inductive Error where
  | outOfMemory
  | invalidConfig
  | invalidNode
  | invalidMembership
  | invalidWire
  | relayIdMismatch
  | notFound
  | nodeNotRequired
  | preparedMutationActive
  | capacityExceeded
  | badMagic
  | unsupportedVersion
  | unknownFlags
  | configMismatch
  | truncated
  | trailingBytes
  | checksumMismatch
  | duplicateEntry
  | duplicateNode
  | nonCanonicalOrder
  | checkpointTooLarge
  | counterMismatch
  | cursorTargetMissing
  | invalidState
  deriving DecidableEq

structure PageItem where
  relayId : RelayId
  originPubkey : PublicKey
  originNode : UInt64
  hlc : UInt64
  wire : Bytes
  deriving DecidableEq

structure EventLog where
  config : Config
  frozenConfig : Config
  rows : List Row
  cursors : List CursorEntry
  aggregateBytes : Nat
  checkpointBodyBytes : Nat
  mutationEpoch : UInt64
  preparedActive : Bool
  deriving DecidableEq

def EventLog.init (config : Config) : Option EventLog :=
  if config.valid then
    some {
      config, frozenConfig := config, rows := [], cursors := [], aggregateBytes := 0,
      checkpointBodyBytes := 0, mutationEpoch := 0, preparedActive := false }
  else none

def rowCovered (row : Row) : Bool := row.confirmedNodes.length == row.requiredNodes.length

def coverageAfterConfirmation (row : Row) : Bool :=
  row.confirmedNodes.length + 1 == row.requiredNodes.length

def rowAggregateBytes (row : Row) : Nat :=
  row.wire.length +
    (row.requiredNodes.length + row.confirmedNodes.length + row.excludedOnceNodes.length) * nodeLen

def rowBodyBytes (row : Row) : Nat := rowPrefixLen + rowAggregateBytes row

def recomputeAggregateBytes (rows : List Row) (cursors : List CursorEntry) : Nat :=
  rows.foldl (fun total row => total + rowAggregateBytes row) (cursors.length * cursorEntryLen)

def recomputeBodyBytes (rows : List Row) (cursors : List CursorEntry) : Nat :=
  rows.foldl (fun total row => total + rowBodyBytes row) (cursors.length * cursorEntryLen)

def validateNodeOrder : Option UInt64 → List UInt64 → Except Error Unit
  | _, [] => .ok ()
  | previous, node :: nodes =>
    if node = 0 then .error .invalidNode
    else if previous = some node then .error .duplicateNode
    else if previous.any (fun prior => decide (node < prior)) then .error .nonCanonicalOrder
    else validateNodeOrder (some node) nodes

def validateRequiredMembership (nodes : List UInt64) (acceptingNode : UInt64) (maximum : Nat) :
    Except Error Unit :=
  if nodes.length < 2 ∨ maximum < nodes.length then .error .invalidMembership
  else
    match validateNodeOrder none nodes with
    | .error e => .error e
    | .ok () => if containsNode nodes acceptingNode then .ok () else .error .invalidMembership

structure WireMeta where
  originPubkey : PublicKey
  originNode : UInt64
  hlc : UInt64
  deriving DecidableEq

/-- Decode, verify, derive the id and encode again. The first three allocator
sites answer for the allocations of the three codec calls. -/
def validateWireAndId (crypto : Crypto) (config : Config) (expectedId : RelayId) (wire : Bytes)
    (alloc : Allocator) : Except Error WireMeta :=
  if wire.length = 0 ∨ config.maxWireBytes < wire.length then .error .invalidWire
  else if !alloc 0 then .error .outOfMemory
  else
    match Relay.V2.decode wire with
    | .error _ => .error .invalidWire
    | .ok msg =>
      if !alloc 1 then .error .outOfMemory
      else
        match Relay.V2.verifyAndRelayId crypto msg with
        | .verified derived =>
          if derived ≠ expectedId then .error .relayIdMismatch
          else if !alloc 2 then .error .outOfMemory
          else
            match Relay.V2.encode msg with
            | .error _ => .error .invalidWire
            | .ok canonical =>
              if canonical ≠ wire then .error .invalidWire
              else
                .ok {
                  originPubkey := FixedBytes.ofSlice 32 msg.originPubkey
                  originNode := msg.originNode
                  hlc := msg.hlc }
        | _ => .error .invalidWire

def EventLog.validateLiveConfig (log : EventLog) : Except Error Unit :=
  if !log.config.valid then .error .invalidConfig
  else if !log.config.eql log.frozenConfig then .error .configMismatch
  else if log.config.maxRows < log.rows.length ∨ log.config.maxCursorNodes < log.cursors.length then
    .error .capacityExceeded
  else .ok ()

def EventLog.beginPrepare (log : EventLog) : Except Error UInt64 × EventLog :=
  match log.validateLiveConfig with
  | .error e => (.error e, log)
  | .ok () =>
    if log.preparedActive then (.error .preparedMutationActive, log)
    else (.ok log.mutationEpoch, { log with preparedActive := true })

def EventLog.bumpEpoch (log : EventLog) : EventLog :=
  { log with mutationEpoch := log.mutationEpoch + 1 }

def EventLog.ensureProspectiveCapacity (log : EventLog) (addedAggregate addedBody : Nat) :
    Except Error Unit :=
  match checkedAdd log.aggregateBytes addedAggregate with
  | none => .error .capacityExceeded
  | some aggregate =>
    if log.config.maxAggregateBytes < aggregate then .error .capacityExceeded
    else
      match checkedAdd log.checkpointBodyBytes addedBody with
      | none => .error .capacityExceeded
      | some body =>
        if hardMaxCheckpointBytes - checkpointHeaderLen - checksumLen < body then
          .error .capacityExceeded
        else .ok ()

def EventLog.hasOriginHlc (log : EventLog) (originPubkey : PublicKey) (hlc : UInt64) : Bool :=
  log.rows.any fun row => decide (row.hlc = hlc) && decide (row.originPubkey = originPubkey)

/-! ## Accepting an event -/

inductive AcceptedAction where
  | noOp
  | insert (row : Row)
  | addExclusion (rowIndex insertIndex : Nat) (node : UInt64)
  deriving DecidableEq

structure PreparedAccepted where
  expectedEpoch : UInt64
  outcomeValue : ReserveOutcome
  action : AcceptedAction
  deriving DecidableEq

inductive PrepareAcceptedResult where
  | ready (prepared : PreparedAccepted)
  | conflict
  deriving DecidableEq

/-- The ingress node enters the exclusions of a new row. -/
def ingressExcluded (acceptingNode : UInt64) (ingressNode : Option UInt64)
    (requiredNodes : List UInt64) : List UInt64 :=
  match ingressNode with
  | some node => if node ≠ acceptingNode ∧ containsNode requiredNodes node then [node] else []
  | none => []

/-- The duplicate of a retained row still needs one exclusion. -/
def exclusionNeeded (row : Row) (ingressNode : Option UInt64) : Option UInt64 :=
  match ingressNode with
  | some node =>
    if containsNode row.requiredNodes node ∧ ¬ containsNode row.confirmedNodes node ∧
        ¬ containsNode row.excludedOnceNodes node then some node
    else none
  | none => none

/-- The change an exact duplicate of the row at `index` makes. -/
def EventLog.planDuplicate (log : EventLog) (index : Nat) (row : Row) (ingressNode : Option UInt64)
    (alloc : Allocator) : Except Error AcceptedAction :=
  match exclusionNeeded row ingressNode with
  | none => .ok .noOp
  | some node =>
    if log.config.maxConfirmedNodesPerRow ≤ row.excludedOnceNodes.length then
      .error .capacityExceeded
    else
      match log.ensureProspectiveCapacity nodeLen nodeLen with
      | .error e => .error e
      | .ok () =>
        if !alloc 0 then .error .outOfMemory
        else .ok (.addExclusion index (lowerBoundNodes row.excludedOnceNodes node) node)

/-- The row a new event inserts. -/
def EventLog.planInsert (crypto : Crypto) (log : EventLog) (relayId : RelayId) (wire : Bytes)
    (acceptingNode : UInt64) (ingressNode : Option UInt64) (requiredNodes : List UInt64)
    (alloc : Allocator) : Except Error Row :=
  if log.config.maxRows ≤ log.rows.length then .error .capacityExceeded
  else
    let excluded := ingressExcluded acceptingNode ingressNode requiredNodes
    match checkedAdd wire.length ((requiredNodes.length + 1 + excluded.length) * nodeLen) with
    | none => .error .capacityExceeded
    | some addedAggregate =>
      match checkedAdd rowPrefixLen addedAggregate with
      | none => .error .capacityExceeded
      | some addedBody =>
        match log.ensureProspectiveCapacity addedAggregate addedBody with
        | .error e => .error e
        | .ok () =>
          match validateWireAndId crypto log.config relayId wire alloc with
          | .error e => .error e
          | .ok wireMeta =>
            if log.hasOriginHlc wireMeta.originPubkey wireMeta.hlc then .error .duplicateEntry
            -- Wire, required, confirmed, excluded and table reservations, in this order.
            else if !alloc 3 ∨ !alloc 4 ∨ !alloc 5 ∨ (excluded ≠ [] ∧ !alloc 6) ∨ !alloc 7 then
              .error .outOfMemory
            else
              .ok {
                relayId, wire, requiredNodes
                originPubkey := wireMeta.originPubkey
                originNode := wireMeta.originNode
                hlc := wireMeta.hlc
                confirmedNodes := [acceptingNode]
                excludedOnceNodes := excluded }

/-- The part of `prepareAccepted` under an open preparation; it only reads. -/
def EventLog.planAccepted (crypto : Crypto) (log : EventLog) (relayId : RelayId) (wire : Bytes)
    (acceptingNode : UInt64) (ingressNode : Option UInt64) (requiredNodes : List UInt64)
    (alloc : Allocator) : Except Error (Option (ReserveOutcome × AcceptedAction)) :=
  match rowAt log.rows relayId with
  | some (index, row) =>
    if row.wire ≠ wire then .ok none
    else
      match log.planDuplicate index row ingressNode alloc with
      | .error e => .error e
      | .ok action => .ok (some (.exactDuplicate, action))
  | none =>
    match log.planInsert crypto relayId wire acceptingNode ingressNode requiredNodes alloc with
    | .error e => .error e
    | .ok row => .ok (some (.inserted, .insert row))

def EventLog.prepareAccepted (crypto : Crypto) (log : EventLog) (relayId : RelayId) (wire : Bytes)
    (acceptingNode : UInt64) (ingressNode : Option UInt64) (requiredNodes : List UInt64)
    (alloc : Allocator) : Except Error PrepareAcceptedResult × EventLog :=
  if acceptingNode = 0 then (.error .invalidNode, log)
  else if ingressNode = some 0 then (.error .invalidNode, log)
  else
    match validateRequiredMembership requiredNodes acceptingNode
        log.config.maxConfirmedNodesPerRow with
    | .error e => (.error e, log)
    | .ok () =>
      match log.beginPrepare with
      | (.error e, log) => (.error e, log)
      | (.ok expectedEpoch, log) =>
        match log.planAccepted crypto relayId wire acceptingNode ingressNode requiredNodes
          alloc with
        | .error e => (.error e, { log with preparedActive := false })
        | .ok none => (.ok .conflict, { log with preparedActive := false })
        | .ok (some (outcomeValue, action)) =>
          (.ok (.ready { expectedEpoch, outcomeValue, action }), log)

/-- Rows, counters and nothing else. -/
def AcceptedAction.apply (action : AcceptedAction) (log : EventLog) : EventLog :=
  match action with
  | .noOp => log
  | .insert row =>
    { log with
      rows := insertShift log.rows (lowerBoundRows log.rows row.relayId) row
      aggregateBytes := log.aggregateBytes + rowAggregateBytes row
      checkpointBodyBytes := log.checkpointBodyBytes + rowBodyBytes row }
  | .addExclusion rowIndex insertIndex node =>
    { log with
      rows := log.rows.modify rowIndex fun row =>
        { row with
          excludedOnceNodes := insertNodeAssumeCapacity row.excludedOnceNodes insertIndex node }
      aggregateBytes := log.aggregateBytes + nodeLen
      checkpointBodyBytes := log.checkpointBodyBytes + nodeLen }

/-- The end of every commit. -/
def EventLog.closePrepare (log : EventLog) : EventLog :=
  EventLog.bumpEpoch { log with preparedActive := false }

def PreparedAccepted.commit (prepared : PreparedAccepted) (log : EventLog) :
    ReserveOutcome × EventLog :=
  (prepared.outcomeValue, (prepared.action.apply log).closePrepare)

/-- `abort` of each prepared value. -/
def EventLog.abortPrepare (log : EventLog) : EventLog := { log with preparedActive := false }

def EventLog.reserveAccepted (crypto : Crypto) (log : EventLog) (relayId : RelayId) (wire : Bytes)
    (acceptingNode : UInt64) (ingressNode : Option UInt64) (requiredNodes : List UInt64)
    (alloc : Allocator) : Except Error ReserveOutcome × EventLog :=
  match log.prepareAccepted crypto relayId wire acceptingNode ingressNode requiredNodes alloc with
  | (.error e, log) => (.error e, log)
  | (.ok .conflict, log) => (.ok .conflict, log)
  | (.ok (.ready prepared), log) =>
    let committed := prepared.commit log
    (.ok committed.1, committed.2)

/-- A cursor never names an origin the log has lost. -/
def rehome (rows : List Row) (removedOrigin : PublicKey) (cursors : List CursorEntry) :
    List CursorEntry :=
  if containsOrigin rows removedOrigin then cursors
  else
    match greatestOrigin rows with
    | some fallback =>
      cursors.map fun cursor =>
        if cursor.afterOriginPubkey = removedOrigin then
          { cursor with afterOriginPubkey := fallback }
        else cursor
    | none => cursors

def EventLog.removeRowAt (log : EventLog) (index : Nat) : EventLog :=
  match log.rows[index]? with
  | none => log
  | some row =>
    let rows := removeRowSlot log.rows index
    let aggregateBytes := log.aggregateBytes - rowAggregateBytes row
    let checkpointBodyBytes := log.checkpointBodyBytes - rowBodyBytes row
    if rows.length = 0 then
      let cursorBytes := log.cursors.length * cursorEntryLen
      { log with
        rows, cursors := []
        aggregateBytes := aggregateBytes - cursorBytes
        checkpointBodyBytes := checkpointBodyBytes - cursorBytes }
    else
      { log with
        rows, cursors := rehome rows row.originPubkey log.cursors
        aggregateBytes, checkpointBodyBytes }

inductive ConfirmationAction where
  | noOp
  | add (rowIndex confirmedIndex : Nat) (excludedIndex : Option Nat) (node : UInt64)
  | retireRow (rowIndex : Nat)
  deriving DecidableEq

structure PreparedConfirmation where
  expectedEpoch : UInt64
  outcomeValue : ConfirmationOutcome
  action : ConfirmationAction
  deriving DecidableEq

def EventLog.planConfirmation (log : EventLog) (relayId : RelayId) (confirmedNode : UInt64)
    (alloc : Allocator) : Except Error (ConfirmationOutcome × ConfirmationAction) :=
  match rowAt log.rows relayId with
  | none => .error .notFound
  | some (index, row) =>
    if !containsNode row.requiredNodes confirmedNode then .error .nodeNotRequired
    else if containsNode row.confirmedNodes confirmedNode then .ok (.alreadyConfirmed, .noOp)
    else if coverageAfterConfirmation row then .ok (.confirmedAndRetired, .retireRow index)
    else
      let excludedIndex := nodeIndex row.excludedOnceNodes confirmedNode
      match (if excludedIndex.isNone then log.ensureProspectiveCapacity nodeLen nodeLen
        else .ok ()) with
      | .error e => .error e
      | .ok () =>
        if !alloc 0 then .error .outOfMemory
        else
          .ok (.confirmed,
            .add index (lowerBoundNodes row.confirmedNodes confirmedNode) excludedIndex
            confirmedNode)

def EventLog.prepareAuthenticatedDurableAck (log : EventLog) (relayId : RelayId)
    (confirmedNode : UInt64) (alloc : Allocator) : Except Error PreparedConfirmation × EventLog :=
  if confirmedNode = 0 then (.error .invalidNode, log)
  else
    match log.beginPrepare with
    | (.error e, log) => (.error e, log)
    | (.ok expectedEpoch, log) =>
      match log.planConfirmation relayId confirmedNode alloc with
      | .error e => (.error e, { log with preparedActive := false })
      | .ok (outcomeValue, action) => (.ok { expectedEpoch, outcomeValue, action }, log)

def ConfirmationAction.apply (action : ConfirmationAction) (log : EventLog) : EventLog :=
  match action with
  | .noOp => log
  | .add rowIndex confirmedIndex excludedIndex node =>
    let rows := log.rows.modify rowIndex fun row =>
      { row with
        excludedOnceNodes :=
          match excludedIndex with
          | some index => removeNodeAt row.excludedOnceNodes index
          | none => row.excludedOnceNodes
        confirmedNodes := insertNodeAssumeCapacity row.confirmedNodes confirmedIndex node }
    match excludedIndex with
    | some _ => { log with rows }
    | none =>
      { log with
        rows
        aggregateBytes := log.aggregateBytes + nodeLen
        checkpointBodyBytes := log.checkpointBodyBytes + nodeLen }
  | .retireRow rowIndex => log.removeRowAt rowIndex

def PreparedConfirmation.commit (prepared : PreparedConfirmation) (log : EventLog) :
    ConfirmationOutcome × EventLog :=
  (prepared.outcomeValue, (prepared.action.apply log).closePrepare)

def EventLog.confirmAuthenticatedDurableAck (log : EventLog) (relayId : RelayId)
    (confirmedNode : UInt64) (alloc : Allocator) : Except Error ConfirmationOutcome × EventLog :=
  match log.prepareAuthenticatedDurableAck relayId confirmedNode alloc with
  | (.error e, log) => (.error e, log)
  | (.ok prepared, log) =>
    let committed := prepared.commit log
    (.ok committed.1, committed.2)

structure PreparedNodeRetirement where
  expectedEpoch : UInt64
  node : UInt64
  deriving DecidableEq

structure NodeRetirementResult where
  rowsChanged : Nat
  rowsRetired : Nat
  cursorRemoved : Bool
  deriving DecidableEq

def EventLog.prepareConfiguredNodeRetirement (log : EventLog) (node : UInt64) :
    Except Error PreparedNodeRetirement × EventLog :=
  if node = 0 then (.error .invalidNode, log)
  else
    match log.beginPrepare with
    | (.error e, log) => (.error e, log)
    | (.ok expectedEpoch, log) => (.ok { expectedEpoch, node }, log)

/-- Remove a node from a set that may hold it, with the bytes this frees. -/
def removeNode (nodes : List UInt64) (node : UInt64) : List UInt64 × Nat :=
  match nodeIndex nodes node with
  | some index => (removeNodeAt nodes index, nodeLen)
  | none => (nodes, 0)

/-- The node leaves the row at `rowIndex`, which requires it. -/
def EventLog.dropNodeAt (log : EventLog) (node : UInt64) (rowIndex requiredIndex : Nat)
    (row : Row) :
    Row × EventLog :=
  let confirmed := removeNode row.confirmedNodes node
  let excluded := removeNode row.excludedOnceNodes node
  let dropped := { row with
    requiredNodes := removeNodeAt row.requiredNodes requiredIndex
    confirmedNodes := confirmed.1
    excludedOnceNodes := excluded.1 }
  (dropped,
    { log with
      rows := log.rows.set rowIndex dropped
      aggregateBytes := log.aggregateBytes - nodeLen - confirmed.2 - excluded.2
      checkpointBodyBytes := log.checkpointBodyBytes - nodeLen - confirmed.2 - excluded.2 })

/-- The loop over the rows. A removal shifts the next row into the same index; the
fuel is the number of rows, one of which every pass steps over or removes. -/
def EventLog.retireNodeLoop (node : UInt64) :
    Nat → EventLog → Nat → NodeRetirementResult → NodeRetirementResult × EventLog
  | 0, log, _, result => (result, log)
  | fuel + 1, log, rowIndex, result =>
    match log.rows[rowIndex]? with
    | none => (result, log)
    | some row =>
      match nodeIndex row.requiredNodes node with
      | none => retireNodeLoop node fuel log (rowIndex + 1) result
      | some requiredIndex =>
        let (dropped, log) := log.dropNodeAt node rowIndex requiredIndex row
        if rowCovered dropped then
          retireNodeLoop node fuel (log.removeRowAt rowIndex) rowIndex
            { result with
              rowsChanged := result.rowsChanged + 1, rowsRetired := result.rowsRetired + 1 }
        else
          retireNodeLoop node fuel log (rowIndex + 1)
            { result with rowsChanged := result.rowsChanged + 1 }

/-- The target's cursor goes with the target. -/
def EventLog.dropCursor (log : EventLog) (node : UInt64) : Bool × EventLog :=
  match cursorAt log.cursors node with
  | some (index, _) =>
    (true,
      { log with
        cursors := removeCursorSlot log.cursors index
        aggregateBytes := log.aggregateBytes - cursorEntryLen
        checkpointBodyBytes := log.checkpointBodyBytes - cursorEntryLen })
  | none => (false, log)

def PreparedNodeRetirement.commit (prepared : PreparedNodeRetirement) (log : EventLog) :
    NodeRetirementResult × EventLog :=
  let swept := log.retireNodeLoop prepared.node log.rows.length 0
    { rowsChanged := 0, rowsRetired := 0, cursorRemoved := false }
  let trimmed := swept.2.dropCursor prepared.node
  ({ swept.1 with cursorRemoved := trimmed.1 }, trimmed.2.closePrepare)

/-! ## Paging -/

/-- The target's cursor, created after the greatest missing origin so that a first
sweep starts at the least one. -/
def EventLog.ensureCursor (log : EventLog) (targetNode : UInt64) (alloc : Allocator) :
    Except Error EventLog :=
  match cursorAt log.cursors targetNode with
  | some _ => .ok log
  | none =>
    if log.config.maxCursorNodes ≤ log.cursors.length then .error .capacityExceeded
    else
      match log.ensureProspectiveCapacity cursorEntryLen cursorEntryLen with
      | .error e => .error e
      | .ok () =>
        if !alloc 0 then .error .outOfMemory
        else
          match greatestMissingOrigin log.rows targetNode with
          | none => .ok log
          | some origin =>
            .ok (EventLog.bumpEpoch { log with
              cursors := insertCursorAssumeCapacity log.cursors
                (lowerBoundCursors log.cursors targetNode) ⟨targetNode, origin⟩
              aggregateBytes := log.aggregateBytes + cursorEntryLen
              checkpointBodyBytes := log.checkpointBodyBytes + cursorEntryLen })

def EventLog.moveCursor (log : EventLog) (cursorIndex : Nat) (origin : PublicKey) : EventLog :=
  match log.cursors[cursorIndex]? with
  | none => log
  | some cursor =>
    if cursor.afterOriginPubkey = origin then log
    else
      EventLog.bumpEpoch { log with
        cursors := log.cursors.set cursorIndex { cursor with afterOriginPubkey := origin } }

/-- One sweep of a head uses up its exclusion. -/
def EventLog.dropExclusion (log : EventLog) (rowIndex excludedIndex : Nat) : EventLog :=
  EventLog.bumpEpoch { log with
    rows := log.rows.modify rowIndex fun row =>
      { row with excludedOnceNodes := removeNodeAt row.excludedOnceNodes excludedIndex }
    aggregateBytes := log.aggregateBytes - nodeLen
    checkpointBodyBytes := log.checkpointBodyBytes - nodeLen }

def pageItem (row : Row) : PageItem :=
  { relayId := row.relayId, originPubkey := row.originPubkey, originNode := row.originNode,
    hlc := row.hlc, wire := row.wire }

/-- The sweep from the cursor to the greatest origin and, wrapped once, from the
least origin up to the cursor again. -/
def EventLog.sweep (targetNode : UInt64) (cursorIndex room : Nat) (wrapAt : PublicKey) :
    Nat → EventLog → Option PublicKey → Option PublicKey → Bool → List PageItem →
      List PageItem × EventLog
  | 0, log, _, _, _, page => (page, log)
  | fuel + 1, log, after, upper, wrapped, page =>
    if page.length < room then
      match nextOriginHead log.rows targetNode after upper with
      | none =>
        if wrapped then (page, log)
        else sweep targetNode cursorIndex room wrapAt fuel log none (some wrapAt) true page
      | some (headIndex, row) =>
        let log := log.moveCursor cursorIndex row.originPubkey
        match nodeIndex row.excludedOnceNodes targetNode with
        | some excludedIndex =>
          sweep targetNode cursorIndex room wrapAt fuel (log.dropExclusion headIndex excludedIndex)
            (some row.originPubkey) upper wrapped page
        | none =>
          sweep targetNode cursorIndex room wrapAt fuel log (some row.originPubkey) upper wrapped
            (page ++ [pageItem row])
    else (page, log)

/-- The page for `room` slots. Every pass of the sweep but the wrap and the last
meets another origin, so `rows + 2` passes end it. -/
def EventLog.collectPageForNode (log : EventLog) (targetNode : UInt64) (room : Nat)
    (alloc : Allocator) : Except Error (List PageItem) × EventLog :=
  if targetNode = 0 then (.error .invalidNode, log)
  else
    match log.validateLiveConfig with
    | .error e => (.error e, log)
    | .ok () =>
      if log.preparedActive then (.error .preparedMutationActive, log)
      else if log.rows.length = 0 ∨ room = 0 then (.ok [], log)
      else if !log.rows.any (fun row => rowMissingForTarget row targetNode) then (.ok [], log)
      else
        match log.ensureCursor targetNode alloc with
        | .error e => (.error e, log)
        | .ok log =>
          match cursorAt log.cursors targetNode with
          | none => (.ok [], log)
          | some (cursorIndex, cursor) =>
            let swept := EventLog.sweep targetNode cursorIndex room cursor.afterOriginPubkey
              (log.rows.length + 2) log (some cursor.afterOriginPubkey) none false []
            (.ok swept.1, swept.2)

end OnyxServer.AcceptedLog
