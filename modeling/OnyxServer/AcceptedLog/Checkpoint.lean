import OnyxServer.AcceptedLog.Sweep

/-!
# Checkpoints of the accepted-event log

The RVL2 form of a log: a fixed header, the rows in id order with their exact
wires and node sets, the cursors, and a checksum over all of it. A restore
validates the structure first and then verifies every wire again.
-/
namespace OnyxServer.AcceptedLog

open Lib
open Relay.V2 (RelayId PublicKey Crypto)

/-- "RVL2" -/
def magic : Bytes := [0x52, 0x56, 0x4c, 0x32]
def checkpointVersion : UInt8 := 3

/-- "onyx-relay-v2-event-log-checkpoint-v3" -/
def checkpointChecksumDomain : Bytes :=
  "onyx-relay-v2-event-log-checkpoint-v3".toUTF8.toList

def checkpointChecksum (crypto : Crypto) (pre : Bytes) : FixedBytes 32 :=
  crypto.blake3 (checkpointChecksumDomain ++ pre)

def encodeNodes (nodes : List UInt64) : Bytes := nodes.flatMap fun node => beBytes 8 node.toNat

def encodeRowPrefix (row : Row) : Bytes :=
  row.relayId.val ++ (row.originPubkey.val ++ (beBytes 8 row.originNode.toNat ++
    (beBytes 8 row.hlc.toNat ++ (beBytes 4 row.wire.length ++
      (beBytes 4 row.confirmedNodes.length ++ (beBytes 4 row.requiredNodes.length ++
        beBytes 4 row.excludedOnceNodes.length))))))

def encodeRow (row : Row) : Bytes :=
  encodeRowPrefix row ++ (row.wire ++ (encodeNodes row.requiredNodes ++
    (encodeNodes row.confirmedNodes ++ encodeNodes row.excludedOnceNodes)))

def encodeCursor (cursor : CursorEntry) : Bytes :=
  beBytes 8 cursor.node.toNat ++ cursor.afterOriginPubkey.val

def encodeHeader (config : Config) (rowCount cursorCount bodyLen : Nat) : Bytes :=
  magic ++ (checkpointVersion :: 0 :: (beBytes 4 config.maxRows ++
    (beBytes 4 config.maxConfirmedNodesPerRow ++ (beBytes 4 config.maxWireBytes ++
      (beBytes 8 config.maxAggregateBytes ++ (beBytes 4 config.maxCursorNodes ++
        (beBytes 4 rowCount ++ (beBytes 4 cursorCount ++ beBytes 8 bodyLen))))))))

def validateRowNodes (row : Row) : Except Error Unit :=
  match validateNodeOrder none row.requiredNodes with
  | .error e => .error e
  | .ok () =>
    match validateNodeOrder none row.confirmedNodes with
    | .error e => .error e
    | .ok () =>
      match validateNodeOrder none row.excludedOnceNodes with
      | .error e => .error e
      | .ok () =>
        if row.confirmedNodes.any (fun node => !containsNode row.requiredNodes node ||
            containsNode row.excludedOnceNodes node) then .error .invalidMembership
        else if row.excludedOnceNodes.any (fun node => !containsNode row.requiredNodes node) then
          .error .invalidMembership
        else if rowCovered row then .error .invalidState
        else .ok ()

/-- The sizing loop over the rows: aggregate bytes and body bytes. -/
def measureRows (config : Config) :
    List Row → Option RelayId → Nat → Nat → Except Error (Nat × Nat)
  | [], _, aggregate, bodyLen => .ok (aggregate, bodyLen)
  | row :: rows, previous, aggregate, bodyLen =>
    if row.wire.length = 0 ∨ config.maxWireBytes < row.wire.length then .error .invalidWire
    else if row.requiredNodes.length = 0 ∨
        config.maxConfirmedNodesPerRow < row.requiredNodes.length ∨
        row.requiredNodes.length < row.confirmedNodes.length ∨
        config.maxConfirmedNodesPerRow < row.excludedOnceNodes.length then .error .capacityExceeded
    else if previous = some row.relayId then .error .duplicateEntry
    else if previous.any (fun id => !decide (id < row.relayId)) then .error .nonCanonicalOrder
    else
      match validateRowNodes row with
      | .error e => .error e
      | .ok () =>
        match checkedMul (row.requiredNodes.length + row.confirmedNodes.length +
            row.excludedOnceNodes.length) nodeLen with
        | none => .error .checkpointTooLarge
        | some nodesBytes =>
          match checkedAdd aggregate (row.wire.length + nodesBytes) with
          | none => .error .checkpointTooLarge
          | some aggregate =>
            match checkedAdd bodyLen (rowPrefixLen + row.wire.length + nodesBytes) with
            | none => .error .checkpointTooLarge
            | some bodyLen => measureRows config rows (some row.relayId) aggregate bodyLen

/-- The sizing loop over the cursors. -/
def measureCursors (rows : List Row) :
    List CursorEntry → Option UInt64 → Nat → Nat → Except Error (Nat × Nat)
  | [], _, aggregate, bodyLen => .ok (aggregate, bodyLen)
  | cursor :: cursors, previous, aggregate, bodyLen =>
    if cursor.node = 0 then .error .invalidNode
    else if previous = some cursor.node then .error .duplicateNode
    else if previous.any (fun node => decide (cursor.node < node)) then .error .nonCanonicalOrder
    else if !containsOrigin rows cursor.afterOriginPubkey then .error .cursorTargetMissing
    else
      match checkedAdd aggregate cursorEntryLen with
      | none => .error .checkpointTooLarge
      | some aggregate =>
        match checkedAdd bodyLen cursorEntryLen with
        | none => .error .checkpointTooLarge
        | some bodyLen => measureCursors rows cursors (some cursor.node) aggregate bodyLen

def encodePrefix (log : EventLog) (bodyLen : Nat) : Bytes :=
  encodeHeader log.config log.rows.length log.cursors.length bodyLen ++
    (log.rows.flatMap encodeRow ++ log.cursors.flatMap encodeCursor)

def EventLog.encodeCheckpoint (crypto : Crypto) (log : EventLog) (alloc : Allocator) :
    Except Error Bytes :=
  match log.validateLiveConfig with
  | .error e => .error e
  | .ok () =>
    if log.preparedActive then .error .preparedMutationActive
    else
      match measureRows log.config log.rows none 0 0 with
      | .error e => .error e
      | .ok (aggregate, bodyLen) =>
        if log.config.maxRows < log.rows.length ∨
            log.config.maxCursorNodes < log.cursors.length then .error .capacityExceeded
        else
          match measureCursors log.rows log.cursors none aggregate bodyLen with
          | .error e => .error e
          | .ok (aggregate, bodyLen) =>
            if log.config.maxAggregateBytes < aggregate then .error .capacityExceeded
            else if aggregate ≠ log.aggregateBytes ∨ bodyLen ≠ log.checkpointBodyBytes then
              .error .counterMismatch
            else
              match checkedAdd checkpointHeaderLen bodyLen with
              | none => .error .checkpointTooLarge
              | some prefixLen =>
                match checkedAdd prefixLen checksumLen with
                | none => .error .checkpointTooLarge
                | some totalLen =>
                  if hardMaxCheckpointBytes < totalLen then .error .checkpointTooLarge
                  else if !alloc 0 then .error .outOfMemory
                  else
                    .ok (encodePrefix log bodyLen ++
                      (checkpointChecksum crypto (encodePrefix log bodyLen)).val)

structure CheckpointMeta where
  config : Config
  rowCount : Nat
  cursorCount : Nat
  bodyLen : Nat
  aggregateBytes : Nat
  deriving DecidableEq

/-- The fixed part of an encoded row. -/
structure RowPrefix where
  relayId : RelayId
  originPubkey : PublicKey
  originNode : UInt64
  hlc : UInt64
  wireLen : Nat
  confirmedCount : Nat
  requiredCount : Nat
  excludedCount : Nat
  deriving DecidableEq

def readRowPrefix (rest : Bytes) : RowPrefix where
  relayId := FixedBytes.ofSlice 16 rest
  originPubkey := FixedBytes.ofSlice 32 (rest.drop 16)
  originNode := UInt64.ofNat (beNat (slice rest 48 56))
  hlc := UInt64.ofNat (beNat (slice rest 56 64))
  wireLen := beNat (slice rest 64 68)
  confirmedCount := beNat (slice rest 68 72)
  requiredCount := beNat (slice rest 72 76)
  excludedCount := beNat (slice rest 76 80)

def readNodes : Nat → Bytes → List UInt64
  | 0, _ => []
  | count + 1, bytes => UInt64.ofNat (beNat (bytes.take 8)) :: readNodes count (bytes.drop 8)

/-- The merge of two ascending sets, up to the first member of `subs` not met. -/
def encodedSubset : List UInt64 → List UInt64 → Bool
  | [], _ => true
  | _ :: _, [] => false
  | sub :: subs, super :: supers =>
    if super < sub then encodedSubset (sub :: subs) supers
    else if super = sub then encodedSubset subs supers
    else false

/-- The merge of two ascending sets, up to a common member; every pass drops one. -/
def encodedDisjointLoop : Nat → List UInt64 → List UInt64 → Bool
  | 0, _, _ => true
  | _ + 1, [], _ => true
  | _ + 1, _ :: _, [] => true
  | fuel + 1, a :: as, b :: bs =>
    if a < b then encodedDisjointLoop fuel as (b :: bs)
    else if b < a then encodedDisjointLoop fuel (a :: as) bs
    else false

def encodedDisjoint (as bs : List UInt64) : Bool :=
  encodedDisjointLoop (as.length + bs.length) as bs

/-- The variable part of a row splits into its wire and its three node sets. -/
structure RowBody where
  wire : Bytes
  required : List UInt64
  confirmed : List UInt64
  excluded : List UInt64
  rest : Bytes

def readRowBody (pre : RowPrefix) (rest : Bytes) : RowBody :=
  let nodes := rest.drop pre.wireLen
  let confirmed := nodes.drop (pre.requiredCount * nodeLen)
  let excluded := confirmed.drop (pre.confirmedCount * nodeLen)
  { wire := rest.take pre.wireLen
    required := readNodes pre.requiredCount nodes
    confirmed := readNodes pre.confirmedCount confirmed
    excluded := readNodes pre.excludedCount excluded
    rest := excluded.drop (pre.excludedCount * nodeLen) }

def validateRowSets (body : RowBody) : Except Error Unit :=
  match validateNodeOrder none body.required with
  | .error e => .error e
  | .ok () =>
    match validateNodeOrder none body.confirmed with
    | .error e => .error e
    | .ok () =>
      match validateNodeOrder none body.excluded with
      | .error e => .error e
      | .ok () =>
        if !encodedSubset body.confirmed body.required ||
            !encodedSubset body.excluded body.required ||
            !encodedDisjoint body.confirmed body.excluded then .error .invalidMembership
        else if body.confirmed.length = body.required.length then .error .invalidState
        else .ok ()

/-- One row of the structural pass; `rest` is what is left of the body. -/
def validateRow (config : Config) (previous : Option RelayId) (aggregate : Nat) (rest : Bytes) :
    Except Error (RelayId × Nat × Bytes) :=
  if rest.length < rowPrefixLen then .error .truncated
  else
    let pre := readRowPrefix rest
    let rest := rest.drop rowPrefixLen
    if previous = some pre.relayId then .error .duplicateEntry
    else if previous.any (fun id => !decide (id < pre.relayId)) then .error .nonCanonicalOrder
    else if pre.originNode = 0 then .error .invalidNode
    else if pre.wireLen = 0 ∨ config.maxWireBytes < pre.wireLen then .error .invalidWire
    else if pre.requiredCount = 0 ∨ config.maxConfirmedNodesPerRow < pre.requiredCount ∨
        pre.requiredCount < pre.confirmedCount ∨
        config.maxConfirmedNodesPerRow < pre.excludedCount then .error .capacityExceeded
    else
      match checkedAdd pre.requiredCount pre.confirmedCount with
      | none => .error .checkpointTooLarge
      | some totalNodeCount =>
        match checkedAdd totalNodeCount pre.excludedCount with
        | none => .error .checkpointTooLarge
        | some allNodeCount =>
          match checkedMul allNodeCount nodeLen with
          | none => .error .checkpointTooLarge
          | some nodesBytes =>
            match checkedAdd pre.wireLen nodesBytes with
            | none => .error .checkpointTooLarge
            | some rowBytes =>
              if rest.length < rowBytes then .error .truncated
              else
                match checkedAdd aggregate rowBytes with
                | none => .error .checkpointTooLarge
                | some aggregate =>
                  if config.maxAggregateBytes < aggregate then .error .capacityExceeded
                  else
                    let body := readRowBody pre rest
                    match validateRowSets body with
                    | .error e => .error e
                    | .ok () => .ok (pre.relayId, aggregate, body.rest)

def validateRows (config : Config) :
    Nat → Option RelayId → Nat → Bytes → Except Error (Nat × Bytes)
  | 0, _, aggregate, rest => .ok (aggregate, rest)
  | count + 1, previous, aggregate, rest =>
    match validateRow config previous aggregate rest with
    | .error e => .error e
    | .ok (relayId, aggregate, rest) => validateRows config count (some relayId) aggregate rest

def validateCursors (config : Config) :
    Nat → Option UInt64 → Nat → Bytes → Except Error (Nat × Bytes)
  | 0, _, aggregate, rest => .ok (aggregate, rest)
  | count + 1, previous, aggregate, rest =>
    if rest.length < cursorEntryLen then .error .truncated
    else
      let node := UInt64.ofNat (beNat (rest.take 8))
      if node = 0 then .error .invalidNode
      else if previous = some node then .error .duplicateNode
      else if previous.any (fun prior => decide (node < prior)) then .error .nonCanonicalOrder
      else
        match checkedAdd aggregate cursorEntryLen with
        | none => .error .checkpointTooLarge
        | some aggregate =>
          if config.maxAggregateBytes < aggregate then .error .capacityExceeded
          else validateCursors config count (some node) aggregate (rest.drop cursorEntryLen)

def validateCheckpoint (crypto : Crypto) (bytes : Bytes) : Except Error CheckpointMeta :=
  if bytes.length < checkpointHeaderLen + checksumLen then .error .truncated
  else if bytes.take 4 ≠ magic then .error .badMagic
  else if slice bytes 4 5 ≠ [checkpointVersion] then .error .unsupportedVersion
  else if slice bytes 5 6 ≠ [0] then .error .unknownFlags
  else
    let config : Config :=
      { maxRows := beNat (slice bytes 6 10)
        maxConfirmedNodesPerRow := beNat (slice bytes 10 14)
        maxWireBytes := beNat (slice bytes 14 18)
        maxAggregateBytes := beNat (slice bytes 18 26)
        maxCursorNodes := beNat (slice bytes 26 30) }
    if !config.valid then .error .invalidConfig
    else
      let rowCount := beNat (slice bytes 30 34)
      let cursorCount := beNat (slice bytes 34 38)
      let bodyLen := beNat (slice bytes 38 46)
      if config.maxRows < rowCount then .error .capacityExceeded
      else if config.maxCursorNodes < cursorCount then .error .capacityExceeded
      else if rowCount = 0 ∧ cursorCount ≠ 0 then .error .invalidState
      else
        match checkedAdd checkpointHeaderLen bodyLen with
        | none => .error .checkpointTooLarge
        | some prefixLen =>
          match checkedAdd prefixLen checksumLen with
          | none => .error .checkpointTooLarge
          | some totalLen =>
            if hardMaxCheckpointBytes < totalLen then .error .checkpointTooLarge
            else if bytes.length < totalLen then .error .truncated
            else if totalLen < bytes.length then .error .trailingBytes
            else if (checkpointChecksum crypto (bytes.take prefixLen)).val ≠
              bytes.drop prefixLen then
              .error .checksumMismatch
            else
              match validateRows config rowCount none 0
                  (slice bytes checkpointHeaderLen prefixLen) with
              | .error e => .error e
              | .ok (aggregate, rest) =>
                match validateCursors config cursorCount none aggregate rest with
                | .error e => .error e
                | .ok (aggregateBytes, rest) =>
                  if rest ≠ [] then .error .trailingBytes
                  else .ok { config, rowCount, cursorCount, bodyLen, aggregateBytes }

/-- One row of the second pass. Seven allocator sites: the codec's three, the wire
and the three node sets. -/
def decodeRow (crypto : Crypto) (config : Config) (pre : RowPrefix) (body : RowBody)
    (alloc : Allocator) : Except Error Row :=
  match validateWireAndId crypto config pre.relayId body.wire alloc with
  | .error e => .error e
  | .ok wireMeta =>
    if pre.originPubkey ≠ wireMeta.originPubkey ∨ pre.originNode ≠ wireMeta.originNode ∨
        pre.hlc ≠ wireMeta.hlc then .error .invalidWire
    else if !alloc 3 ∨ !alloc 4 ∨ !alloc 5 ∨ !alloc 6 then .error .outOfMemory
    else
      .ok {
        relayId := pre.relayId, originPubkey := pre.originPubkey, originNode := pre.originNode
        hlc := pre.hlc, wire := body.wire, requiredNodes := body.required
        confirmedNodes := body.confirmed, excludedOnceNodes := body.excluded }

def decodeRows (crypto : Crypto) (config : Config) (alloc : Allocator) :
    Nat → Nat → List Row → Bytes → Except Error (List Row × Bytes)
  | 0, _, rows, rest => .ok (rows, rest)
  | count + 1, site, rows, rest =>
    let pre := readRowPrefix rest
    let body := readRowBody pre (rest.drop rowPrefixLen)
    match decodeRow crypto config pre body (fun n => alloc (site + n)) with
    | .error e => .error e
    | .ok row =>
      if rows.any (fun existing => decide (existing.hlc = row.hlc) &&
          decide (existing.originPubkey = row.originPubkey)) then .error .duplicateEntry
      else decodeRows crypto config alloc count (site + 7) (rows ++ [row]) body.rest

def decodeCursors (rows : List Row) :
    Nat → List CursorEntry → Bytes → Except Error (List CursorEntry)
  | 0, cursors, _ => .ok cursors
  | count + 1, cursors, rest =>
    let cursor : CursorEntry :=
      ⟨UInt64.ofNat (beNat (rest.take 8)), FixedBytes.ofSlice 32 (rest.drop 8)⟩
    if !containsOrigin rows cursor.afterOriginPubkey then .error .cursorTargetMissing
    else decodeCursors rows count (cursors ++ [cursor]) (rest.drop cursorEntryLen)

def EventLog.decodeCheckpoint (crypto : Crypto) (expected : Config) (bytes : Bytes)
    (alloc : Allocator) : Except Error EventLog :=
  match validateCheckpoint crypto bytes with
  | .error e => .error e
  | .ok checked =>
    if !checked.config.eql expected then .error .configMismatch
    else
      match EventLog.init expected with
      | none => .error .invalidConfig
      | some out =>
        if !alloc 0 then .error .outOfMemory
        else
          match decodeRows crypto expected alloc checked.rowCount 1 []
            (bytes.drop checkpointHeaderLen) with
          | .error e => .error e
          | .ok (rows, rest) =>
            if !alloc (1 + 7 * checked.rowCount) then .error .outOfMemory
            else
              match decodeCursors rows checked.cursorCount [] rest with
              | .error e => .error e
              | .ok cursors =>
                if recomputeAggregateBytes rows cursors ≠ checked.aggregateBytes ∨
                    recomputeBodyBytes rows cursors ≠ checked.bodyLen then .error .counterMismatch
                else
                  .ok { out with
                    rows, cursors, aggregateBytes := checked.aggregateBytes
                    checkpointBodyBytes := checked.bodyLen }

end OnyxServer.AcceptedLog
