import OnyxServer.Outbox.Model

/-!
# Checkpoints of the outbox

The RVO2 form: a header, the rows with their exact wires, the receipts, and a checksum over
all of it. The validator reads it by raw offsets and looks back at every earlier row for a
duplicate; a restore then verifies every wire again.
-/
namespace OnyxServer.Outbox

open Lib
open Relay.V2 (RelayId Crypto)

/-- "RVO2" -/
def magic : Bytes := [0x52, 0x56, 0x4f, 0x32]
def version : UInt8 := 2

def checksumDomain : Bytes := "onyx-relay-v2-outbox-checkpoint-v2-excluded".toUTF8.toList

def checkpointChecksum (crypto : Crypto) (pre : Bytes) : FixedBytes 32 :=
  crypto.blake3 (checksumDomain ++ pre)

def encodeEntryPrefix (entry : Entry) : Bytes :=
  beBytes 8 entry.peer.toNat ++ (beBytes 8 entry.excludedPeer.toNat ++ (entry.relayId.val ++
    (beBytes 8 entry.retryAfterMs.toNat ++
      (beBytes 4 entry.attempts.toNat ++ beBytes 4 entry.wire.length))))

def encodeEntry (entry : Entry) : Bytes := encodeEntryPrefix entry ++ entry.wire

def encodeReceipt (receipt : Receipt) : Bytes :=
  beBytes 8 receipt.peer.toNat ++ (receipt.relayId.val ++
    (beBytes 8 receipt.retryAfterMs.toNat ++ beBytes 4 receipt.attempts.toNat))

def encodeHeader (maxEntries count receiptCount bodyLen : Nat) : Bytes :=
  magic ++
    (version ::
      (beBytes 4 maxEntries ++ (beBytes 4 count ++ (beBytes 4 receiptCount ++ beBytes 4 bodyLen))))

/-- The sizing loop, which also checks every row. -/
def measureEntries : List Entry → Nat → Except Error Nat
  | [], bodyLen => .ok bodyLen
  | entry :: entries, bodyLen =>
    if entry.wire.length = 0 ∨ hardMaxWireBytes < entry.wire.length then .error .invalidWire
    else if entry.excludedPeer = entry.peer then .error .invalidExclusion
    else
      match checkedAdd bodyLen (entryPrefixLen + entry.wire.length) with
      | none => .error .checkpointTooLarge
      | some bodyLen => measureEntries entries bodyLen

def encodePrefix (outbox : Outbox) (bodyLen : Nat) : Bytes :=
  encodeHeader outbox.maxEntries outbox.entries.length outbox.receipts.length bodyLen ++
    (outbox.entries.flatMap encodeEntry ++ outbox.receipts.flatMap encodeReceipt)

def encodeCheckpoint (crypto : Crypto) (outbox : Outbox) (alloc : Allocator) : Except Error Bytes :=
  if outbox.maxEntries < outbox.entries.length ∨
    outbox.maxReceiptEntries < outbox.receipts.length then
    .error .capacityExceeded
  else
    match checkedMul outbox.receipts.length receiptPrefixLen with
    | none => .error .checkpointTooLarge
    | some receiptBytes =>
      match measureEntries outbox.entries receiptBytes with
      | .error e => .error e
      | .ok bodyLen =>
        if outbox.receipts.any (fun receipt => receipt.peer == unboundPeer) then
          .error .invalidReceiptPeer
        else
          match checkedAdd headerLen bodyLen with
          | none => .error .checkpointTooLarge
          | some prefixLen =>
            match checkedAdd prefixLen checksumLen with
            | none => .error .checkpointTooLarge
            | some totalLen =>
              if hardMaxCheckpointBytes < totalLen then .error .checkpointTooLarge
              else if !alloc 0 then .error .outOfMemory
              else
                let pre := encodePrefix outbox bodyLen
                .ok (pre ++ (checkpointChecksum crypto pre).val)

structure CheckpointMeta where
  maxEntries : Nat
  count : Nat
  receiptCount : Nat
  deriving DecidableEq

/-- The fixed part of an encoded row. -/
structure EntryPrefix where
  peer : UInt64
  excludedPeer : UInt64
  relayId : RelayId
  retryAfterMs : UInt64
  attempts : UInt32
  wireLen : Nat
  deriving DecidableEq

def readEntryPrefix (bytes : Bytes) (pos : Nat) : EntryPrefix where
  peer := UInt64.ofNat (beNat (slice bytes pos (pos + 8)))
  excludedPeer := UInt64.ofNat (beNat (slice bytes (pos + 8) (pos + 16)))
  relayId := FixedBytes.ofSlice 16 (slice bytes (pos + 16) (pos + 32))
  retryAfterMs := UInt64.ofNat (beNat (slice bytes (pos + 32) (pos + 40)))
  attempts := UInt32.ofNat (beNat (slice bytes (pos + 40) (pos + 44)))
  wireLen := beNat (slice bytes (pos + 44) (pos + 48))

def readReceipt (bytes : Bytes) (pos : Nat) : Receipt where
  peer := UInt64.ofNat (beNat (slice bytes pos (pos + 8)))
  relayId := FixedBytes.ofSlice 16 (slice bytes (pos + 8) (pos + 24))
  retryAfterMs := UInt64.ofNat (beNat (slice bytes (pos + 24) (pos + 32)))
  attempts := UInt32.ofNat (beNat (slice bytes (pos + 32) (pos + 36)))

/-- The look back over the rows in front of `rowStart`. A row is never empty, so as many
rounds as there are octets in front are enough. -/
def priorEntry (bytes : Bytes) (peer : UInt64) (relayId : RelayId) (rowStart : Nat) :
    Nat → Nat → Bool
  | 0, _ => false
  | rounds + 1, priorPos =>
    if priorPos < rowStart then
      let prior := readEntryPrefix bytes priorPos
      if prior.peer = peer ∧ prior.relayId = relayId then true
      else priorEntry bytes peer relayId rowStart rounds (priorPos + entryPrefixLen + prior.wireLen)
    else false

def validateEntries (bytes : Bytes) (prefixLen : Nat) : Nat → Nat → Except Error Nat
  | 0, pos => .ok pos
  | count + 1, rowStart =>
    if prefixLen < rowStart ∨ prefixLen - rowStart < entryPrefixLen then .error .truncated
    else
      let row := readEntryPrefix bytes rowStart
      let pos := rowStart + entryPrefixLen
      if row.excludedPeer = row.peer then .error .invalidExclusion
      else if row.wireLen = 0 ∨ hardMaxWireBytes < row.wireLen ∨ prefixLen - pos < row.wireLen then
        .error .invalidWire
      else if priorEntry bytes row.peer row.relayId rowStart rowStart headerLen then
        .error .duplicateEntry
      else validateEntries bytes prefixLen count (pos + row.wireLen)

def validateReceipts (bytes : Bytes) (prefixLen receiptsStart : Nat) :
    Nat → Nat → Nat → Except Error Nat
  | 0, _, pos => .ok pos
  | count + 1, receiptIndex, pos =>
    if prefixLen < pos ∨ prefixLen - pos < receiptPrefixLen then .error .truncated
    else
      let receipt := readReceipt bytes pos
      if receipt.peer = unboundPeer then .error .invalidReceiptPeer
      else if (List.range receiptIndex).any (fun priorIndex =>
          (readReceipt bytes (receiptsStart + priorIndex * receiptPrefixLen)).holds receipt.peer
          receipt.relayId) then
        .error .duplicateEntry
      else validateReceipts bytes prefixLen receiptsStart count (receiptIndex + 1)
        (pos + receiptPrefixLen)

def validateCheckpoint (crypto : Crypto) (bytes : Bytes) : Except Error CheckpointMeta :=
  if bytes.length < headerLen + checksumLen then .error .truncated
  else if bytes.take 4 ≠ magic then .error .badMagic
  else if slice bytes 4 5 ≠ [version] then .error .unsupportedVersion
  else
    let maxEntries := beNat (slice bytes 5 9)
    let count := beNat (slice bytes 9 13)
    let receiptCount := beNat (slice bytes 13 17)
    let bodyLen := beNat (slice bytes 17 21)
    if maxEntries = 0 ∨ hardMaxEntries < maxEntries then .error .invalidConfig
    else if maxEntries < count then .error .capacityExceeded
    else if min (maxEntries * 8) hardMaxReceipts < receiptCount then .error .capacityExceeded
    else
      match checkedAdd headerLen bodyLen with
      | none => .error .checkpointTooLarge
      | some prefixLen =>
        match checkedAdd prefixLen checksumLen with
        | none => .error .checkpointTooLarge
        | some totalLen =>
          if hardMaxCheckpointBytes < totalLen then .error .checkpointTooLarge
          else if bytes.length < totalLen then .error .truncated
          else if totalLen < bytes.length then .error .trailingBytes
          else if (checkpointChecksum crypto (bytes.take prefixLen)).val ≠ bytes.drop prefixLen then
            .error .checksumMismatch
          else
            match validateEntries bytes prefixLen count headerLen with
            | .error e => .error e
            | .ok receiptsStart =>
              match validateReceipts bytes prefixLen receiptsStart receiptCount 0 receiptsStart with
              | .error e => .error e
              | .ok pos =>
                if pos ≠
                  prefixLen then .error (if pos < prefixLen then .trailingBytes else .truncated)
                else .ok { maxEntries, count, receiptCount }

/-- One row of the second pass. Three allocator sites: the copy of the wire, the decoder
and the transcript. -/
def decodeEntry (crypto : Crypto) (row : EntryPrefix) (wire : Bytes) (alloc : Allocator) :
    Except Error Entry :=
  if !alloc 0 ∨ !alloc 1 then .error .outOfMemory
  else
    match Relay.V2.decode wire with
    | .error _ => .error .invalidWire
    | .ok msg =>
      if !alloc 2 then .error .outOfMemory
      else
        match Relay.V2.verifyAndRelayId crypto msg with
        | .verified derived =>
          if derived ≠ row.relayId then .error .invalidWire
          else
            .ok {
              peer := row.peer, relayId := row.relayId, retryAfterMs := row.retryAfterMs
              attempts := row.attempts, excludedPeer := row.excludedPeer, wire := wire }
        | _ => .error .invalidWire

def decodeEntries (crypto : Crypto) (bytes : Bytes) (alloc : Allocator) :
    Nat → Nat → Nat → Except Error (List Entry × Nat)
  | 0, _, pos => .ok ([], pos)
  | count + 1, site, pos =>
    let row := readEntryPrefix bytes pos
    let wirePos := pos + entryPrefixLen
    match decodeEntry crypto row (slice bytes wirePos (wirePos + row.wireLen))
      (fun n => alloc (site + n)) with
    | .error e => .error e
    | .ok entry =>
      match decodeEntries crypto bytes alloc count (site + 3) (wirePos + row.wireLen) with
      | .error e => .error e
      | .ok (entries, pos) => .ok (entry :: entries, pos)

def decodeReceipts (bytes : Bytes) : Nat → Nat → List Receipt
  | 0, _ => []
  | count + 1, pos => readReceipt bytes pos :: decodeReceipts bytes count (pos + receiptPrefixLen)

def decodeCheckpoint (crypto : Crypto) (expectedMaxEntries : Nat) (bytes : Bytes)
    (alloc : Allocator) :
    Except Error Outbox :=
  match validateCheckpoint crypto bytes with
  | .error e => .error e
  | .ok checked =>
    if checked.maxEntries ≠ expectedMaxEntries then .error .invalidConfig
    else
      match init expectedMaxEntries with
      | .error e => .error e
      | .ok out =>
        if !alloc 0 then .error .outOfMemory
        else
          match decodeEntries crypto bytes alloc checked.count 1 headerLen with
          | .error e => .error e
          | .ok (entries, pos) =>
            if !alloc (1 + 3 * checked.count) then .error .outOfMemory
            else .ok { out with entries, receipts := decodeReceipts bytes checked.receiptCount pos }

end OnyxServer.Outbox
