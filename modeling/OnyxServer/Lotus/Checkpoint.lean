import OnyxServer.Lib.Sorted
import OnyxServer.Lotus.Store

/-!
# Checkpoints of the history store

The LTHC form: a header with the limits of the store, the targets in byte order with their
rings oldest first, and a checksum over all of it. A restore appends entry by entry to an
empty store.
-/
namespace OnyxServer.Lotus

open Lib

inductive CheckpointError where
  | outOfMemory
  | badMagic
  | unsupportedVersion
  | configMismatch
  | capacityExceeded
  | checkpointTooLarge
  | truncated
  | trailingBytes
  | checksumMismatch
  | nonCanonicalOrder
  | invalidField
  | invalidHash
  deriving DecidableEq

/-- "LTHC" -/
def checkpointMagic : Bytes := [0x4c, 0x54, 0x48, 0x43]
def checkpointVersion : UInt8 := 1
def checkpointFlagTombstone : UInt8 := 1
def checkpointFlagHasTags : UInt8 := 2

def checksumDomain : Bytes := "onyx_server.lotus.checkpoint.v1".toUTF8.toList

def checkpointChecksum (blake3 : Blake3) (pre : Bytes) : FixedBytes 32 :=
  blake3 (checksumDomain ++ pre)

def checkpointLenAdd (current additional maxBytes : Nat) : Except CheckpointError Nat :=
  match checkedAdd current additional with
  | none => .error .checkpointTooLarge
  | some result => if maxBytes < result ∨
      maxU32 < result then .error .checkpointTooLarge else .ok result

/-- A table row with its ring as a list. -/
abbrev TargetRow := Bytes × List StoredMessage

/-- The targets in byte order. -/
def deterministicRows (params : Params) (store : Lotus) : List TargetRow :=
  (sortByKey Sigma.fst store.targets.entries).map fun row => (row.1, row.2.view params.maxPerTarget)

def validateCheckpointStoredMessage (params : Params) (blake3 : Blake3) (message : StoredMessage) :
    Except CheckpointError Unit :=
  if params.maxMsgid < message.msgid.length ∨ params.maxSender < message.sender.length ∨
      params.maxText < message.text.length ∨
        params.maxCommand < message.command.length then .error .capacityExceeded
  else if message.clientTags.any (fun tags => decide (params.maxClientTags < tags.length)) then
    .error .capacityExceeded
  else if message.hash ≠ blake3 message.text then .error .invalidHash
  else .ok ()

def tagsOf (clientTags : Option Bytes) : Bytes := clientTags.getD []

def addAll (maxBytes : Nat) : List Nat → Nat → Except CheckpointError Nat
  | [], current => .ok current
  | additional :: rest, current =>
    match checkpointLenAdd current additional maxBytes with
    | .error e => .error e
    | .ok next => addAll maxBytes rest next

def measureEntries (params : Params) (blake3 : Blake3) :
    List StoredMessage → Nat → Except CheckpointError Nat
  | [], bodyLen => .ok bodyLen
  | message :: messages, bodyLen =>
    match validateCheckpointStoredMessage params blake3 message with
    | .error e => .error e
    | .ok () =>
      match addAll params.maxCheckpointBytes [checkpointEntryPrefixLen, message.msgid.length,
        message.sender.length,
          message.text.length, message.command.length, (tagsOf message.clientTags).length]
          bodyLen with
      | .error e => .error e
      | .ok bodyLen => measureEntries params blake3 messages bodyLen

def measureTargets (params : Params) (blake3 : Blake3) :
    List TargetRow → Nat → Except CheckpointError Nat
  | [], bodyLen => .ok bodyLen
  | row :: rows, bodyLen =>
    if row.2.length = 0 ∨ params.maxPerTarget < row.2.length then .error .invalidField
    else
      match addAll params.maxCheckpointBytes [checkpointTargetPrefixLen, row.1.length] bodyLen with
      | .error e => .error e
      | .ok bodyLen =>
        match measureEntries params blake3 row.2 bodyLen with
        | .error e => .error e
        | .ok bodyLen => measureTargets params blake3 rows bodyLen

def entryFlags (message : StoredMessage) : UInt8 :=
  (if message.tombstone then checkpointFlagTombstone else 0) |||
    (if message.clientTags.isSome then checkpointFlagHasTags else 0)

def encodeEntry (message : StoredMessage) : Bytes :=
  [entryFlags message] ++ (beBytes 8 message.timestamp.toNat ++ (message.hash.val ++
    (beBytes 4 message.msgid.length ++
      (beBytes 4 message.sender.length ++ (beBytes 4 message.text.length ++
      (beBytes 4 message.command.length ++ (beBytes 4 (tagsOf message.clientTags).length ++
        (message.msgid ++
          (message.sender ++
            (message.text ++ (message.command ++ tagsOf message.clientTags)))))))))))

def encodeTarget (row : TargetRow) : Bytes :=
  beBytes 4 row.1.length ++ (beBytes 4 row.2.length ++ (row.1 ++ row.2.flatMap encodeEntry))

def encodeHeader (params : Params) (targetCount total bodyLen : Nat) : Bytes :=
  (checkpointMagic ++ [checkpointVersion, 0, 0, 0]) ++
    (beBytes 4 params.maxTargets ++ (beBytes 4 params.maxPerTarget ++
    (beBytes 4 params.maxText ++ (beBytes 4 params.maxTarget ++ (beBytes 4 params.maxMsgid ++
      (beBytes 4 params.maxSender ++
        (beBytes 4 params.maxCommand ++ (beBytes 4 params.maxClientTags ++
        (beBytes 4 targetCount ++ (beBytes 4 total ++ beBytes 4 bodyLen))))))))))

def encodePrefix (params : Params) (store : Lotus) (bodyLen : Nat) : Bytes :=
  encodeHeader params store.count store.totalStoredCount bodyLen ++
    (deterministicRows params store).flatMap encodeTarget

def encodeCheckpoint (params : Params) (blake3 : Blake3) (store : Lotus) (alloc : Allocator) :
    Except CheckpointError Bytes :=
  match measureTargets params blake3 (deterministicRows params store) 0 with
  | .error e => .error e
  | .ok bodyLen =>
    if bodyLen ≠ store.checkpointBodyLen then .error .invalidField
    else
      match addAll params.maxCheckpointBytes
        [bodyLen, checkpointChecksumLen] checkpointHeaderLen with
      | .error e => .error e
      | .ok _ =>
        if !alloc 0 then .error .outOfMemory
        else
          let pre := encodePrefix params store bodyLen
          .ok (pre ++ (checkpointChecksum blake3 pre).val)

/-- The reader holds what is left up to its end. -/
def readBytes (len : Nat) (rest : Bytes) : Except CheckpointError (Bytes × Bytes) :=
  if rest.length < len then .error .truncated else .ok (rest.take len, rest.drop len)

def takeInt (width : Nat) (rest : Bytes) : Except CheckpointError (Nat × Bytes) := do
  let (bytes, rest) ← readBytes width rest
  return (beNat bytes, rest)

/-- One entry of the body, its fields checked. -/
def readEntry (params : Params) (blake3 : Blake3) (encodedMaxText : Nat) (rest : Bytes) :
    Except CheckpointError (ExactInputMessage × Bytes) := do
  let (flagBytes, rest) ← readBytes 1 rest
  let flags := flagBytes.headD 0
  if flags &&& ~~~(checkpointFlagTombstone ||| checkpointFlagHasTags) ≠ 0 then throw .invalidField
  let (timestamp, rest) ← takeInt 8 rest
  let (encodedHash, rest) ← readBytes 32 rest
  let (msgidLen, rest) ← takeInt 4 rest
  let (senderLen, rest) ← takeInt 4 rest
  let (textLen, rest) ← takeInt 4 rest
  let (commandLen, rest) ← takeInt 4 rest
  let (tagsLen, rest) ← takeInt 4 rest
  if params.maxMsgid < msgidLen ∨ params.maxSender < senderLen ∨ encodedMaxText < textLen ∨
    params.maxText < textLen ∨
      params.maxCommand < commandLen ∨ params.maxClientTags < tagsLen then throw .capacityExceeded
  let hasTags := flags &&& checkpointFlagHasTags != 0
  if hasTags = false ∧ tagsLen ≠ 0 then throw .invalidField
  let (msgid, rest) ← readBytes msgidLen rest
  let (sender, rest) ← readBytes senderLen rest
  let (text, rest) ← readBytes textLen rest
  let (command, rest) ← readBytes commandLen rest
  let (tags, rest) ← readBytes tagsLen rest
  if encodedHash ≠ (blake3 text).val then throw .invalidHash
  return ({
    msgid, sender, text, command
    timestamp := UInt64.ofNat timestamp
    clientTags := if hasTags then some tags else none
    tombstone := flags &&& checkpointFlagTombstone != 0 }, rest)

/-- Append, then set the tombstone of what was appended. -/
def restoreEntry (params : Params) (blake3 : Blake3) (target : Bytes) (msg : ExactInputMessage)
    (restored : Lotus) (alloc : Allocator) : Outcome CheckpointError Lotus :=
  match restored.append params blake3 target msg.toInputMessage alloc with
  | (.done _, restored) =>
    match restored.targets.lookup target with
    | none => .unreachable
    | some log =>
      .done { restored with
        targets := restored.targets.insert target (log.setEntry params.maxPerTarget (log.len - 1)
          { log.entry params.maxPerTarget (log.len - 1) with tombstone := msg.tombstone }) }
  | (.failed .outOfMemory, _) => .failed .outOfMemory
  | (.failed _, _) => .failed .invalidField
  | (.unreachable, _) => .unreachable
  | (.diverged, _) => .diverged

/-- Eight allocator sites an entry. -/
def decodeEntries (params : Params) (blake3 : Blake3) (encodedMaxText : Nat) (target : Bytes)
    (alloc : Allocator) :
    Nat → Nat → Lotus → Bytes → Outcome CheckpointError (Lotus × Bytes)
  | 0, _, restored, rest => .done (restored, rest)
  | count + 1, site, restored, rest =>
    match readEntry params blake3 encodedMaxText rest with
    | .error e => .failed e
    | .ok (msg, rest) =>
      match restoreEntry params blake3 target msg restored (fun n => alloc (site + n)) with
      | .done restored =>
          decodeEntries params blake3 encodedMaxText target alloc count (site + 8) restored rest
      | .failed e => .failed e
      | .unreachable => .unreachable
      | .diverged => .diverged

/-- One target of the body; answers with its name and the number of its entries. -/
def readTarget (params : Params) (previous : Option Bytes) (rest : Bytes) :
    Except CheckpointError (Bytes × Nat × Bytes) := do
  let (targetLen, rest) ← takeInt 4 rest
  let (entryCount, rest) ← takeInt 4 rest
  if targetLen = 0 ∨ params.maxTarget < targetLen ∨ entryCount = 0 ∨
    params.maxPerTarget < entryCount then
    throw .capacityExceeded
  let (target, rest) ← readBytes targetLen rest
  if previous.any (fun prior => !decide (prior < target)) then throw .nonCanonicalOrder
  return (target, entryCount, rest)

def decodeTargets (params : Params) (blake3 : Blake3) (encodedMaxText : Nat) (alloc : Allocator) :
    Nat → Option Bytes → Nat → Lotus → Bytes → Outcome CheckpointError (Lotus × Nat × Bytes)
  | 0, _, total, restored, rest => .done (restored, total, rest)
  | count + 1, previous, total, restored, rest =>
    match readTarget params previous rest with
    | .error e => .failed e
    | .ok (target, entryCount, rest) =>
      match decodeEntries params blake3 encodedMaxText target alloc entryCount
        (8 * total) restored rest with
      | .done (restored, rest) =>
        decodeTargets params blake3 encodedMaxText alloc count (some target)
          (total + entryCount) restored rest
      | .failed e => .failed e
      | .unreachable => .unreachable
      | .diverged => .diverged

/-- The limits in the header are those of the store, except for a smaller text limit. -/
def configMatches (params : Params) (bytes : Bytes) : Bool :=
  let encodedMaxText := beNat (slice bytes 16 20)
  beNat (slice bytes 8 12) == params.maxTargets &&
    beNat (slice bytes 12 16) == params.maxPerTarget &&
    encodedMaxText != 0 && decide (encodedMaxText ≤ params.maxText) &&
    beNat (slice bytes 20 24) == params.maxTarget && beNat (slice bytes 24 28) == params.maxMsgid &&
    beNat (slice bytes 28 32) == params.maxSender &&
      beNat (slice bytes 32 36) == params.maxCommand &&
    beNat (slice bytes 36 40) == params.maxClientTags

def decodeCheckpoint (params : Params) (blake3 : Blake3) (bytes : Bytes) (alloc : Allocator) :
    Outcome CheckpointError Lotus :=
  if params.maxCheckpointBytes < bytes.length then .failed .checkpointTooLarge
  else if bytes.length < checkpointHeaderLen + checkpointChecksumLen then .failed .truncated
  else if bytes.take 4 ≠ checkpointMagic then .failed .badMagic
  else if slice bytes 4 5 ≠ [checkpointVersion] then .failed .unsupportedVersion
  else if slice bytes 5 8 ≠ [0, 0, 0] then .failed .invalidField
  else if !configMatches params bytes then .failed .configMismatch
  else
    let targetCount := beNat (slice bytes 40 44)
    let declaredTotal := beNat (slice bytes 44 48)
    let bodyLen := beNat (slice bytes 48 52)
    if params.maxTargets < targetCount ∨ params.maxTargets * params.maxPerTarget <
      declaredTotal then
      .failed .capacityExceeded
    else
      match checkpointLenAdd checkpointHeaderLen bodyLen params.maxCheckpointBytes with
      | .error e => .failed e
      | .ok prefixLen =>
        match checkpointLenAdd prefixLen checkpointChecksumLen params.maxCheckpointBytes with
        | .error e => .failed e
        | .ok expectedLen =>
          if bytes.length < expectedLen then .failed .truncated
          else if expectedLen < bytes.length then .failed .trailingBytes
          else if (checkpointChecksum blake3 (bytes.take prefixLen)).val ≠ bytes.drop prefixLen then
            .failed .checksumMismatch
          else
            match decodeTargets params blake3 (beNat (slice bytes 16 20)) alloc targetCount none 0
              Lotus.init
                (slice bytes checkpointHeaderLen prefixLen) with
            | .failed e => .failed e
            | .unreachable => .unreachable
            | .diverged => .diverged
            | .done (restored, actualTotal, rest) =>
              if rest ≠ [] then .failed .trailingBytes
              else if actualTotal ≠ declaredTotal then .failed .invalidField
              else .done restored

end OnyxServer.Lotus
