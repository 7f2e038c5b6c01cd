import OnyxServer.Lib.RingBuffer
import OnyxServer.Lib.Wire

/-!
# The history store

Each target of the Lotus store keeps a ring of messages. The octets that the rings would
take up in a checkpoint are counted as they change, and an append that would exceed the
checkpoint evicts the oldest messages of the whole store first.
-/
namespace OnyxServer.Lotus

open Lib

abbrev ContentHash := FixedBytes 32

/-- The hash is the only code outside the repository the store uses. -/
abbrev Blake3 := Bytes → ContentHash

def checkpointHeaderLen : Nat := 52
def checkpointChecksumLen : Nat := 32
def checkpointTargetPrefixLen : Nat := 8
def checkpointEntryPrefixLen : Nat := 1 + 8 + 32 + 5 * 4
def maxU32 : Nat := 2 ^ 32 - 1

structure Params where
  maxTargets : Nat
  maxPerTarget : Nat
  maxText : Nat
  maxTarget : Nat
  maxMsgid : Nat
  maxSender : Nat
  maxCommand : Nat
  maxClientTags : Nat
  maxCheckpointBytes : Nat
  deriving DecidableEq

/-- The instantiations that compile. -/
def Params.valid (params : Params) : Bool :=
  params.maxTargets != 0 && params.maxPerTarget != 0 && params.maxTarget != 0 &&
    decide (checkpointHeaderLen + checkpointChecksumLen ≤ params.maxCheckpointBytes) &&
    [params.maxTargets, params.maxPerTarget, params.maxText, params.maxTarget, params.maxMsgid,
      params.maxSender,
      params.maxCommand, params.maxClientTags, params.maxCheckpointBytes].all
      (fun limit => decide (limit ≤ maxU32)) &&
    (checkedMul params.maxTargets params.maxPerTarget).isSome

structure InputMessage where
  msgid : Bytes
  sender : Bytes
  text : Bytes
  timestamp : UInt64
  command : Bytes
  clientTags : Option Bytes
  deriving DecidableEq

/-- The whole retained state of a message; an edit changes the text, a redaction the tombstone. -/
structure ExactInputMessage extends InputMessage where
  tombstone : Bool
  deriving DecidableEq

structure StoredMessage where
  hash : ContentHash
  msgid : Bytes
  sender : Bytes
  text : Bytes
  timestamp : UInt64
  tombstone : Bool
  command : Bytes
  clientTags : Option Bytes
  deriving DecidableEq

abbrev TargetLog := RingBuffer StoredMessage

inductive Error where
  | outOfMemory
  | invalidTarget
  | targetLimitExceeded
  | targetTooLong
  | msgidTooLong
  | senderTooLong
  | commandTooLong
  | clientTagsTooLong
  | checkpointCapacityExceeded
  | textTooLong
  | outputTooSmall
  | notFound
  deriving DecidableEq

/-- A call ends in a result or an error. It could also run into its unreachable branch, or
not end. -/
inductive Outcome (ε α : Type) where
  | done (result : α)
  | failed (error : ε)
  | unreachable
  | diverged
  deriving DecidableEq

structure AppendResult where
  evicted : Bool
  targetLen : Nat
  deriving DecidableEq

inductive ExactOnceResult where
  | inserted (result : AppendResult)
  | exactDuplicate
  | equivocation
  deriving DecidableEq

end OnyxServer.Lotus

namespace OnyxServer

open Lib Lotus

structure Lotus where
  targets : AList fun _ : Bytes => Lotus.TargetLog
  checkpointBodyLen : Nat

namespace Lotus

def init : Lotus := ⟨∅, 0⟩

def tagsLen (clientTags : Option Bytes) : Nat :=
  match clientTags with
  | some tags => tags.length
  | none => 0

def checkpointEntryBodyLenFromLengths (msgidLen senderLen textLen commandLen clientTagsLen : Nat) :
    Option Nat :=
  match checkedAdd checkpointEntryPrefixLen msgidLen with
  | none => none
  | some len =>
    match checkedAdd len senderLen with
    | none => none
    | some len =>
      match checkedAdd len textLen with
      | none => none
      | some len =>
        match checkedAdd len commandLen with
        | none => none
        | some len => checkedAdd len clientTagsLen

def checkpointEntryBodyLen (msg : InputMessage) : Option Nat :=
  checkpointEntryBodyLenFromLengths msg.msgid.length msg.sender.length msg.text.length
    msg.command.length
    (tagsLen msg.clientTags)

def checkpointStoredEntryBodyLen (message : StoredMessage) : Nat :=
  checkpointEntryPrefixLen + message.msgid.length + message.sender.length + message.text.length +
    message.command.length + tagsLen message.clientTags

def checkpointBodyFits (bodyLen maxCheckpointBytes : Nat) : Bool :=
  match checkedAdd checkpointHeaderLen bodyLen with
  | none => false
  | some withHeader =>
    match checkedAdd withHeader checkpointChecksumLen with
    | none => false
    | some total => decide (total ≤ maxCheckpointBytes) && decide (total ≤ maxU32)

def validateTargetForParams (params : Params) (target : Bytes) : Except Error Unit :=
  if target.length = 0 then .error .invalidTarget
  else if params.maxTarget < target.length then .error .targetTooLong
  else .ok ()

def validateMessage (params : Params) (msg : InputMessage) : Except Error Unit :=
  if params.maxText < msg.text.length then .error .textTooLong
  else if params.maxMsgid < msg.msgid.length then .error .msgidTooLong
  else if params.maxSender < msg.sender.length then .error .senderTooLong
  else if params.maxCommand < msg.command.length then .error .commandTooLong
  else if msg.clientTags.any (fun tags => decide (params.maxClientTags < tags.length)) then
    .error .clientTagsTooLong
  else .ok ()

def storedOf (blake3 : Blake3) (msg : InputMessage) (tombstone : Bool) : StoredMessage where
  hash := blake3 msg.text
  msgid := msg.msgid
  sender := msg.sender
  text := msg.text
  timestamp := msg.timestamp
  tombstone := tombstone
  command := msg.command
  clientTags := msg.clientTags

variable (params : Params) (store : Lotus)

def count : Nat := store.targets.entries.length

def totalStoredCount : Nat := tableSum (fun _ log => log.len) store.targets

def appendFitsCheckpoint (target : Bytes) (newEntryLen : Nat) : Bool :=
  let withTarget :=
    if (store.targets.lookup target).isNone then
      match checkedAdd store.checkpointBodyLen checkpointTargetPrefixLen with
      | none => none
      | some bodyLen => checkedAdd bodyLen target.length
    else some store.checkpointBodyLen
  match withTarget with
  | none => false
  | some bodyLen =>
    match checkedAdd bodyLen newEntryLen with
    | none => false
    | some bodyLen => checkpointBodyFits bodyLen params.maxCheckpointBytes

structure EvictionCandidate where
  target : Bytes
  index : Nat
  entry : StoredMessage

/-- Older by time, then by target, then by id, then by place. -/
def isOlder (candidate other : EvictionCandidate) : Bool :=
  if candidate.entry.timestamp ≠ other.entry.timestamp then
    decide (candidate.entry.timestamp < other.entry.timestamp)
  else if candidate.target ≠ other.target then decide (candidate.target < other.target)
  else if candidate.entry.msgid ≠
    other.entry.msgid then decide (candidate.entry.msgid < other.entry.msgid)
  else decide (candidate.index < other.index)

/-- Every retained entry with its place. -/
def candidates : List EvictionCandidate :=
  store.targets.entries.flatMap fun row =>
    (List.range row.2.len).map fun index => ⟨row.1, index, row.2.entry params.maxPerTarget index⟩

def globalOldest : Option EvictionCandidate :=
  (store.candidates params).foldl (fun oldest candidate =>
    match oldest with
    | none => some candidate
    | some current => if isOlder candidate current then some candidate else some current) none

/-- Drop the entry at a place of a ring, and what it took up. -/
def dropEntry (target : Bytes) (log : TargetLog) (index : Nat) : Lotus where
  targets := store.targets.insert target (log.removeAt params.maxPerTarget index)
  checkpointBodyLen :=
    store.checkpointBodyLen - checkpointStoredEntryBodyLen (log.entry params.maxPerTarget index)

/-- Drop a target, and what it took up itself. -/
def dropTarget (target : Bytes) : Lotus where
  targets := store.targets.erase target
  checkpointBodyLen := store.checkpointBodyLen - (checkpointTargetPrefixLen + target.length)

/-- No answer where there is nothing to evict. -/
def evictGlobalOldest (incomingTarget : Bytes) : Option Lotus :=
  match store.globalOldest params with
  | none => none
  | some candidate =>
    match store.targets.lookup candidate.target with
    | none => none
    | some log =>
      let evicted := store.dropEntry params candidate.target log candidate.index
      if log.len - 1 ≠ 0 ∨ candidate.target = incomingTarget then some evicted
      else some (evicted.dropTarget candidate.target)

/-- Evict while the entry does not fit. -/
def evictLoop (target : Bytes) (newEntryLen : Nat) :
    Nat → Lotus → Bool → Outcome Error (Lotus × Bool)
  | rounds, store, evicted =>
    if store.appendFitsCheckpoint params target newEntryLen then .done (store, evicted)
    else
      match rounds with
      | 0 => .diverged
      | rounds + 1 =>
        match store.evictGlobalOldest params target with
        | none => .unreachable
        | some store => evictLoop target newEntryLen rounds store true

/-! ## Admission -/

/-- The room of a full ring, made before the store is looked at. -/
def makeRoom (target : Bytes) (log : TargetLog) : Lotus × Bool :=
  if log.len = params.maxPerTarget then (store.dropEntry params target log 0, true)
    else (store, false)

/-- The append to a target that has a ring. Every round evicts an entry, so there are no
more rounds than entries. -/
def appendPresent (target : Bytes) (log : TargetLog) (newEntryLen : Nat) (stored : StoredMessage) :
    Outcome Error AppendResult × Lotus :=
  let (roomy, evicted) := store.makeRoom params target log
  match evictLoop params target newEntryLen roomy.totalStoredCount roomy evicted with
  | .done (roomy, evicted) =>
    match roomy.targets.lookup target with
    | none => (.unreachable, roomy)
    | some log =>
      let log := log.appendTake params.maxPerTarget stored
      (.done ⟨evicted, log.len⟩,
        { targets := roomy.targets.insert target log, checkpointBodyLen :=
          roomy.checkpointBodyLen + newEntryLen })
  | .failed e => (.failed e, roomy)
  | .unreachable => (.unreachable, roomy)
  | .diverged => (.diverged, roomy)

/-- The append that opens a ring. -/
def appendAbsent (target : Bytes) (newEntryLen : Nat) (stored : StoredMessage) :
    Outcome Error AppendResult × Lotus :=
  match evictLoop params target newEntryLen store.totalStoredCount store false with
  | .done (roomy, evicted) =>
    let log := (⟨fun _ => stored, 0, 0⟩ : TargetLog).appendTake params.maxPerTarget stored
    (.done ⟨evicted, log.len⟩,
      { targets := roomy.targets.insert target log
        checkpointBodyLen :=
          roomy.checkpointBodyLen + (checkpointTargetPrefixLen + target.length + newEntryLen) })
  | .failed e => (.failed e, store)
  | .unreachable => (.unreachable, store)
  | .diverged => (.diverged, store)

/-- Five allocator sites for the message, then three for a new target. -/
def appendState (blake3 : Blake3) (target : Bytes) (msg : InputMessage) (tombstone : Bool)
    (alloc : Allocator) :
    Outcome Error AppendResult × Lotus :=
  if (store.targets.lookup target).isNone ∧
    params.maxTargets ≤ store.count then (.failed .targetLimitExceeded, store)
  else
    match checkpointEntryBodyLen msg with
    | none => (.failed .checkpointCapacityExceeded, store)
    | some newEntryLen =>
      match checkedAdd (checkpointTargetPrefixLen + target.length) newEntryLen with
      | none => (.failed .checkpointCapacityExceeded, store)
      | some minimumBodyLen =>
        if !checkpointBodyFits minimumBodyLen params.maxCheckpointBytes then
          (.failed .checkpointCapacityExceeded, store)
        else if (List.range 5).any (fun site => !alloc site) then (.failed .outOfMemory, store)
        else
          let stored := storedOf blake3 msg tombstone
          match store.targets.lookup target with
          | some log => store.appendPresent params target log newEntryLen stored
          | none =>
            if (List.range 3).any (fun site => !alloc (5 + site)) then (.failed .outOfMemory, store)
            else store.appendAbsent params target newEntryLen stored

def append (blake3 : Blake3) (target : Bytes) (msg : InputMessage) (alloc : Allocator) :
    Outcome Error AppendResult × Lotus :=
  match validateTargetForParams params target with
  | .error e => (.failed e, store)
  | .ok () =>
    match validateMessage params msg with
    | .error e => (.failed e, store)
    | .ok () => store.appendState params blake3 target msg false alloc

def storedMatchesExact (blake3 : Blake3) (existing : StoredMessage) (incoming : ExactInputMessage) :
    Bool :=
  existing.sender == incoming.sender && existing.text == incoming.text &&
    existing.timestamp == incoming.timestamp && existing.command == incoming.command &&
    existing.clientTags == incoming.clientTags && existing.tombstone == incoming.tombstone &&
    existing.hash == blake3 incoming.text

/-- Every retained entry under the id of the message, with its target. -/
def sameId (msgid : Bytes) : List (Bytes × StoredMessage) :=
  store.targets.entries.flatMap fun row =>
    ((row.2.view params.maxPerTarget).filter fun existing => existing.msgid == msgid).map
      fun existing => (row.1, existing)

def ingestExactOnce (blake3 : Blake3) (target : Bytes) (msg : ExactInputMessage)
    (alloc : Allocator) :
    Outcome Error ExactOnceResult × Lotus :=
  match validateTargetForParams params target with
  | .error e => (.failed e, store)
  | .ok () =>
    match validateMessage params msg.toInputMessage with
    | .error e => (.failed e, store)
    | .ok () =>
      let found := store.sameId params msg.msgid
      if found.any (fun row => row.1 != target || !storedMatchesExact blake3 row.2 msg) then
        (.done .equivocation, store)
      else if !found.isEmpty then (.done .exactDuplicate, store)
      else
        match store.appendState params blake3 target msg.toInputMessage msg.tombstone alloc with
        | (.done result, store) => (.done (.inserted result), store)
        | (.failed e, store) => (.failed e, store)
        | (.unreachable, store) => (.unreachable, store)
        | (.diverged, store) => (.diverged, store)

/-- The newest entry under an id. -/
def newestIndex (log : TargetLog) (msgid : Bytes) : Option Nat :=
  (List.range log.len).reverse.find? fun index =>
    (log.entry params.maxPerTarget index).msgid == msgid

def findNewest (target msgid : Bytes) : Except Error (TargetLog × Nat) :=
  if target.length = 0 then .error .invalidTarget
  else
    match store.targets.lookup target with
    | none => .error .notFound
    | some log =>
      match newestIndex params log msgid with
      | none => .error .notFound
      | some index => .ok (log, index)

def redact (target msgid : Bytes) : Except Error Unit × Lotus :=
  match store.findNewest params target msgid with
  | .error e => (.error e, store)
  | .ok (log, index) =>
    (.ok (), { store with
      targets := store.targets.insert target
        (log.setEntry params.maxPerTarget index { log.entry params.maxPerTarget index with
          tombstone := true }) })

def bodyLenAfterEdit (entry : StoredMessage) (newTextLen : Nat) : Except Error Nat :=
  if store.checkpointBodyLen < checkpointStoredEntryBodyLen entry then
    .error .checkpointCapacityExceeded
  else
    match checkpointEntryBodyLenFromLengths entry.msgid.length entry.sender.length newTextLen
      entry.command.length
        (tagsLen entry.clientTags) with
    | none => .error .checkpointCapacityExceeded
    | some newEntryLen =>
      match checkedAdd (store.checkpointBodyLen - checkpointStoredEntryBodyLen entry)
        newEntryLen with
      | none => .error .checkpointCapacityExceeded
      | some bodyLen =>
        if checkpointBodyFits bodyLen params.maxCheckpointBytes then .ok bodyLen
        else .error .checkpointCapacityExceeded

def edit (blake3 : Blake3) (target msgid newText : Bytes) (alloc : Allocator) :
    Except Error Unit × Lotus :=
  if params.maxText < newText.length then (.error .textTooLong, store)
  else
    match store.findNewest params target msgid with
    | .error e => (.error e, store)
    | .ok (log, index) =>
      let entry := log.entry params.maxPerTarget index
      match store.bodyLenAfterEdit params entry newText.length with
      | .error e => (.error e, store)
      | .ok newBodyLen =>
        if !alloc 0 then (.error .outOfMemory, store)
        else
          (.ok (), {
            targets := store.targets.insert target
              (log.setEntry params.maxPerTarget index
                { entry with text := newText, hash := blake3 newText })
            checkpointBodyLen := newBodyLen })

/-- An empty ring drops the target. -/
def forget (target msgid : Bytes) : Except Error Unit × Lotus :=
  match store.findNewest params target msgid with
  | .error e => (.error e, store)
  | .ok (log, index) =>
    let removed := store.dropEntry params target log index
    if log.len - 1 ≠ 0 then (.ok (), removed) else (.ok (), removed.dropTarget target)

end Lotus

end OnyxServer
