import OnyxServer.Lib.Wire
import OnyxServer.Relay.V2

/-!
# The per-hop outbox

Every row of `relay_v2_outbox.zig` is an obligation to one immediate peer, which holds the
exact wire until that peer acknowledges it. Rows without a peer wait for a hop other than
the one the message came from. Receipts are proofs of admission not confirmed yet.
-/
namespace OnyxServer.Outbox

open Lib
open Relay.V2 (RelayId Crypto)

def unboundPeer : UInt64 := 0
def hardMaxEntries : Nat := 65536
def hardMaxReceipts : Nat := 65536
def hardMaxWireBytes : Nat := 1024 * 1024
def hardMaxCheckpointBytes : Nat := 64 * 1024 * 1024

def headerLen : Nat := 21
def checksumLen : Nat := 32
def entryPrefixLen : Nat := 8 + 8 + 16 + 8 + 4 + 4
def receiptPrefixLen : Nat := 8 + 16 + 8 + 4

structure Entry where
  peer : UInt64
  relayId : RelayId
  retryAfterMs : UInt64
  attempts : UInt32
  excludedPeer : UInt64
  wire : Bytes
  deriving DecidableEq

structure Receipt where
  peer : UInt64
  relayId : RelayId
  retryAfterMs : UInt64
  attempts : UInt32
  deriving DecidableEq

inductive Error where
  | outOfMemory
  | capacityExceeded
  | badMagic
  | unsupportedVersion
  | invalidConfig
  | truncated
  | trailingBytes
  | checksumMismatch
  | duplicateEntry
  | invalidWire
  | invalidExclusion
  | invalidReceiptPeer
  | checkpointTooLarge
  deriving DecidableEq

end OnyxServer.Outbox

namespace OnyxServer

open Lib Outbox
open Relay.V2 (RelayId)

structure Outbox where
  maxEntries : Nat
  entries : List Outbox.Entry
  receipts : List Outbox.Receipt
  entryRetryCursor : Nat
  receiptRetryCursor : Nat
  deriving DecidableEq

namespace Outbox

def init (maxEntries : Nat) : Except Error Outbox :=
  if maxEntries = 0 ∨ hardMaxEntries < maxEntries then .error .invalidConfig
  else .ok ⟨maxEntries, [], [], 0, 0⟩

def Entry.holds (entry : Entry) (peer : UInt64) (relayId : RelayId) : Bool :=
  entry.peer == peer && entry.relayId == relayId

def Receipt.holds (receipt : Receipt) (peer : UInt64) (relayId : RelayId) : Bool :=
  receipt.peer == peer && receipt.relayId == relayId

variable (outbox : Outbox)

def contains (peer : UInt64) (relayId : RelayId) : Bool :=
  outbox.entries.any fun entry => entry.holds peer relayId

def containsReceipt (peer : UInt64) (relayId : RelayId) : Bool :=
  outbox.receipts.any fun receipt => receipt.holds peer relayId

def maxReceiptEntries : Nat := min (outbox.maxEntries * 8) hardMaxReceipts

/-- The peers that get a row: each once, and none that holds the id already. -/
def freshPeers (relayId : RelayId) : List UInt64 → List UInt64 → List UInt64
  | _, [] => []
  | prior, peer :: peers =>
    if peer ∈ prior ∨
      outbox.contains peer relayId = true then freshPeers relayId (prior ++ [peer]) peers
    else peer :: freshPeers relayId (prior ++ [peer]) peers

/-- The sizing loop over the retained rows. -/
def retainedBody : List Entry → Nat → Option Nat
  | [], body => some body
  | entry :: entries, body =>
    match checkedAdd body (entryPrefixLen + entry.wire.length) with
    | none => none
    | some body => retainedBody entries body

/-- The body a checkpoint would have after the batch. -/
def prospectiveBody (needed wireLen : Nat) (needsReceipt : Bool) : Option Nat :=
  match checkedMul outbox.receipts.length receiptPrefixLen with
  | none => none
  | some receiptBytes =>
    match retainedBody outbox.entries receiptBytes with
    | none => none
    | some retained =>
      match checkedMul needed (entryPrefixLen + wireLen) with
      | none => none
      | some added =>
        match checkedAdd retained added with
        | none => none
        | some body => if needsReceipt then checkedAdd body receiptPrefixLen else some body

def stagedEntry (relayId : RelayId) (wire : Bytes)
    (retryAfterMs unboundExcludedPeer peer : UInt64) : Entry where
  peer := peer
  relayId := relayId
  retryAfterMs := retryAfterMs
  attempts := 0
  excludedPeer := if peer = unboundPeer then unboundExcludedPeer else 0
  wire := wire

def stagedReceipt (receiptPeer : Option UInt64) (needsReceipt : Bool) (relayId : RelayId)
    (retryAfterMs : UInt64) :
    List Receipt :=
  match receiptPeer with
  | some peer => if needsReceipt then [⟨peer, relayId, retryAfterMs, 0⟩] else []
  | none => []

/-- One allocator site for the staged slice, one for each wire and one for each list. -/
def putBatchExcluding (peers : List UInt64) (receiptPeer : Option UInt64) (relayId : RelayId)
    (wire : Bytes)
    (retryAfterMs unboundExcludedPeer : UInt64) (alloc : Allocator) : Except Error Unit × Outbox :=
  if wire.length = 0 ∨ hardMaxWireBytes < wire.length then (.error .invalidWire, outbox)
  else if receiptPeer = some unboundPeer then (.error .invalidReceiptPeer, outbox)
  else if unboundPeer ∈ peers ∧
    unboundExcludedPeer = unboundPeer then (.error .invalidExclusion, outbox)
  else
    let fresh := outbox.freshPeers relayId [] peers
    let needsReceipt := receiptPeer.any fun peer => !outbox.containsReceipt peer relayId
    if fresh.length = 0 ∧ needsReceipt = false then (.ok (), outbox)
    else if outbox.maxEntries - outbox.entries.length <
      fresh.length then (.error .capacityExceeded, outbox)
    else if needsReceipt = true ∧ outbox.receipts.length = outbox.maxReceiptEntries then
      (.error .capacityExceeded, outbox)
    else
      match outbox.prospectiveBody fresh.length wire.length needsReceipt with
      | none => (.error .capacityExceeded, outbox)
      | some body =>
        if hardMaxCheckpointBytes - headerLen - checksumLen <
          body then (.error .capacityExceeded, outbox)
        else if (List.range (fresh.length + 3)).any (fun site => !alloc site) then
          (.error .outOfMemory, outbox)
        else
          (.ok (), { outbox with
            entries := outbox.entries ++
              fresh.map (stagedEntry relayId wire retryAfterMs unboundExcludedPeer)
            receipts :=
              outbox.receipts ++ stagedReceipt receiptPeer needsReceipt relayId retryAfterMs })

def repairCursor (cursor removedIndex length : Nat) : Nat :=
  if length = 0 then 0 else if removedIndex < cursor then cursor - 1 else cursor

def acknowledge (peer : UInt64) (relayId : RelayId) : Bool × Outbox :=
  match outbox.entries.findIdx? (fun entry => entry.holds peer relayId) with
  | none => (false, outbox)
  | some index =>
    let entries := outbox.entries.eraseIdx index
    (true,
      { outbox with entries, entryRetryCursor :=
        repairCursor outbox.entryRetryCursor index entries.length })

/-- There is no answer where an index is out of bounds. -/
def removeAt (index : Nat) : Option Outbox :=
  if index < outbox.entries.length then
    let entries := outbox.entries.eraseIdx index
    some { outbox with
      entries, entryRetryCursor := repairCursor outbox.entryRetryCursor index entries.length }
  else none

def confirmReceipt (peer : UInt64) (relayId : RelayId) : Bool × Outbox :=
  match outbox.receipts.findIdx? (fun receipt => receipt.holds peer relayId) with
  | none => (false, outbox)
  | some index =>
    let receipts := outbox.receipts.eraseIdx index
    (true, { outbox with
      receipts, receiptRetryCursor :=
        repairCursor outbox.receiptRetryCursor index receipts.length })

/-- The rows in front of the loop may have been bound by it already. -/
def bindLoop (peer : UInt64) : List Entry → List Entry → List Entry × Nat
  | done, [] => (done, 0)
  | done, entry :: entries =>
    if entry.peer ≠ unboundPeer ∨ entry.excludedPeer = peer ∨
        (done ++ entry :: entries).any (fun other => other.holds peer entry.relayId) = true then
      bindLoop peer (done ++ [entry]) entries
    else
      let (bound, count) := bindLoop peer (done ++ [{ entry with peer }]) entries
      (bound, count + 1)

def bindUnbound (peer : UInt64) : Nat × Outbox :=
  if peer = unboundPeer then (0, outbox)
  else
    let (entries, bound) := bindLoop peer [] outbox.entries
    (bound, { outbox with entries })

/-- The sweep over a circle of rows; `scanned` counts down. -/
def collectLoop {α : Type} (due : α → Bool) (rows : List α) : Nat → Nat → Nat → List α × Nat
  | 0, index, _ => ([], index)
  | _ + 1, index, 0 => ([], index)
  | scanned + 1, index, room + 1 =>
    match rows[index]? with
    | none => ([], index)
    | some row =>
      if due row then
        let (page, index) := collectLoop due rows scanned ((index + 1) % rows.length) room
        (row :: page, index)
      else collectLoop due rows scanned ((index + 1) % rows.length) (room + 1)

def collectDue {α : Type} (due : α → Bool) (rows : List α) (cursor room : Nat) : List α × Nat :=
  if rows.length = 0 then ([], 0)
  else if room = 0 then ([], cursor)
  else collectLoop due rows rows.length (cursor % rows.length) room

def collectDueEntries (nowMs : UInt64) (room : Nat) : List Entry × Outbox :=
  let (page, cursor) := collectDue
    (fun entry => entry.peer != unboundPeer && decide (entry.retryAfterMs ≤ nowMs)) outbox.entries
    outbox.entryRetryCursor room
  (page, { outbox with entryRetryCursor := cursor })

def collectDueReceipts (nowMs : UInt64) (room : Nat) : List Receipt × Outbox :=
  let (page, cursor) :=
    collectDue (fun receipt => decide (receipt.retryAfterMs ≤ nowMs)) outbox.receipts
    outbox.receiptRetryCursor room
  (page, { outbox with receiptRetryCursor := cursor })

end Outbox

end OnyxServer
