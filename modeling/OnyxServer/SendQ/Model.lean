import OnyxServer.Lib.Saturating
import OnyxServer.Lib.Wire

/-!
# The send queue of a connection

`sendq.zig`: the kernel reads the fixed inline buffer only. What does not fit waits in a
heap overflow, and plaintext that is not encrypted yet in a deferred tail of chunks. An
append is prepared first, which may only move storage, and then committed or aborted.
-/
namespace OnyxServer.SendQ

open Lib

inductive SendError where
  | outputTooSmall
  deriving DecidableEq

/-- The fields of a connection that the queue reads and writes. The two capacities are the
storage that its lists own. -/
structure Connection where
  sendBuf : Bytes
  sendLen : Nat
  sendOffset : Nat
  sendArmed : Bool
  sendqCap : Nat
  sendOverflow : Bytes
  overflowCapacity : Nat
  tlsDeferredPlain : Bytes
  deferredCapacity : Nat
  tlsDeferredCharge : Nat
  tlsControlCharge : Nat
  deriving DecidableEq

/-- A connection with nothing queued. -/
def Connection.empty (sendBuf : Bytes) (sendqCap : Nat) : Connection :=
  ⟨sendBuf, 0, 0, false, sendqCap, [], 0, [], 0, 0, 0⟩

/-- The inline bytes that the kernel has not taken yet. -/
def Connection.window (conn : Connection) : Bytes := slice conn.sendBuf conn.sendOffset conn.sendLen

/-- Everything sendable, in the order in which it leaves. -/
def Connection.wire (conn : Connection) : Bytes := conn.window ++ conn.sendOverflow

/-- A connection up to the storage that its lists own. -/
def Connection.contents (conn : Connection) : Connection :=
  { conn with overflowCapacity := 0, deferredCapacity := 0 }

/-- What an allocator makes of a request: nothing, or as much as asked for and more. -/
abbrev Growth := Option Nat

def ensureCapacity (capacity needed : Nat) (growth : Growth) : Option Nat :=
  if needed ≤ capacity then some capacity else growth.map (needed + ·)

def orTooSmall {α : Type} : Option α → Except SendError α
  | some a => .ok a
  | none => .error .outputTooSmall

/-- Refuse with `OutputTooSmall` when the condition holds. -/
def refuseIf (condition : Prop) [Decidable condition] : Except SendError Unit :=
  if condition then .error .outputTooSmall else .ok ()

def wireBacklog (conn : Connection) : UInt64 :=
  satAdd (clampU64 (conn.sendLen - conn.sendOffset)) (clampU64 conn.sendOverflow.length)

def backlog (conn : Connection) : UInt64 :=
  satAdd (satAdd (wireBacklog conn) (clampU64 conn.tlsDeferredCharge))
    (clampU64 conn.tlsControlCharge)

def checkedTotal (conn : Connection) (tail control : Nat) : Except SendError Nat := do
  refuseIf (conn.sendLen < conn.sendOffset ∨ conn.sendBuf.length < conn.sendLen)
  let stored := conn.tlsDeferredPlain.length
  let charged := conn.tlsDeferredCharge
  refuseIf (charged < stored ∨ stored = 0 ∧ charged ≠ 0)
  let wire ← orTooSmall (checkedAdd (conn.sendLen - conn.sendOffset) conn.sendOverflow.length)
  let subtotal ← orTooSmall (checkedAdd wire tail)
  orTooSmall (checkedAdd subtotal control)

/-- What a preparation remembers of the queue, to be found unchanged by its commit. -/
structure QueueState where
  len : Nat
  offset : Nat
  overflow : Nat
  cap : Nat
  armed : Bool
  tail : Nat
  deferred : Nat
  control : Nat
  deriving DecidableEq

def QueueState.capture (conn : Connection) : QueueState :=
  ⟨conn.sendLen, conn.sendOffset, conn.sendOverflow.length, conn.sendqCap, conn.sendArmed,
    conn.tlsDeferredPlain.length, conn.tlsDeferredCharge, conn.tlsControlCharge⟩

inductive Mode where
  | inlineTail
  | compact
  | overflow
  deriving DecidableEq

structure PreparedAppend where
  len : Nat
  old : QueueState
  mode : Mode
  deriving DecidableEq

def appendMode (conn : Connection) (bytesLen : Nat) : Mode :=
  if conn.sendOverflow.length = 0 ∧ bytesLen ≤ conn.sendBuf.length - conn.sendLen then .inlineTail
  else if conn.sendOverflow.length = 0 ∧ conn.sendArmed = false ∧ conn.sendOffset ≠ 0 ∧
      bytesLen ≤ conn.sendBuf.length - (conn.sendLen - conn.sendOffset) then .compact
  else .overflow

def ensureUnusedOverflow (conn : Connection) (additional : Nat) (growth : Growth) :
    Except SendError Connection := do
  let needed ← orTooSmall (checkedAdd conn.sendOverflow.length additional)
  let capacity ← orTooSmall (ensureCapacity conn.overflowCapacity needed growth)
  return { conn with overflowCapacity := capacity }

def prepareWire (conn : Connection) (bytesLen retainedDeferred retainedControl : Nat)
    (growth : Growth) :
    Except SendError (PreparedAppend × Connection) := do
  let queued ← checkedTotal conn retainedDeferred retainedControl
  refuseIf (conn.sendqCap < queued ∨ conn.sendqCap - queued < bytesLen)
  let mode := appendMode conn bytesLen
  let prepared := ⟨bytesLen, QueueState.capture conn, mode⟩
  if mode = .overflow then
    return (prepared, ← ensureUnusedOverflow conn bytesLen growth)
  else
    return (prepared, conn)

def prepareAppend (conn : Connection) (bytesLen : Nat) (growth : Growth) :
    Except SendError (PreparedAppend × Connection) :=
  prepareWire conn bytesLen conn.tlsDeferredCharge conn.tlsControlCharge growth

/-- The three ways of publishing bytes. The compaction moves the unsent window to the front
of the buffer first. -/
def publish (conn : Connection) (mode : Mode) (bytes : Bytes) : Connection :=
  match mode with
  | .compact =>
    let tail := conn.sendLen - conn.sendOffset
    { conn with
      sendBuf := splice (splice conn.sendBuf 0 conn.window) tail bytes
      sendLen := tail + bytes.length
      sendOffset := 0 }
  | .inlineTail =>
    { conn with
      sendBuf := splice conn.sendBuf conn.sendLen bytes
      sendLen := conn.sendLen + bytes.length }
  | .overflow => { conn with sendOverflow := conn.sendOverflow ++ bytes }

/-- The assertions of the commit stand for a contract with the caller: `none` is a caller
that broke it. -/
def PreparedAppend.commit (prepared : PreparedAppend) (conn : Connection) (bytes : Bytes) :
    Option Connection :=
  if bytes.length = prepared.len ∧ prepared.old = QueueState.capture conn then
    some (publish conn prepared.mode bytes)
  else none

structure PreparedControlReservation where
  old : QueueState
  charge : Nat
  deriving DecidableEq

def prepareControlReservation (conn : Connection) (bytes : Nat) :
    Except SendError PreparedControlReservation := do
  refuseIf (bytes = 0 ∨ conn.tlsControlCharge ≠ 0 ∧ conn.tlsControlCharge ≠ bytes)
  let total ← checkedTotal conn conn.tlsDeferredCharge bytes
  refuseIf (conn.sendqCap < total)
  return ⟨QueueState.capture conn, bytes⟩

def PreparedControlReservation.commit (prepared : PreparedControlReservation) (conn : Connection) :
    Option Connection :=
  if prepared.old = QueueState.capture conn then
    some { conn with tlsControlCharge := prepared.charge } else none

def consumeControlCharge (conn : Connection) (accepted : Nat) : Option Connection :=
  if accepted ≤ conn.tlsControlCharge then
    some { conn with tlsControlCharge := conn.tlsControlCharge - accepted }
  else none

def cancelControlReservation (conn : Connection) : Connection := { conn with tlsControlCharge := 0 }

def prepareReservedControlAppend (conn : Connection) (bytesLen : Nat) (growth : Growth) :
    Except SendError (PreparedAppend × Connection) := do
  refuseIf (bytesLen = 0 ∨ conn.tlsControlCharge < bytesLen)
  prepareWire conn bytesLen conn.tlsDeferredCharge 0 growth

/-- `PreparedReservedControlAppend.commit`. -/
def commitReservedControl (prepared : PreparedAppend) (conn : Connection) (bytes : Bytes) :
    Option Connection :=
  (prepared.commit conn bytes).map fun conn => { conn with tlsControlCharge := 0 }

/-! ## The deferred tail -/

def maxU32 : Nat := 2 ^ 32 - 1

/-- `@sizeOf([]const u8)`. -/
def sliceSize : Nat := 16

/-- A slice of the caller. `borrowed` tells whether its range meets the range that the
deferred tail owns. -/
structure Slice where
  bytes : Bytes
  borrowed : Bool
  deriving DecidableEq

/-- An array of slices, with the same mark for the array itself. -/
structure Slices where
  items : List Slice
  borrowed : Bool
  deriving DecidableEq

def aliasesDeferredAllocation (conn : Connection) (borrowed : Bool) (len : Nat) : Bool :=
  decide (len ≠ 0 ∧ conn.deferredCapacity ≠ 0) && borrowed

/-- The chunks that count: the loops skip the empty ones. -/
def countedChunks (items : List Slice) : List Bytes :=
  (items.map Slice.bytes).filter fun bytes => decide (bytes.length ≠ 0)

def Slices.shape (chunks : Slices) : List Bytes := countedChunks chunks.items

structure PreparedDeferred where
  old : QueueState
  serialized : Nat
  charge : Nat
  lengths : List Nat
  deriving DecidableEq

/-- The loop over the chunks: how many count, and how long they are with their prefixes. -/
def measure (conn : Connection) : List Slice → Nat → Nat → Except SendError (Nat × Nat)
  | [], count, serialized => .ok (count, serialized)
  | chunk :: rest, count, serialized =>
    if chunk.bytes.length = 0 then measure conn rest count serialized
    else do
      refuseIf (aliasesDeferredAllocation conn chunk.borrowed chunk.bytes.length = true)
      refuseIf (maxU32 < chunk.bytes.length)
      let count ← orTooSmall (checkedAdd count 1)
      let serialized ← orTooSmall (checkedAdd serialized 4)
      let serialized ← orTooSmall (checkedAdd serialized chunk.bytes.length)
      measure conn rest count serialized

/-- `granted` answers the allocation of the lengths, `growth` the growth of the tail, which
takes no more than it asks for. -/
def prepareDeferredAppend (conn : Connection) (chunks : Slices) (wireCharge : Nat)
    (granted growth : Bool) :
    Except SendError (PreparedDeferred × Connection) := do
  let descriptorBytes ← orTooSmall (checkedMul chunks.items.length sliceSize)
  refuseIf (aliasesDeferredAllocation conn chunks.borrowed descriptorBytes = true)
  let (count, serialized) ← measure conn chunks.items 0 0
  refuseIf (maxU32 < count ∨ maxU32 < serialized ∨ wireCharge < serialized ∨ count = 0 ∧
    wireCharge ≠ 0)
  refuseIf (count ≠ 0 ∧ conn.tlsControlCharge = 0 ∧ conn.tlsDeferredPlain.length = 0)
  let total ← checkedTotal conn conn.tlsDeferredCharge conn.tlsControlCharge
  refuseIf (conn.sendqCap < total ∨ conn.sendqCap - total < wireCharge)
  let finalLen ← orTooSmall (checkedAdd conn.tlsDeferredPlain.length serialized)
  refuseIf (maxU32 < finalLen)
  let shapeBytes ← orTooSmall (checkedMul count 4)
  refuseIf (serialized < shapeBytes)
  refuseIf (count ≠ 0 ∧ granted = false)
  let lengths := chunks.shape.map List.length
  let capacity ← orTooSmall
    (ensureCapacity conn.deferredCapacity finalLen (if growth then some 0 else none))
  return (⟨QueueState.capture conn, serialized, wireCharge, lengths⟩,
    { conn with deferredCapacity := capacity })

/-- One chunk behind its length. -/
def chunkBytes (chunk : Bytes) : Bytes := leBytes 4 chunk.length ++ chunk

def PreparedDeferred.commit (prepared : PreparedDeferred) (conn : Connection) (chunks : Slices) :
    Option Connection :=
  if prepared.old = QueueState.capture conn ∧
      aliasesDeferredAllocation conn chunks.borrowed (chunks.items.length * sliceSize) = false ∧
      (∀ chunk ∈ chunks.items, aliasesDeferredAllocation conn chunk.borrowed chunk.bytes.length =
        false) ∧
      chunks.shape.map List.length = prepared.lengths then
    some { conn with
      tlsDeferredPlain := conn.tlsDeferredPlain ++ chunks.shape.flatMap chunkBytes
      tlsDeferredCharge := conn.tlsDeferredCharge + prepared.charge }
  else none

def prepareDeferredReplacement (conn : Connection) (ciphertextLen : Nat) (growth : Growth) :
    Except SendError (PreparedAppend × Connection) := do
  refuseIf (conn.tlsDeferredCharge < ciphertextLen ∨ ciphertextLen = 0 ∧
    conn.tlsDeferredPlain.length ≠ 0)
  prepareWire conn ciphertextLen 0 conn.tlsControlCharge growth

/-- `PreparedDeferredReplacement.commit`. -/
def commitReplacement (prepared : PreparedAppend) (conn : Connection) (bytes : Bytes) :
    Option Connection :=
  (prepared.commit conn bytes).map fun conn =>
    { conn with tlsDeferredPlain := [], tlsDeferredCharge := 0 }

inductive InvalidDeferred where
  | invalidDeferred
  deriving DecidableEq

structure DeferredIterator where
  bytes : Bytes
  pos : Nat
  deriving DecidableEq

/-- The chunk at the position and the iterator behind it. -/
def DeferredIterator.next (iterator : DeferredIterator) :
    Except InvalidDeferred (Option (Bytes × DeferredIterator)) :=
  let size := iterator.bytes.length
  if size < iterator.pos then .error .invalidDeferred
  else if iterator.pos = size then .ok none
  else if size - iterator.pos < 4 then .error .invalidDeferred
  else
    let len := leNat (slice iterator.bytes iterator.pos (iterator.pos + 4))
    if len = 0 ∨ size - iterator.pos - 4 < len then .error .invalidDeferred
    else
      let start := iterator.pos + 4
      .ok (some (slice iterator.bytes start (start + len), { iterator with pos := start + len }))

/-- Call `next` until it returns null, at most `rounds` times. -/
def DeferredIterator.collect : Nat → DeferredIterator → Except InvalidDeferred (List Bytes)
  | 0, _ => .error .invalidDeferred
  | rounds + 1, iterator =>
    match iterator.next with
    | .error e => .error e
    | .ok none => .ok []
    | .ok (some (chunk, later)) => (chunk :: ·) <$> collect rounds later

/-- `clearAndFree` gives the storage of the overflow back once it is drained. -/
def refill (conn : Connection) : Connection :=
  if conn.sendOverflow.length = 0 then conn
  else
    let n := min conn.sendBuf.length conn.sendOverflow.length
    { conn with
      sendBuf := splice conn.sendBuf 0 (conn.sendOverflow.take n)
      sendLen := n
      sendOffset := 0
      sendOverflow := conn.sendOverflow.drop n
      overflowCapacity := if n = conn.sendOverflow.length then 0 else conn.overflowCapacity }

end OnyxServer.SendQ
