import OnyxServer.WebSocket.RoundTrip

/-!
# The deframer

`feed` buffers what arrives from a client and `next` pops one frame at a time. When the
buffer fills up, `feed` takes a frame off its front itself and parks its event or its error
for `next`.
-/
namespace OnyxServer.WebSocket

open Lib

inductive DeframeError where
  | frame (error : FrameError)
  | unexpectedContinuation
  | nestedFragmentation
  | bufferFull
  deriving DecidableEq

inductive DeframeEvent where
  | data (payload : Bytes) (fin binary continuation : Bool)
  | ping (payload : Bytes)
  | pong
  | close (payload : Bytes)
  deriving DecidableEq

/-- A parked event. Its payload stays in the payload buffer. -/
inductive PendingEvent where
  | data (len : Nat) (fin continuation : Bool)
  | ping (len : Nat)
  | pong
  | close (len : Nat)
  deriving DecidableEq

/-- `buf` is the filled part of the reassembly buffer. -/
structure Deframer where
  maxFrame : Nat
  buf : Bytes
  payloadBuf : Bytes
  pending : Option PendingEvent
  pendingError : Option DeframeError
  fragmented : Bool
  msgBinary : Bool
  deriving DecidableEq

namespace Deframer

/-- A new deframer. The payload buffer holds anything. -/
def init (maxFrame : Nat) (payloadBuf : FixedBytes maxFrame) : Deframer :=
  ⟨maxFrame, [], payloadBuf.val, none, none, false, false⟩

/-- The size of the reassembly buffer. -/
def capacity (deframer : Deframer) : Nat := deframer.maxFrame + maxOverhead

def decode (deframer : Deframer) : Except FrameError DecodeResult :=
  decodeFrame deframer.maxFrame .clientToServer deframer.buf deframer.payloadBuf.length

/-- The payload of a decoded frame is unmasked into the payload buffer. -/
def unmasked (deframer : Deframer) (frame : Frame) : Deframer :=
  { deframer with payloadBuf := splice deframer.payloadBuf 0 frame.payload }

def consume (deframer : Deframer) (count : Nat) : Deframer :=
  { deframer with buf := deframer.buf.drop count }

def queuePending (deframer : Deframer) (frame : Frame) : Except DeframeError Deframer :=
  match frame.opcode with
  | .text | .binary =>
    if deframer.fragmented then .error .nestedFragmentation
    else .ok { deframer with
      fragmented := !frame.fin
      msgBinary := decide (frame.opcode = .binary)
      pending := some (.data frame.payload.length frame.fin false) }
  | .continuation =>
    if deframer.fragmented = false then .error .unexpectedContinuation
    else .ok { deframer with
      fragmented := if frame.fin then false else deframer.fragmented
      pending := some (.data frame.payload.length frame.fin true) }
  | .ping => .ok { deframer with pending := some (.ping frame.payload.length) }
  | .pong => .ok { deframer with pending := some .pong }
  | .close => .ok { deframer with pending := some (.close frame.payload.length) }

def eventFromFrame (deframer : Deframer) (frame : Frame) :
    Except DeframeError DeframeEvent × Deframer :=
  match frame.opcode with
  | .text | .binary =>
    if deframer.fragmented then (.error .nestedFragmentation, deframer)
    else
      let opened := { deframer with
        fragmented := !frame.fin
        msgBinary := decide (frame.opcode = .binary) }
      (.ok (.data frame.payload frame.fin opened.msgBinary false), opened)
  | .continuation =>
    if deframer.fragmented = false then (.error .unexpectedContinuation, deframer)
    else
      (.ok (.data frame.payload frame.fin deframer.msgBinary true),
        { deframer with fragmented := if frame.fin then false else deframer.fragmented })
  | .ping => (.ok (.ping frame.payload), deframer)
  | .pong => (.ok .pong, deframer)
  | .close => (.ok (.close frame.payload), deframer)

def eventFromPending (deframer : Deframer) : PendingEvent → DeframeEvent
  | .data len fin continuation =>
      .data (slice deframer.payloadBuf 0 len) fin deframer.msgBinary continuation
  | .ping len => .ping (slice deframer.payloadBuf 0 len)
  | .pong => .pong
  | .close len => .close (slice deframer.payloadBuf 0 len)

/-- Park an error: what is left of the buffer is dropped. -/
def parkError (deframer : Deframer) (error : DeframeError) : Deframer :=
  { deframer with pendingError := some error, buf := [] }

def drainBufferedFrame (deframer : Deframer) : Bool × Deframer :=
  if deframer.pending ≠ none ∨ deframer.pendingError ≠ none then (false, deframer)
  else
    match deframer.decode with
    | .error .truncated => (false, deframer)
    | .error e => (true, deframer.parkError (.frame e))
    | .ok result =>
      match (deframer.unmasked result.frame).queuePending result.frame with
      | .error e => (true, (deframer.unmasked result.frame).parkError e)
      | .ok parked => (true, parked.consume result.consumed)

/-- The loop of `feed`, for at most as many rounds as given. -/
def feedLoop : Nat → Deframer → Bytes → Except DeframeError Unit × Deframer
  | 0, deframer, _ => (.error .bufferFull, deframer)
  | rounds + 1, deframer, rest =>
    if rest.length = 0 then (.ok (), deframer)
    else
      let spare := deframer.capacity - deframer.buf.length
      if rest.length ≤ spare then (.ok (), { deframer with buf := deframer.buf ++ rest })
      else
        let full := { deframer with buf := deframer.buf ++ rest.take spare }
        match full.drainBufferedFrame with
        | (false, drained) => (.error .bufferFull, drained)
        | (true, drained) =>
          if drained.pendingError ≠ none then (.ok (), drained)
          else feedLoop rounds drained (rest.drop spare)

/-- A second round parks nothing any more, so two are all there are. -/
def feed (deframer : Deframer) (bytes : Bytes) : Except DeframeError Unit × Deframer :=
  feedLoop 2 deframer bytes

def next (deframer : Deframer) : Except DeframeError (Option DeframeEvent) × Deframer :=
  match deframer.pendingError with
  | some e => (.error e, { deframer with pendingError := none })
  | none =>
    match deframer.pending with
    | some pending =>
      (.ok (some (deframer.eventFromPending pending)), { deframer with pending := none })
    | none =>
      if deframer.buf.length = 0 then (.ok none, deframer)
      else
        match deframer.decode with
        | .error .truncated => (.ok none, deframer)
        | .error e => (.error (.frame e), deframer)
        | .ok result =>
          match ((deframer.unmasked result.frame).consume result.consumed).eventFromFrame
            result.frame with
          | (.error e, after) => (.error e, after)
          | (.ok event, after) => (.ok (some event), after)

end Deframer

/-- Call `next` until it returns null or an error. -/
inductive Pops : Deframer → List DeframeEvent → Option DeframeError → Deframer → Prop
  | null {deframer after : Deframer} (h : deframer.next = (.ok none, after)) : Pops deframer
      [] none after
  | error {deframer after : Deframer} {e : DeframeError} (h : deframer.next = (.error e, after)) :
      Pops deframer [] (some e) after
  | event {deframer after last : Deframer} {event : DeframeEvent} {events : List DeframeEvent}
      {error : Option DeframeError} (h : deframer.next = (.ok (some event), after))
      (hrest : Pops after events error last) : Pops deframer (event :: events) error last

/-- Feed every chunk and pop what it completes. The first error ends the stream. -/
inductive Served : Deframer → List Bytes → List DeframeEvent → Option DeframeError → Prop
  | done (deframer : Deframer) : Served deframer [] [] none
  | failed {deframer fed last : Deframer} {chunk : Bytes} {chunks : List Bytes}
      {events : List DeframeEvent}
      {e : DeframeError} (hfeed : deframer.feed chunk = (.ok (), fed))
        (hpops : Pops fed events (some e) last) :
      Served deframer (chunk :: chunks) events (some e)
  | chunk {deframer fed popped : Deframer} {chunk : Bytes} {chunks : List Bytes}
      {events later : List DeframeEvent} {error : Option DeframeError}
      (hfeed : deframer.feed chunk = (.ok (), fed)) (hpops : Pops fed events none popped)
      (hrest : Served popped chunks later error) : Served deframer (chunk :: chunks)
        (events ++ later) error

/-! ## The stream as a whole -/

/-- The state of a fragmented message: whether one is open, and whether the last one that was
opened is binary. -/
structure Fragmentation where
  fragmented : Bool
  msgBinary : Bool
  deriving DecidableEq

/-- A message is opened by a text or a binary frame while none is open, and continued only
while one is. Control frames may come in between. -/
def Fragmentation.accept (state : Fragmentation) (frame : Frame) :
    Except DeframeError (DeframeEvent × Fragmentation) :=
  let opening (binary : Bool) : Except DeframeError (DeframeEvent × Fragmentation) :=
    if state.fragmented then .error .nestedFragmentation
    else .ok (.data frame.payload frame.fin binary false, ⟨!frame.fin, binary⟩)
  match frame.opcode with
  | .text => opening false
  | .binary => opening true
  | .continuation =>
    if state.fragmented then
      .ok (.data frame.payload frame.fin state.msgBinary true, ⟨!frame.fin, state.msgBinary⟩)
    else .error .unexpectedContinuation
  | .ping => .ok (.ping frame.payload, state)
  | .pong => .ok (.pong, state)
  | .close => .ok (.close frame.payload, state)

/-- `decodeFrame` again and again, at most `rounds` times. -/
def decodeStream (maxFrame : Nat) :
    Nat → Fragmentation → Bytes → List DeframeEvent × Option DeframeError
  | 0, _, _ => ([], none)
  | rounds + 1, state, bytes =>
    match decodeFrame maxFrame .clientToServer bytes maxFrame with
    | .error .truncated => ([], none)
    | .error e => ([], some (.frame e))
    | .ok result =>
      match state.accept result.frame with
      | .error e => ([], some e)
      | .ok (event, state) =>
        let (events, error) := decodeStream maxFrame rounds state (bytes.drop result.consumed)
        (event :: events, error)

/-- The events of a stream and its first error. A frame takes two octets at least, so the
rounds do not run out. -/
def streamOutcome (maxFrame : Nat) (stream : Bytes) : List DeframeEvent × Option DeframeError :=
  decodeStream maxFrame stream.length ⟨false, false⟩ stream

end OnyxServer.WebSocket
