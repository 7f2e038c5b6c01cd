import OnyxServer.Lib.Wire

/-!
# WebSocket frames

`websocket.zig`: the header of a frame holds its flags, its opcode and the length of its
payload in one, three or nine octets; a client masks what it sends with a key of four octets.
-/
namespace OnyxServer.WebSocket

open Lib

inductive FrameError where
  | truncated
  | reservedBitsSet
  | invalidOpcode
  | fragmentedControlFrame
  | controlFrameTooLarge
  | nonCanonicalLength
  | payloadTooLarge
  | unmaskedClientFrame
  | maskedServerFrame
  | outputTooSmall
  deriving DecidableEq

inductive BuildError where
  | fragmentedControlFrame
  | controlFrameTooLarge
  | payloadTooLarge
  | outputTooSmall
  deriving DecidableEq

inductive Direction where
  | clientToServer
  | serverToClient
  deriving DecidableEq

inductive Opcode where
  | continuation
  | text
  | binary
  | close
  | ping
  | pong
  deriving DecidableEq

def Opcode.value : Opcode → UInt8
  | .continuation => 0x0
  | .text => 0x1
  | .binary => 0x2
  | .close => 0x8
  | .ping => 0x9
  | .pong => 0xa

def Opcode.isControl (opcode : Opcode) : Bool := decide (0x8 ≤ opcode.value)

def opcodeFromRaw (raw : UInt8) : Except FrameError Opcode :=
  match raw.toNat with
  | 0x0 => .ok .continuation
  | 0x1 => .ok .text
  | 0x2 => .ok .binary
  | 0x8 => .ok .close
  | 0x9 => .ok .ping
  | 0xa => .ok .pong
  | _ => .error .invalidOpcode

structure Frame where
  fin : Bool
  opcode : Opcode
  masked : Bool
  payload : Bytes
  deriving DecidableEq

structure DecodeResult where
  frame : Frame
  consumed : Nat
  deriving DecidableEq

abbrev MaskKey := FixedBytes 4

structure BuildOptions where
  fin : Bool
  opcode : Opcode
  maskKey : Option MaskKey
  deriving DecidableEq

/-- The loop of `xorMask` from index `i` on. -/
def xorMask (key : MaskKey) : Nat → Bytes → Bytes
  | _, [] => []
  | i, byte :: rest => (byte ^^^ key.val.getD (i % 4) 0) :: xorMask key (i + 1) rest

def checkControl (opcode : Opcode) (fin : Bool) (lenTag : UInt8) : Except FrameError Unit :=
  if opcode.isControl then
    if fin = false then .error .fragmentedControlFrame
    else if 125 < lenTag then .error .controlFrameTooLarge
    else .ok ()
  else .ok ()

def checkDirection : Direction → Bool → Except FrameError Unit
  | .clientToServer, masked => failIf (!masked) .unmaskedClientFrame
  | .serverToClient, masked => failIf masked .maskedServerFrame

/-- The payload length and the position behind it. -/
def readLength (input : Bytes) (lenTag : UInt8) : Except FrameError (Nat × Nat) :=
  if lenTag = 126 then do
    let field ← readAt .truncated input 2 2
    let payloadLen := beNat field
    failIf (payloadLen < 126) .nonCanonicalLength
    return (payloadLen, 4)
  else if lenTag = 127 then do
    let field ← readAt .truncated input 2 8
    let payloadLen := beNat field
    failIf (2 ^ 63 ≤ payloadLen) .payloadTooLarge
    failIf (payloadLen ≤ 0xffff) .nonCanonicalLength
    return (payloadLen, 10)
  else .ok (lenTag.toNat, 2)

/-- The mask key, if there is one, and the position behind it. -/
def readMaskKey (input : Bytes) (masked : Bool) (cursor : Nat) :
    Except FrameError (Option MaskKey × Nat) :=
  if masked then do
    let field ← readAt .truncated input cursor 4
    return (some (FixedBytes.ofSlice 4 field), cursor + 4)
  else .ok (none, cursor)

/-- The payload in the clear. Only a masked one needs room to be unmasked into. -/
def unmask (maskKey : Option MaskKey) (payloadOut : Nat) (wirePayload : Bytes) :
    Except FrameError Bytes :=
  match maskKey with
  | some key =>
    if payloadOut < wirePayload.length then .error .outputTooSmall
      else .ok (xorMask key 0 wirePayload)
  | none => .ok wirePayload

/-- `payloadOut` is the room in the caller's buffer. -/
def decodeFrame (maxFrameSize : Nat) (direction : Direction) (input : Bytes) (payloadOut : Nat) :
    Except FrameError DecodeResult := do
  let head ← readAt .truncated input 0 2
  let first := head.getD 0 0
  let second := head.getD 1 0
  failIf (first &&& 0x70 ≠ 0) .reservedBitsSet
  let fin := decide (first &&& 0x80 ≠ 0)
  let opcode ← opcodeFromRaw (first &&& 0x0f)
  let masked := decide (second &&& 0x80 ≠ 0)
  let lenTag := second &&& 0x7f
  checkControl opcode fin lenTag
  checkDirection direction masked
  let (payloadLen, cursor) ← readLength input lenTag
  failIf (maxFrameSize < payloadLen) .payloadTooLarge
  failIf (usizeLimit - 1 < payloadLen) .payloadTooLarge
  let (maskKey, cursor) ← readMaskKey input masked cursor
  let wirePayload ← readAt .truncated input cursor payloadLen
  let payload ← unmask maskKey payloadOut wirePayload
  return ⟨⟨fin, opcode, masked, payload⟩, cursor + payloadLen⟩

/-- A slice of memory: no object takes half of the address space. -/
abbrev Slice := { bytes : Bytes // bytes.length < 2 ^ 63 }

def lengthField (payloadLen : Nat) (maskBit : UInt8) : Bytes :=
  if payloadLen ≤ 125 then [maskBit ||| UInt8.ofNat payloadLen]
  else if payloadLen ≤ 0xffff then (maskBit ||| 126) :: beBytes 2 payloadLen
  else (maskBit ||| 127) :: beBytes 8 payloadLen

/-- `outLen` is the room in the caller's buffer. -/
def encodeFrame (maxFrameSize : Nat) (options : BuildOptions) (payload : Slice) (outLen : Nat) :
    Except BuildError Bytes := do
  let payloadLen := payload.val.length
  failIf (maxFrameSize < payloadLen) .payloadTooLarge
  failIf (options.opcode.isControl && !options.fin) .fragmentedControlFrame
  failIf (options.opcode.isControl && decide (125 < payloadLen)) .controlFrameTooLarge
  let masked := options.maskKey.isSome
  let headerLen := 2 + (if payloadLen ≤ 125 then 0 else if payloadLen ≤ 0xffff then 2 else 8) +
    (if masked then 4 else 0)
  failIf (outLen < headerLen + payloadLen) .outputTooSmall
  let first := (if options.fin then 0x80 else 0) ||| options.opcode.value
  let maskBit := if masked then 0x80 else 0
  return first :: (lengthField payloadLen maskBit ++
    match options.maskKey with
    | some key => key.val ++ xorMask key 0 payload.val
    | none => payload.val)

end OnyxServer.WebSocket
