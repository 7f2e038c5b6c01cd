import OnyxServer.WebSocket.ChunkIndependence

/-!
# When `feed` has room

A full buffer holds a whole frame at its front. `feed` takes that one frame off and has one
place to park its event in, so a chunk may bring as much behind a buffer's capacity as the
first frame occupies, and no more.
-/
namespace OnyxServer.WebSocket

open Lib List Except

variable {maxFrame : Nat} {deframer fed popped : Deframer} {state next : Fragmentation}
    {held chunk bytes more rest : Bytes}

/-- A masked frame that a client may send. -/
structure ClientFrame (maxFrame : Nat) where
  fin : Bool
  opcode : Opcode
  key : MaskKey
  payload : Slice
  valid : Encodable maxFrame ⟨fin, opcode, some key⟩ payload.val

namespace ClientFrame

def octets (sent : ClientFrame maxFrame) : Bytes :=
  frameBytes ⟨sent.fin, sent.opcode, some sent.key⟩ sent.payload.val

def frame (sent : ClientFrame maxFrame) : Frame := ⟨sent.fin, sent.opcode, true, sent.payload.val⟩

end ClientFrame

variable {sent : ClientFrame maxFrame} {frames : List (ClientFrame maxFrame)}

/-- The stream that the frames make. -/
def wire (frames : List (ClientFrame maxFrame)) : Bytes := frames.flatMap ClientFrame.octets

/-- The frames that are not complete after so many octets, and what is there of them. -/
def incomplete : List (ClientFrame maxFrame) → Nat → List (ClientFrame maxFrame) × Nat
  | [], received => ([], received)
  | sent :: frames, received =>
    if sent.octets.length ≤ received then incomplete frames (received - sent.octets.length)
    else (sent :: frames, received)

/-- The octets of the frame that comes next. -/
def frontSize (frames : List (ClientFrame maxFrame)) : Nat :=
  (frames.head?.elim 0 fun sent => sent.octets.length)

/-- With what is held of the next frame, no chunk exceeds the capacity by more than that
frame's size. -/
def Roomy : List (ClientFrame maxFrame) → Nat → List Bytes → Prop
  | _, _, [] => True
  | frames, received, chunk :: chunks =>
    received + chunk.length ≤ maxFrame + maxOverhead + frontSize frames ∧
      Roomy (incomplete frames (received + chunk.length)).1
        (incomplete frames (received + chunk.length)).2 chunks

def decideRoomy :
    (frames : List (ClientFrame maxFrame)) → (received : Nat) → (chunks : List Bytes) →
    Decidable (Roomy frames received chunks)
  | _, _, [] => .isTrue trivial
  | frames, received, chunk :: chunks =>
    have := decideRoomy (incomplete frames (received + chunk.length)).1
      (incomplete frames (received + chunk.length)).2 chunks
    inferInstanceAs (Decidable (_ ∧ _))

instance (received : Nat) (chunks : List Bytes) : Decidable (Roomy frames received chunks) :=
  decideRoomy frames received chunks

theorem ClientFrame.decode (sent : ClientFrame maxFrame) (more : Bytes) :
    decodeClient maxFrame (sent.octets ++ more) = .ok ⟨sent.frame, sent.octets.length⟩ :=
  decodeFrame_frameBytes sent.payload.property sent.valid fun _ => sent.valid.size_le

variable {events : List DeframeEvent}

end OnyxServer.WebSocket
