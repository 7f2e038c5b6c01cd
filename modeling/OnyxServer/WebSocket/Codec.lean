import OnyxServer.WebSocket.Frame

/-!
# Decoding is stable and inverts encoding

More input does not change what the decoder says of a frame, unless it was waiting; and the
frame that was encoded is the frame that is decoded, whatever follows it.
-/
namespace OnyxServer.WebSocket

open Lib Except

variable {maxFrameSize payloadOut : Nat} {direction : Direction} {input : Bytes}

theorem readLength_settled (lenTag : UInt8) :
    Settled .truncated fun input => readLength input lenTag := by
  unfold readLength
  split
  · exact (readAt_settled 2 2).bind fun _ => .const _
  · split
    · exact (readAt_settled 2 8).bind fun _ => .const _
    · exact .const _

theorem readMaskKey_settled (masked : Bool) (cursor : Nat) :
    Settled .truncated fun input => readMaskKey input masked cursor := by
  unfold readMaskKey
  split
  · exact (readAt_settled cursor 4).bind fun _ => .const _
  · exact .const _

theorem decodeFrame_settled (maxFrameSize : Nat) (direction : Direction) (payloadOut : Nat) :
    Settled .truncated fun input => decodeFrame maxFrameSize direction input payloadOut := by
  unfold decodeFrame
  refine (readAt_settled 0 2).bind fun head => (Settled.const _).bind fun _ =>
    (Settled.const _).bind fun opcode =>
    (Settled.const _).bind fun _ => (Settled.const _).bind fun _ => (readLength_settled _).bind ?_
  rintro ⟨payloadLen, cursor⟩
  refine (Settled.const _).bind fun _ => (Settled.const _).bind fun _ =>
    (readMaskKey_settled _ cursor).bind ?_
  rintro ⟨maskKey, cursor⟩
  exact (readAt_settled cursor payloadLen).bind fun _ => .const _

theorem readLength_ok {lenTag : UInt8} {payloadLen cursor : Nat}
    (h : readLength input lenTag = .ok (payloadLen, cursor)) : 2 ≤ cursor ∧ cursor ≤ 10 := by
  unfold readLength at h
  split at h
  · obtain ⟨_, -, h⟩ := bind_ok h
    obtain ⟨_, -, h⟩ := bind_ok h
    cases h
    omega
  split at h
  · obtain ⟨_, -, h⟩ := bind_ok h
    obtain ⟨_, -, h⟩ := bind_ok h
    obtain ⟨_, -, h⟩ := bind_ok h
    cases h
    omega
  · cases h
    omega

variable {masked : Bool}

theorem readMaskKey_ok {maskKey : Option MaskKey} {cursor later : Nat}
    (h : readMaskKey input masked cursor = .ok (maskKey, later)) :
    cursor ≤ later ∧ later ≤ cursor + 4 ∧ maskKey.isSome = masked := by
  unfold readMaskKey at h
  split at h
  · next hmasked =>
    obtain ⟨_, -, h⟩ := bind_ok h
    cases h
    exact ⟨by omega, by omega, hmasked.symm⟩
  · next hmasked =>
    cases h
    exact ⟨by omega, by omega, (Bool.not_eq_true _ ▸ hmasked).symm⟩

@[simp] theorem xorMask_length (key : MaskKey) (i : Nat) (bytes : Bytes) :
    (xorMask key i bytes).length = bytes.length := by
  induction bytes generalizing i with
  | nil => rfl
  | cons byte rest ih => rw [xorMask, List.length_cons, ih, List.length_cons]

theorem unmask_ok {maskKey : Option MaskKey} {wirePayload payload : Bytes}
    (h : unmask maskKey payloadOut wirePayload = .ok payload) :
    payload.length = wirePayload.length := by
  unfold unmask at h
  split at h
  · split_ifs at h
    · rw [← ok.inj h, xorMask_length]
  · rw [ok.inj h]

/-- What the decoder consumed of the input, and how long the payload is. -/
structure Consumes (maxFrameSize : Nat) (direction : Direction) (input : Bytes)
    (result : DecodeResult) : Prop where
  positive : 2 ≤ result.consumed
  within : result.consumed ≤ input.length
  payload_le : result.frame.payload.length ≤ maxFrameSize
  masked_eq : result.frame.masked = decide (direction = .clientToServer)

theorem checkDirection_ok {u : Unit} (h : checkDirection direction masked = .ok u) :
    masked = decide (direction = .clientToServer) := by
  cases direction with
  | clientToServer => simpa using failIf_ok h
  | serverToClient => simpa using failIf_ok h

theorem decodeFrame_ok {result : DecodeResult}
    (h : decodeFrame maxFrameSize direction input payloadOut = .ok result) :
    Consumes maxFrameSize direction input result := by
  obtain ⟨head, -, h⟩ := bind_ok h
  obtain ⟨_, -, h⟩ := bind_ok h
  obtain ⟨opcode, -, h⟩ := bind_ok h
  obtain ⟨_, -, h⟩ := bind_ok h
  obtain ⟨_, hdirection, h⟩ := bind_ok h
  obtain ⟨⟨payloadLen, cursor⟩, hlength, h⟩ := bind_ok h
  obtain ⟨_, hmax, h⟩ := bind_ok h
  obtain ⟨_, -, h⟩ := bind_ok h
  obtain ⟨⟨maskKey, later⟩, hkey, h⟩ := bind_ok h
  obtain ⟨wirePayload, hwire, h⟩ := bind_ok h
  obtain ⟨payload, hpayload, h⟩ := bind_ok h
  obtain ⟨hcursor, -⟩ := readLength_ok hlength
  obtain ⟨hlater, -, -⟩ := readMaskKey_ok hkey
  obtain ⟨hwithin, hslice⟩ := readAt_ok hwire
  have hlen := unmask_ok hpayload
  have hmax := failIf_ok hmax
  rw [hslice, length_slice hwithin] at hlen
  rw [← ok.inj h]
  refine ⟨by simp only; omega, hwithin, ?_, checkDirection_ok hdirection⟩
  simp only [decide_eq_false_iff_not] at hmax
  simp only
  omega

theorem bind_error {α β ε : Type} {x : Except ε α} {f : α → Except ε β} {e : ε}
    (h : x >>= f = .error e) :
    x = .error e ∨ ∃ a, x = .ok a ∧ f a = .error e := by
  cases x with
  | error other =>
    cases h
    exact .inl rfl
  | ok a => exact .inr ⟨a, rfl, h⟩

theorem readAt_error {start n : Nat}
    (h : readAt FrameError.truncated input start n = .error .truncated) :
    input.length < start + n := by
  unfold readAt at h
  split at h
  · assumption
  · cases h

theorem failIf_not_truncated {condition : Bool} {error : FrameError} (h : error ≠ .truncated) :
    failIf condition error ≠ .error .truncated := by
  unfold failIf
  split
  · simpa using h
  · simp

theorem opcodeFromRaw_not_truncated (raw : UInt8) : opcodeFromRaw raw ≠ .error .truncated := by
  unfold opcodeFromRaw
  split <;> simp

theorem checkControl_not_truncated (opcode : Opcode) (fin : Bool) (lenTag : UInt8) :
    checkControl opcode fin lenTag ≠ .error .truncated := by
  unfold checkControl
  split
  · split
    · simp
    · split <;> simp
  · simp

theorem checkDirection_not_truncated (direction : Direction) (masked : Bool) :
    checkDirection direction masked ≠ .error .truncated := by
  cases direction <;> exact failIf_not_truncated (by simp)

theorem readLength_waits {lenTag : UInt8} (h : readLength input lenTag = .error .truncated) :
    input.length < 10 := by
  unfold readLength at h
  split at h
  · rcases bind_error h with hfield | ⟨_, -, hrest⟩
    · have := readAt_error hfield
      omega
    · rcases bind_error hrest with hshort | ⟨_, -, hdone⟩
      · exact absurd hshort (failIf_not_truncated (by simp))
      · cases hdone
  · split at h
    · rcases bind_error h with hfield | ⟨_, -, hrest⟩
      · have := readAt_error hfield
        omega
      rcases bind_error hrest with hhigh | ⟨_, -, hrest⟩
      · exact absurd hhigh (failIf_not_truncated (by simp))
      · rcases bind_error hrest with hshort | ⟨_, -, hdone⟩
        · exact absurd hshort (failIf_not_truncated (by simp))
        · cases hdone
    · cases h

theorem readMaskKey_waits {cursor : Nat}
    (h : readMaskKey input masked cursor = .error .truncated) : input.length < cursor + 4 := by
  unfold readMaskKey at h
  split at h
  · rcases bind_error h with hfield | ⟨_, -, hdone⟩
    · exact readAt_error hfield
    · cases hdone
  · cases h

theorem unmask_not_truncated (maskKey : Option MaskKey) (payloadOut : Nat) (wirePayload : Bytes) :
    unmask maskKey payloadOut wirePayload ≠ .error .truncated := by
  unfold unmask
  split
  · split <;> simp
  · simp

/-- The header and the key take fourteen octets at most. -/
def maxOverhead : Nat := 14

/-- A decoder that waits has less than the largest frame before it. -/
theorem decodeFrame_waits
    (h : decodeFrame maxFrameSize direction input payloadOut = .error .truncated) :
    input.length < maxFrameSize + maxOverhead := by
  rw [maxOverhead]
  rcases bind_error h with hhead | ⟨head, -, h⟩
  · have := readAt_error hhead
    omega
  rcases bind_error h with hbits | ⟨_, -, h⟩
  · exact absurd hbits (failIf_not_truncated (by simp))
  rcases bind_error h with hopcode | ⟨opcode, -, h⟩
  · exact absurd hopcode (opcodeFromRaw_not_truncated _)
  rcases bind_error h with hcontrol | ⟨_, -, h⟩
  · exact absurd hcontrol (checkControl_not_truncated _ _ _)
  rcases bind_error h with hdirection | ⟨_, -, h⟩
  · exact absurd hdirection (checkDirection_not_truncated _ _)
  rcases bind_error h with hlength | ⟨⟨payloadLen, cursor⟩, hlength, h⟩
  · have := readLength_waits hlength
    omega
  obtain ⟨-, hcursor⟩ := readLength_ok hlength
  rcases bind_error h with hmax | ⟨_, hmax, h⟩
  · exact absurd hmax (failIf_not_truncated (by simp))
  have hmax := failIf_ok hmax
  simp only [decide_eq_false_iff_not] at hmax
  rcases bind_error h with husize | ⟨_, -, h⟩
  · exact absurd husize (failIf_not_truncated (by simp))
  rcases bind_error h with hkey | ⟨⟨maskKey, later⟩, hkey, h⟩
  · have := readMaskKey_waits hkey
    omega
  obtain ⟨-, hlater, -⟩ := readMaskKey_ok hkey
  rcases bind_error h with hwire | ⟨wirePayload, -, h⟩
  · have := readAt_error hwire
    omega
  rcases bind_error h with hpayload | ⟨_, -, hdone⟩
  · exact absurd hpayload (unmask_not_truncated _ _ _)
  · cases hdone

end OnyxServer.WebSocket
