import OnyxServer.WebSocket.Codec

/-!
# A decoded frame is the frame that was encoded
-/
namespace OnyxServer.WebSocket

open Lib List

variable {maxFrameSize payloadOut : Nat} {bytes rest : Bytes}

theorem ok_bind {α β ε : Type} {x : Except ε α} {f : α → Except ε β} {a : α} (h : x = .ok a) :
    x >>= f = f a := by
  rw [h]
  rfl

theorem octet_toNat {n : Nat} (h : n ≤ 125) : (UInt8.ofNat n).toNat = n :=
  UInt8.toNat_ofNat_of_lt' (by simp only [UInt8.size]; omega)

theorem xorMask_xorMask (key : MaskKey) (i : Nat) (bytes : Bytes) :
    xorMask key i (xorMask key i bytes) = bytes := by
  induction bytes generalizing i with
  | nil => rfl
  | cons byte rest ih => rw [xorMask, xorMask, ih, UInt8.xor_assoc, UInt8.xor_self, UInt8.xor_zero]

def firstOctet (fin : Bool) (opcode : Opcode) : UInt8 := (if fin then 0x80 else 0) ||| opcode.value

theorem firstOctet_reserved (fin : Bool) (opcode : Opcode) :
    firstOctet fin opcode &&& 0x70 = 0 := by
  cases fin <;> cases opcode <;> decide

theorem firstOctet_fin (fin : Bool) (opcode : Opcode) :
    decide (firstOctet fin opcode &&& 0x80 ≠ 0) = fin := by
  cases fin <;> cases opcode <;> decide

theorem firstOctet_opcode (fin : Bool) (opcode : Opcode) :
    opcodeFromRaw (firstOctet fin opcode &&& 0x0f) = .ok opcode := by
  cases fin <;> cases opcode <;> decide

/-- The tag that stands for a payload length, and the octets that follow it. -/
def lengthTag (payloadLen : Nat) : UInt8 :=
  if payloadLen ≤ 125 then UInt8.ofNat payloadLen else if payloadLen ≤ 0xffff then 126 else 127

def extendedLength (payloadLen : Nat) : Bytes :=
  if payloadLen ≤ 125 then [] else if payloadLen ≤ 0xffff then beBytes 2 payloadLen
    else beBytes 8 payloadLen

theorem lengthField_eq (payloadLen : Nat) (maskBit : UInt8) :
    lengthField payloadLen maskBit =
      (maskBit ||| lengthTag payloadLen) :: extendedLength payloadLen := by
  unfold lengthField lengthTag extendedLength
  split
  · rfl
  · split <;> rfl

def maskBit (masked : Bool) : UInt8 := if masked then 0x80 else 0

theorem tag_bits (masked : Bool) (n : Fin 128) :
    decide ((maskBit masked ||| UInt8.ofNat n.val) &&& 0x80 ≠ 0) = masked ∧
      (maskBit masked ||| UInt8.ofNat n.val) &&& 0x7f = UInt8.ofNat n.val := by
  revert n
  cases masked <;> decide

theorem lengthTag_lt (payloadLen : Nat) :
    ∃ n : Fin 128, lengthTag payloadLen = UInt8.ofNat n.val := by
  unfold lengthTag
  split
  · exact ⟨⟨payloadLen, by omega⟩, rfl⟩
  · split
    · exact ⟨126, rfl⟩
    · exact ⟨127, rfl⟩

theorem secondOctet_masked (masked : Bool) (payloadLen : Nat) :
    decide ((maskBit masked ||| lengthTag payloadLen) &&& 0x80 ≠ 0) = masked := by
  obtain ⟨n, hn⟩ := lengthTag_lt payloadLen
  rw [hn]
  exact (tag_bits masked n).1

theorem secondOctet_tag (masked : Bool) (payloadLen : Nat) :
    (maskBit masked ||| lengthTag payloadLen) &&& 0x7f = lengthTag payloadLen := by
  obtain ⟨n, hn⟩ := lengthTag_lt payloadLen
  rw [hn]
  exact (tag_bits masked n).2

theorem readLength_extended {payloadLen : Nat} {head : Bytes} (hhead : head.length = 2)
    (hlen : payloadLen < 2 ^ 63) :
    readLength (head ++ (extendedLength payloadLen ++ rest)) (lengthTag payloadLen) =
      .ok (payloadLen, 2 + (extendedLength payloadLen).length) := by
  unfold readLength
  by_cases hsmall : payloadLen ≤ 125
  · have hword : (UInt8.ofNat payloadLen).toNat = payloadLen := octet_toNat (by omega)
    have h126 : UInt8.ofNat payloadLen ≠ 126 := by
      intro h
      rw [h] at hword
      have : (126 : UInt8).toNat = 126 := rfl
      omega
    have h127 : UInt8.ofNat payloadLen ≠ 127 := by
      intro h
      rw [h] at hword
      have : (127 : UInt8).toNat = 127 := rfl
      omega
    simp only [lengthTag, extendedLength, hsmall, ↓reduceIte, h126, h127, hword, length_nil]
  · by_cases hshort : payloadLen ≤ 0xffff
    · have hread : readAt FrameError.truncated (head ++ (beBytes 2 payloadLen ++ rest)) 2 2 =
          .ok (beBytes 2 payloadLen) := readAt_field rfl hhead (beBytes_length 2 payloadLen)
      have hvalue : beNat (beBytes 2 payloadLen) = payloadLen := beNat_beBytes (by omega)
      simp only [lengthTag, extendedLength, hsmall, hshort, ↓reduceIte, beBytes_length]
      refine (ok_bind hread).trans ?_
      simp only [hvalue]
      exact ok_bind (failIf_false (decide_eq_false (by omega)))
    · have hread : readAt FrameError.truncated (head ++ (beBytes 8 payloadLen ++ rest)) 2 8 =
          .ok (beBytes 8 payloadLen) := readAt_field rfl hhead (beBytes_length 8 payloadLen)
      have hvalue : beNat (beBytes 8 payloadLen) = payloadLen := beNat_beBytes (by omega)
      simp only [lengthTag, extendedLength, hsmall, hshort, ↓reduceIte, beBytes_length]
      rw [if_neg (by decide)]
      refine (ok_bind hread).trans ?_
      simp only [hvalue]
      refine (ok_bind (failIf_false (decide_eq_false (by omega)))).trans ?_
      exact ok_bind (failIf_false (decide_eq_false (by omega)))

/-- The body of a frame: the key and the masked payload, or the payload. -/
def frameBody (maskKey : Option MaskKey) (payload : Bytes) : Bytes :=
  match maskKey with
  | some key => key.val ++ xorMask key 0 payload
  | none => payload

theorem readBody {maskKey : Option MaskKey} {payload header : Bytes} {cursor : Nat}
    (hheader : header.length = cursor)
    (hbytes : bytes = header ++ (frameBody maskKey payload ++ rest))
    (hroom : maskKey.isSome = true → payload.length ≤ payloadOut) :
    readMaskKey bytes maskKey.isSome cursor =
        .ok (maskKey, cursor + ((frameBody maskKey payload).length - payload.length)) ∧
      ∃ wirePayload, readAt FrameError.truncated bytes
          (cursor + ((frameBody maskKey payload).length - payload.length)) payload.length =
            .ok wirePayload ∧
        unmask maskKey payloadOut wirePayload = .ok payload := by
  cases maskKey with
  | none =>
    have hnone : cursor + ((frameBody none payload).length - payload.length) =
        cursor := by simp [frameBody]
    rw [hnone]
    exact ⟨rfl, payload, readAt_field hbytes hheader rfl, rfl⟩
  | some key =>
    have hsome : cursor + ((frameBody (some key) payload).length - payload.length) =
        cursor + 4 := by
      simp only [frameBody, length_append, xorMask_length, key.property]
      omega
    have hread : readAt FrameError.truncated bytes cursor 4 = .ok key.val :=
      readAt_field (r := xorMask key 0 payload ++ rest) (by rw [hbytes, frameBody, append_assoc])
        hheader key.property
    rw [hsome]
    refine ⟨?_, xorMask key 0 payload, readAt_field (l := header ++ key.val) (r := rest) ?_ ?_ ?_,
      ?_⟩
    · refine (ok_bind hread).trans ?_
      rw [FixedBytes.ofSlice_val]
      rfl
    · rw [hbytes, frameBody, append_assoc, append_assoc]
    · rw [length_append, hheader, key.property]
    · exact xorMask_length key 0 payload
    · have hlen := hroom rfl
      simp only [unmask, xorMask_length]
      rw [if_neg (by omega), xorMask_xorMask]

/-- The octets of a frame. -/
def frameBytes (options : BuildOptions) (payload : Bytes) : Bytes :=
  firstOctet options.fin options.opcode ::
    (lengthField payload.length (maskBit options.maskKey.isSome) ++
    frameBody options.maskKey payload)

structure Encodable (maxFrameSize : Nat) (options : BuildOptions) (payload : Bytes) : Prop where
  size_le : payload.length ≤ maxFrameSize
  control_fin : options.opcode.isControl = true → options.fin = true
  control_size : options.opcode.isControl = true → payload.length ≤ 125

variable {options : BuildOptions}

theorem encodeFrame_ok {payload : Slice} {outLen : Nat}
    (h : encodeFrame maxFrameSize options payload outLen = .ok bytes) :
    bytes = frameBytes options payload.val ∧ Encodable maxFrameSize options payload.val := by
  obtain ⟨_, hsize, h⟩ := bind_ok h
  obtain ⟨_, hfin, h⟩ := bind_ok h
  obtain ⟨_, hcontrol, h⟩ := bind_ok h
  obtain ⟨_, -, h⟩ := bind_ok h
  refine ⟨(Except.ok.inj h).symm, ?_, ?_, ?_⟩
  · simpa using failIf_ok hsize
  · intro hop
    simpa [hop] using failIf_ok hfin
  · intro hop
    simpa [hop] using failIf_ok hcontrol

/-- The direction in which a frame with these options travels. -/
def BuildOptions.direction (options : BuildOptions) : Direction :=
  if options.maskKey.isSome then .clientToServer else .serverToClient

theorem checkDirection_options (options : BuildOptions) :
    checkDirection options.direction options.maskKey.isSome = .ok () := by
  unfold BuildOptions.direction
  cases options.maskKey <;> rfl

theorem checkControl_encodable {payload : Bytes}
    (h : Encodable maxFrameSize options payload) :
    checkControl options.opcode options.fin (lengthTag payload.length) = .ok () := by
  unfold checkControl
  split
  · next hcontrol =>
    have hsmall := h.control_size hcontrol
    have hword : (UInt8.ofNat payload.length).toNat = payload.length := octet_toNat (by omega)
    have htag : ¬ (125 : UInt8) < lengthTag payload.length := by
      rw [lengthTag, if_pos hsmall, UInt8.lt_iff_toNat_lt, hword]
      exact Nat.not_lt.mpr hsmall
    rw [if_neg (by simp [h.control_fin hcontrol]), if_neg htag]
  · rfl

/-- Whatever follows an encoded frame, the decoder gives the frame back and consumes it
exactly. -/
theorem decodeFrame_frameBytes {payload more : Bytes} (haddress : payload.length < 2 ^ 63)
    (h : Encodable maxFrameSize options payload)
    (hroom : options.maskKey.isSome = true → payload.length ≤ payloadOut) :
    decodeFrame maxFrameSize options.direction (frameBytes options payload ++ more) payloadOut =
      .ok ⟨⟨options.fin, options.opcode, options.maskKey.isSome, payload⟩,
        (frameBytes options payload).length⟩ := by
  have hsecond := secondOctet_masked options.maskKey.isSome payload.length
  have htag := secondOctet_tag options.maskKey.isSome payload.length
  have hlayout : frameBytes options payload ++ more =
      [firstOctet options.fin options.opcode, maskBit options.maskKey.isSome |||
        lengthTag payload.length] ++
        (extendedLength payload.length ++ (frameBody options.maskKey payload ++ more)) := by
    simp [frameBytes, lengthField_eq]
  have hhead : readAt FrameError.truncated (frameBytes options payload ++ more) 0 2 =
      .ok [firstOctet options.fin options.opcode, maskBit options.maskKey.isSome |||
        lengthTag payload.length] :=
    readAt_field (l := []) hlayout rfl rfl
  have hlength : readLength (frameBytes options payload ++ more) (lengthTag payload.length) =
      .ok (payload.length, 2 + (extendedLength payload.length).length) := by
    rw [hlayout]
    exact readLength_extended rfl haddress
  have hcursor : ([firstOctet options.fin options.opcode,
      maskBit options.maskKey.isSome ||| lengthTag payload.length] ++
        extendedLength payload.length).length =
      2 + (extendedLength payload.length).length := by
    rw [length_append]
    rfl
  obtain ⟨hkey, wirePayload, hwire, hpayload⟩ :=
    readBody hcursor (hlayout.trans (append_assoc ..).symm) hroom
  have hbody : payload.length ≤ (frameBody options.maskKey payload).length := by
    unfold frameBody
    split <;> simp
  refine (ok_bind hhead).trans ?_
  simp only [getD_cons_zero, getD_cons_succ, hsecond, htag, firstOctet_fin]
  refine (ok_bind (failIf_false (by rw [firstOctet_reserved]; decide))).trans ?_
  refine (ok_bind (firstOctet_opcode options.fin options.opcode)).trans ?_
  refine (ok_bind (checkControl_encodable h)).trans ?_
  refine (ok_bind (checkDirection_options options)).trans ?_
  refine (ok_bind hlength).trans ?_
  refine (ok_bind (failIf_false (decide_eq_false (Nat.not_lt.mpr h.size_le)))).trans ?_
  refine (ok_bind (failIf_false (decide_eq_false (by simp only [usizeLimit]; omega)))).trans ?_
  refine (ok_bind hkey).trans ?_
  refine (ok_bind hwire).trans ?_
  refine (ok_bind hpayload).trans ?_
  have hconsumed : 2 + (extendedLength payload.length).length +
      ((frameBody options.maskKey payload).length - payload.length) + payload.length =
      (frameBytes options payload).length := by
    simp only [frameBytes, lengthField_eq, length_cons, length_append]
    omega
  rw [hconsumed]
  rfl

end OnyxServer.WebSocket
