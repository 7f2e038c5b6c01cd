import OnyxServer.AcceptedLog.Model
import OnyxServer.Relay.WireImage

/-!
# Retained wires

The log keeps a wire only after it has encoded the decoded message again and found the
same octets, so what it keeps depends on decoding and encoding being inverse.
-/
namespace OnyxServer.AcceptedLog

open Lib Relay.V2

/-- A verified wire in a schema the encoder writes passes the check under its own id, and under no
other. -/
theorem validateWireAndId_iff {crypto : Crypto} {config : Config} {wire : Bytes} {alloc : Allocator}
    {msg : RelayMessage} {relayId : RelayId} (hdecode : decode wire = .ok msg)
    (hschema : msg.wireSchema ≠ 1)
    (hverify : verifyAndRelayId crypto msg = .verified relayId)
    (hsize : wire.length ≤ config.maxWireBytes)
    (halloc : ∀ site, alloc site = true) (expectedId : RelayId) :
    (∃ wireMeta, validateWireAndId crypto config expectedId wire alloc = .ok wireMeta) ↔
    expectedId = relayId := by
  have hnonempty : wire.length ≠ 0 := by
    intro hlen
    rw [List.length_eq_zero_iff.mp hlen] at hdecode
    cases hdecode
  have hbounds : ¬(wire.length = 0 ∨ config.maxWireBytes < wire.length) := by omega
  have hencode := encode_decode hdecode hschema
  simp only [validateWireAndId, if_neg hbounds, halloc, Bool.not_true, Bool.false_eq_true,
    if_false, hdecode, hverify, hencode, ne_eq, not_true_eq_false]
  by_cases hid : relayId = expectedId
  · rw [if_neg (not_not.mpr hid)]
    exact ⟨fun _ => hid.symm, fun _ => ⟨_, rfl⟩⟩
  rw [if_pos hid]
  refine ⟨?_, fun heq => absurd heq.symm hid⟩
  rintro ⟨wireMeta, hmeta⟩
  cases hmeta

/-- A message has one wire image. Apart from the schema that is only read, an accepted wire
is encoded back to itself, and a valid message in the schema of its scope is decoded back
to itself; a verified wire within the size limit of the log therefore passes the check of
the log under its own id. -/
theorem one_wire_image :
    (∀ (wire : Bytes) (msg : RelayMessage), decode wire = .ok msg → msg.wireSchema ≠ 1 →
      encode msg = .ok wire) ∧
    (∀ msg : RelayMessage, validateSemantic msg = true →
      msg.wireSchema = (if msg.scopeKind = .directGuest then 3 else 2) →
      ∃ wire, encode msg = .ok wire ∧ decode wire = .ok msg) ∧
    ∀ (crypto : Crypto) (config : Config) (wire : Bytes) (msg : RelayMessage) (relayId : RelayId)
      (alloc : Allocator), decode wire = .ok msg → msg.wireSchema ≠ 1 →
      verifyAndRelayId crypto msg = .verified relayId → wire.length ≤ config.maxWireBytes →
      (∀ site, alloc site = true) → ∀ expectedId : RelayId,
      (∃ wireMeta, validateWireAndId crypto config expectedId wire alloc = .ok wireMeta) ↔
      expectedId = relayId := by
  refine ⟨fun wire msg => encode_decode, fun msg => decode_encode, ?_⟩
  intro crypto config wire msg relayId alloc hdecode hschema hverify hsize halloc expectedId
  exact validateWireAndId_iff hdecode hschema hverify hsize halloc expectedId

/-- A line to a channel in a given schema. -/
def channelLine (schema : UInt8) : RelayMessage :=
  { blank with
    wireSchema := schema
    target := [0x23, 0x61]
    sourcePrefix := [0x6e, 0x21, 0x75, 0x40, 0x68]
    text := [0x78]
    originNode := 1
    originPubkey := List.replicate 32 0
    originSig := List.replicate 64 0 }

/-- Primitives under which every signature of node 1 verifies. -/
def trusting : Crypto where
  blake3 := fun _ => FixedBytes.splat 32 0
  verifyCtx := fun _ _ _ _ => true

theorem one_wire_image_line :
    ∃ wire, encode (channelLine 2) = .ok wire ∧ decode wire = .ok (channelLine 2) ∧
      ∃ wireMeta,
        validateWireAndId trusting ⟨8, 8, 8, 4096, 4096⟩ ⟨List.replicate 16 0, by decide⟩ wire
        (fun _ => true) = .ok wireMeta := by
  have hvalid : validateSemantic (channelLine 2) = true := by decide +kernel
  obtain ⟨wire, hencode, hdecode⟩ := one_wire_image.2.1 (channelLine 2) hvalid rfl
  have hlength : wire.length ≤ 4096 := by
    have hbound : (match encode (channelLine 2) with
      | .ok bytes => decide (bytes.length ≤ 4096)
      | .error _ => false) = true := by decide +kernel
    rw [hencode] at hbound
    exact of_decide_eq_true hbound
  refine ⟨wire, hencode, hdecode, ?_⟩
  refine (one_wire_image.2.2 trusting ⟨8, 8, 8, 4096, 4096⟩ wire (channelLine 2) _ _ hdecode
    (by decide) (by decide +kernel) hlength (fun _ => rfl) _).mpr rfl

/-- The same line as peers without member modes write it. -/
def legacyWire : Bytes :=
  match Coilpack.encodeValue
    (.map ((plainEntries.erase .senderMemberModes).map (entryOf (channelLine 1)))) with
  | .ok bytes => bytes
  | .error _ => []

/-- The schema without member modes is accepted and verified, but written in another schema
and therefore not retained. -/
theorem one_wire_image_legacy :
    decode legacyWire = .ok (channelLine 1) ∧ encode (channelLine 1) ≠ .ok legacyWire ∧
      verifyAndRelayId trusting (channelLine 1) = .verified ⟨List.replicate 16 0, by decide⟩ ∧
      validateWireAndId trusting ⟨8, 8, 8, 4096, 4096⟩ ⟨List.replicate 16 0, by decide⟩ legacyWire
        (fun _ => true) = .error .invalidWire := by
  decide +kernel

end OnyxServer.AcceptedLog
