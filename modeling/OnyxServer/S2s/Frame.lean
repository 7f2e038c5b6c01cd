import OnyxServer.Lib.Wire

/-!
# Frames between servers

`s2s_frame.zig`: a frame is a type tag, the length of its payload in four octets
(little endian) and the payload. Some types have a payload limit of their own beside the
frame limit of the link.
-/
namespace OnyxServer.S2s

open Lib

def headerLen : Nat := 5
def lengthLen : Nat := 4
def maxUserMessagePayloadLen : Nat := 64 * 1024

inductive EncodeError where
  | bufferTooSmall
  | payloadTooLarge
  deriving DecidableEq

inductive DecodeError where
  | outOfMemory
  | malformedFrame
  | oversizeFrame
  | truncated
  deriving DecidableEq

inductive FrameType where
  | handshake
  | burst
  | delta
  | gossip
  | ping
  | pong
  | quit
  | membership
  | message
  | operGrant
  | channelModeFlags
  | channelList
  | channelProp
  | topic
  | nickchange
  | channelModeState
  | sessionMigrate
  | entityProp
  | cloneCount
  | operEvent
  | observeEvent
  | kill
  | ward
  | resync
  | repairSummary
  | repairRequest
  | repairResponse
  | memoPush
  | sessionMigrateConsumed
  | sessionReplicaOffer
  | sessionReplicaAck
  | sessionReplicaRevoke
  | messageV2
  | sessionReplicaAttachmentLease
  | operEventV2
  | messageV2Ack
  | mediaWsDatagram
  | e2eeGroup
  | e2eeGroupAck
  | membershipSync
  | searchQuery
  | searchReply
  | keytransHead
  | guestPresence
  | guestDirect
  | whoisProfile
  | guestFrontier
  | accessEventV1
  | configCompat
  | digestOffer
  | digestNeed
  | digestCommit
  deriving DecidableEq

def FrameType.tag : FrameType → UInt8
  | .handshake => 0x01
  | .burst => 0x02
  | .delta => 0x03
  | .gossip => 0x04
  | .ping => 0x05
  | .pong => 0x06
  | .quit => 0x07
  | .membership => 0x08
  | .message => 0x09
  | .operGrant => 0x0A
  | .channelModeFlags => 0x0B
  | .channelList => 0x0C
  | .channelProp => 0x0D
  | .topic => 0x0E
  | .nickchange => 0x0F
  | .channelModeState => 0x10
  | .sessionMigrate => 0x11
  | .entityProp => 0x12
  | .cloneCount => 0x13
  | .operEvent => 0x14
  | .observeEvent => 0x15
  | .kill => 0x16
  | .ward => 0x17
  | .resync => 0x18
  | .repairSummary => 0x19
  | .repairRequest => 0x1A
  | .repairResponse => 0x1B
  | .memoPush => 0x1C
  | .sessionMigrateConsumed => 0x1D
  | .sessionReplicaOffer => 0x1E
  | .sessionReplicaAck => 0x1F
  | .sessionReplicaRevoke => 0x20
  | .messageV2 => 0x21
  | .sessionReplicaAttachmentLease => 0x22
  | .operEventV2 => 0x23
  | .messageV2Ack => 0x24
  | .mediaWsDatagram => 0x25
  | .e2eeGroup => 0x26
  | .e2eeGroupAck => 0x27
  | .membershipSync => 0x28
  | .searchQuery => 0x29
  | .searchReply => 0x2A
  | .keytransHead => 0x2B
  | .guestPresence => 0x2C
  | .guestDirect => 0x2D
  | .whoisProfile => 0x2E
  | .guestFrontier => 0x2F
  | .accessEventV1 => 0x30
  | .configCompat => 0x31
  | .digestOffer => 0x32
  | .digestNeed => 0x33
  | .digestCommit => 0x34

def FrameType.fromTag (tagValue : UInt8) : Option FrameType :=
  match tagValue.toNat with
  | 0x01 => some .handshake
  | 0x02 => some .burst
  | 0x03 => some .delta
  | 0x04 => some .gossip
  | 0x05 => some .ping
  | 0x06 => some .pong
  | 0x07 => some .quit
  | 0x08 => some .membership
  | 0x09 => some .message
  | 0x0A => some .operGrant
  | 0x0B => some .channelModeFlags
  | 0x0C => some .channelList
  | 0x0D => some .channelProp
  | 0x0E => some .topic
  | 0x0F => some .nickchange
  | 0x10 => some .channelModeState
  | 0x11 => some .sessionMigrate
  | 0x12 => some .entityProp
  | 0x13 => some .cloneCount
  | 0x14 => some .operEvent
  | 0x15 => some .observeEvent
  | 0x16 => some .kill
  | 0x17 => some .ward
  | 0x18 => some .resync
  | 0x19 => some .repairSummary
  | 0x1A => some .repairRequest
  | 0x1B => some .repairResponse
  | 0x1C => some .memoPush
  | 0x1D => some .sessionMigrateConsumed
  | 0x1E => some .sessionReplicaOffer
  | 0x1F => some .sessionReplicaAck
  | 0x20 => some .sessionReplicaRevoke
  | 0x21 => some .messageV2
  | 0x22 => some .sessionReplicaAttachmentLease
  | 0x23 => some .operEventV2
  | 0x24 => some .messageV2Ack
  | 0x25 => some .mediaWsDatagram
  | 0x26 => some .e2eeGroup
  | 0x27 => some .e2eeGroupAck
  | 0x28 => some .membershipSync
  | 0x29 => some .searchQuery
  | 0x2A => some .searchReply
  | 0x2B => some .keytransHead
  | 0x2C => some .guestPresence
  | 0x2D => some .guestDirect
  | 0x2E => some .whoisProfile
  | 0x2F => some .guestFrontier
  | 0x30 => some .accessEventV1
  | 0x31 => some .configCompat
  | 0x32 => some .digestOffer
  | 0x33 => some .digestNeed
  | 0x34 => some .digestCommit
  | _ => none

@[simp] theorem fromTag_tag (frameType : FrameType) :
    FrameType.fromTag frameType.tag = some frameType := by
  cases frameType <;> rfl

def maxDigestOfferBodyLen : Nat := 4 + 1 + 8 + 1 + 64 * (1 + 8 + 32)
def maxDigestNeedBodyLen : Nat := 4 + 1 + 8 + 8 + 1 + 64 * (2 + 32 * 64)
def maxDigestCommitBodyLen : Nat := 4 + 1 + 1 + 1 + 8 + 32 + 32 * 64
def digestEnvelopeHeadroom : Nat := 128
def maxDigestOfferPayloadLen : Nat := maxDigestOfferBodyLen + digestEnvelopeHeadroom
def maxDigestNeedPayloadLen : Nat := maxDigestNeedBodyLen + digestEnvelopeHeadroom
def maxDigestCommitPayloadLen : Nat := maxDigestCommitBodyLen + digestEnvelopeHeadroom

/-- The `max_payload_len` column of the frame catalog. -/
def maxPayloadLen : FrameType → Option Nat
  | .message => some maxUserMessagePayloadLen
  | .messageV2 => some maxUserMessagePayloadLen
  | .accessEventV1 => some 1024
  | .configCompat => some 1024
  | .digestOffer => some maxDigestOfferPayloadLen
  | .digestNeed => some maxDigestNeedPayloadLen
  | .digestCommit => some maxDigestCommitPayloadLen
  | _ => none

structure Frame where
  frameType : FrameType
  payload : Bytes
  deriving DecidableEq

def maxU32 : Nat := 2 ^ 32 - 1

def encodedLen (payloadLen : Nat) : Except EncodeError Nat :=
  if maxU32 < payloadLen then .error .payloadTooLarge else .ok (headerLen + payloadLen)

def payloadExceedsTypeLimit (frameType : FrameType) (payloadLen : Nat) : Bool :=
  match maxPayloadLen frameType with
  | none => false
  | some limit => decide (limit < payloadLen)

/-- The octets of one frame. -/
def frameBytes (tag : UInt8) (payload : Bytes) : Bytes :=
  tag :: (leBytes lengthLen payload.length ++ payload)

/-- `outLen` is the room in the caller's buffer. -/
def encode (frameType : FrameType) (payload : Bytes) (outLen : Nat) : Except EncodeError Bytes :=
  if payloadExceedsTypeLimit frameType payload.length then .error .payloadTooLarge
  else
    match encodedLen payload.length with
    | .error e => .error e
    | .ok total =>
      if outLen < total then .error .bufferTooSmall else .ok (frameBytes frameType.tag payload)

theorem encode_ok {frameType : FrameType} {payload bytes : Bytes} {outLen : Nat}
    (h : encode frameType payload outLen = .ok bytes) :
    bytes = frameBytes frameType.tag payload ∧ payload.length ≤ maxU32 ∧
      payloadExceedsTypeLimit frameType payload.length = false := by
  unfold encode encodedLen at h
  split at h
  · cases h
  rename_i hlimit
  split at h
  · cases h
  rename_i total htotal
  split_ifs at htotal
  · split_ifs at h
    · exact ⟨(Except.ok.inj h).symm, by omega, by simpa using hlimit⟩

@[simp] theorem frameBytes_length (tag : UInt8) (payload : Bytes) :
    (frameBytes tag payload).length = headerLen + payload.length := by
  simp [frameBytes, lengthLen, headerLen]
  omega

end OnyxServer.S2s
