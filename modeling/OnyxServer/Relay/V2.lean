import OnyxServer.Coilpack.Value
import OnyxServer.Relay.V1

/-!
# Origin-signed relay messages

The object of `message_relay_v2.zig`: its scope contract, its three wire schemas,
the transcript its origin signs and the identity derived from a verified message.
-/
namespace OnyxServer.Relay.V2

open Lib Text Coilpack
open Relay.V1 (Verb)

abbrev RouteId := FixedBytes 16
abbrev RelayId := FixedBytes 16
abbrev GuestId := FixedBytes 16
abbrev PublicKey := FixedBytes 32
abbrev Signature := FixedBytes 64

inductive ScopeKind where
  | channel
  | direct
  | channelWhisper
  | directGuest
  deriving DecidableEq

def ScopeKind.code : ScopeKind → UInt8
  | .channel => 1
  | .direct => 2
  | .channelWhisper => 3
  | .directGuest => 4

structure RelayMessage where
  wireSchema : UInt8
  verb : Verb
  target : Bytes
  minRank : UInt8
  sourcePrefix : Bytes
  account : Bytes
  tags : Bytes
  text : Bytes
  dataTag : Bytes
  recipient : Bytes
  scopeKind : ScopeKind
  senderRouteId : Option RouteId
  senderMemberModes : Option UInt8
  recipientRouteId : Option RouteId
  recipientGuestOrigin : Option PublicKey
  recipientGuestId : Option GuestId
  originNode : UInt64
  hlc : UInt64
  originPubkey : Bytes
  originSig : Bytes
  deriving DecidableEq

def RelayMessage.sourceNick (msg : RelayMessage) : Option Bytes :=
  match V1.indexOfScalar msg.sourcePrefix 0x21 with
  | none => none
  | some bang => if bang = 0 then none else some (msg.sourcePrefix.take bang)

/-- `#`, `&`, or either behind a `%`. -/
def isChannelTarget (target : Bytes) : Bool :=
  match target with
  | [] => false
  | first :: rest =>
    first == 0x23 || first == 0x26 ||
      (first == 0x25 && rest.head?.any fun second => second == 0x23 || second == 0x26)

def allZero (bytes : Bytes) : Bool := bytes.all (· == 0)

/-- The reserved synthetic namespace `=nick`. -/
def isWebhookSourceNick (nick : Bytes) : Bool :=
  decide (1 < nick.length) && decide (nick.length ≤ V1.maxNickLen) &&
    nick.head? == some 0x3d && isValidNickWith (nick.drop 1) (V1.maxNickLen - 1)

/-- What a webhook source may carry. -/
def webhookShape (msg : RelayMessage) : Bool :=
  msg.scopeKind == .channel && msg.verb == .privmsg && msg.minRank == 0 &&
    msg.account.length == 0 && msg.senderRouteId.isNone && msg.senderMemberModes.isNone &&
    msg.recipient.length == 0 && msg.recipientRouteId.isNone &&
    msg.recipientGuestOrigin.isNone && msg.recipientGuestId.isNone && msg.dataTag.length == 0 &&
    decide (msg.sourcePrefix.length ≤ V1.maxPrefixLen)

/-- The borrowed view the shared grammar checks. -/
def grammarView (msg : RelayMessage) (nick : Bytes) (webhook : Bool) : V1.RelayMessage where
  verb := msg.verb
  target := msg.target
  minRank := msg.minRank
  sourceNick := if webhook then nick.drop 1 else nick
  sourcePrefix := if webhook then msg.sourcePrefix.drop 1 else msg.sourcePrefix
  account := msg.account
  tags := msg.tags
  text := msg.text
  dataTag := msg.dataTag
  recipient := msg.recipient
  originPubkey := []
  originSig := []

/-- The scope contract. -/
def validScope (msg : RelayMessage) : Bool :=
  match msg.scopeKind with
  | .channel =>
    !(!isChannelTarget msg.target || msg.verb == .whisper || msg.recipientRouteId.isSome)
  | .direct =>
    !(isChannelTarget msg.target || msg.recipient.length != 0 || msg.recipientRouteId.isNone ||
      msg.senderMemberModes.isSome)
  | .channelWhisper =>
    !(msg.verb != .whisper || !isChannelTarget msg.target || msg.recipient.length == 0 ||
      msg.recipientRouteId.isNone)
  | .directGuest =>
    !(msg.wireSchema != 3 || isChannelTarget msg.target || msg.recipient.length != 0 ||
      msg.recipientRouteId.isSome || msg.senderRouteId.isNone || msg.senderMemberModes.isSome) &&
    msg.recipientGuestOrigin.any (fun origin => !allZero origin.val) &&
    msg.recipientGuestId.any (fun id => !allZero id.val)

/-- Whether `validateBody` passes; its only error is `InvalidSemantic`. -/
def validateBody (msg : RelayMessage) : Bool :=
  if msg.wireSchema ≠ 1 ∧ msg.wireSchema ≠ 2 ∧ msg.wireSchema ≠ 3 then false
  else
    match msg.sourceNick with
    | none => false
    | some nick =>
      let webhook := isWebhookSourceNick nick
      if webhook && !webhookShape msg then false
      else if !V1.validateSemantic (grammarView msg nick webhook) then false
      else if msg.senderRouteId.any (fun id => allZero id.val) then false
      else if msg.senderMemberModes.any (fun modes => modes &&& 0xF0 != 0) then false
      else if msg.recipientRouteId.any (fun id => allZero id.val) then false
      else if !validScope msg then false
      else !(msg.scopeKind != .directGuest &&
        (msg.wireSchema == 3 || msg.recipientGuestOrigin.isSome || msg.recipientGuestId.isSome))

def validateSemantic (msg : RelayMessage) : Bool :=
  validateBody msg && msg.originPubkey.length == 32 && msg.originSig.length == 64

/-! ## Wire form -/

inductive DecodeError where
  | format (error : FormatError)
  | invalidDocument
  | invalidFieldType
  | invalidVerb
  | invalidScope
  | invalidSemantic
  | missingField
  | unknownField
  deriving DecidableEq

inductive Field where
  | account
  | dataTag
  | hlc
  | minRank
  | originNode
  | originPubkey
  | originSig
  | recipient
  | recipientRouteId
  | scopeKind
  | senderMemberModes
  | senderRouteId
  | sourcePrefix
  | tags
  | target
  | text
  | verb
  | recipientGuestId
  | recipientGuestOrigin
  deriving DecidableEq

def Field.index : Field → Nat
  | .account => 0
  | .dataTag => 1
  | .hlc => 2
  | .minRank => 3
  | .originNode => 4
  | .originPubkey => 5
  | .originSig => 6
  | .recipient => 7
  | .recipientRouteId => 8
  | .scopeKind => 9
  | .senderMemberModes => 10
  | .senderRouteId => 11
  | .sourcePrefix => 12
  | .tags => 13
  | .target => 14
  | .text => 15
  | .verb => 16
  | .recipientGuestId => 17
  | .recipientGuestOrigin => 18

def ascii (text : String) : Bytes := text.toList.map fun char => char.toUInt8

def Field.key : Field → Bytes
  | .account => ascii "account"
  | .dataTag => ascii "data_tag"
  | .hlc => ascii "hlc"
  | .minRank => ascii "min_rank"
  | .originNode => ascii "origin_node"
  | .originPubkey => ascii "origin_pubkey"
  | .originSig => ascii "origin_sig"
  | .recipient => ascii "recipient"
  | .recipientRouteId => ascii "recipient_route_id"
  | .scopeKind => ascii "scope_kind"
  | .senderMemberModes => ascii "sender_member_modes"
  | .senderRouteId => ascii "sender_route_id"
  | .sourcePrefix => ascii "source_prefix"
  | .tags => ascii "tags"
  | .target => ascii "target"
  | .text => ascii "text"
  | .verb => ascii "verb"
  | .recipientGuestId => ascii "recipient_guest_id"
  | .recipientGuestOrigin => ascii "recipient_guest_origin"

/-- In the order the decoder compares the keys. -/
def Field.all : List Field :=
  [.account, .dataTag, .hlc, .minRank, .originNode, .originPubkey, .originSig, .recipient,
    .recipientRouteId, .recipientGuestId, .recipientGuestOrigin, .scopeKind, .senderMemberModes,
    .senderRouteId, .sourcePrefix, .tags, .target, .text, .verb]

/-- The set of claimed fields, one bit each. -/
def claimField (seen : Nat) (field : Field) : Except DecodeError Nat :=
  if seen &&& (1 <<< field.index) ≠ 0 then .error .invalidDocument
  else .ok (seen ||| (1 <<< field.index))

def allFieldsMask : Nat := (1 <<< 17) - 1

def legacyFieldsMask : Nat := allFieldsMask ^^^ (1 <<< Field.senderMemberModes.index)

def guestFieldsMask : Nat :=
  allFieldsMask ||| (1 <<< Field.recipientGuestId.index) |||
    (1 <<< Field.recipientGuestOrigin.index)

def readString : Value → Except DecodeError Bytes
  | .string value => .ok value
  | _ => .error .invalidFieldType

def readBytes : Value → Except DecodeError Bytes
  | .bytes value => .ok value
  | _ => .error .invalidFieldType

def readU64 : Value → Except DecodeError UInt64
  | .unsigned value => .ok value
  | _ => .error .invalidFieldType

def readRank (value : Value) : Except DecodeError UInt8 := do
  let raw ← readU64 value
  if 4 < raw then throw .invalidFieldType
  return raw.toUInt8

def readVerb (value : Value) : Except DecodeError Verb := do
  match (← readU64 value).toNat with
  | 1 => return .privmsg
  | 2 => return .notice
  | 3 => return .tagmsg
  | 4 => return .data
  | 5 => return .request
  | 6 => return .reply
  | 7 => return .whisper
  | _ => throw .invalidVerb

def readScope (value : Value) : Except DecodeError ScopeKind := do
  match (← readU64 value).toNat with
  | 1 => return .channel
  | 2 => return .direct
  | 3 => return .channelWhisper
  | 4 => return .directGuest
  | _ => throw .invalidScope

def readModes (value : Value) : Except DecodeError (Option UInt8) := do
  let modes ← readU64 value
  if 256 < modes then throw .invalidFieldType
  return if modes = 256 then none else some modes.toUInt8

/-- An optional array of exactly `len` octets, not all zero: absent when empty. -/
def readFixed (len : Nat) (value : Value) : Except DecodeError (Option (FixedBytes len)) := do
  let bytes ← readBytes value
  if bytes.length = 0 then return none
  if h : bytes.length = len then
    if allZero bytes then throw .invalidFieldType
    return some ⟨bytes, h⟩
  else throw .invalidFieldType

def readRouteId (value : Value) : Except DecodeError (Option RouteId) := readFixed 16 value
def readGuestId (value : Value) : Except DecodeError (Option GuestId) := readFixed 16 value
def readGuestOrigin (value : Value) : Except DecodeError (Option PublicKey) := readFixed 32 value

def setField (msg : RelayMessage) (value : Value) : Field → Except DecodeError RelayMessage
  | .account => return { msg with account := ← readString value }
  | .dataTag => return { msg with dataTag := ← readString value }
  | .hlc => return { msg with hlc := ← readU64 value }
  | .minRank => return { msg with minRank := ← readRank value }
  | .originNode => return { msg with originNode := ← readU64 value }
  | .originPubkey => return { msg with originPubkey := ← readBytes value }
  | .originSig => return { msg with originSig := ← readBytes value }
  | .recipient => return { msg with recipient := ← readString value }
  | .recipientRouteId => return { msg with recipientRouteId := ← readRouteId value }
  | .scopeKind => return { msg with scopeKind := ← readScope value }
  | .senderMemberModes => return { msg with senderMemberModes := ← readModes value }
  | .senderRouteId => return { msg with senderRouteId := ← readRouteId value }
  | .sourcePrefix => return { msg with sourcePrefix := ← readString value }
  | .tags => return { msg with tags := ← readString value }
  | .target => return { msg with target := ← readString value }
  | .text => return { msg with text := ← readString value }
  | .verb => return { msg with verb := ← readVerb value }
  | .recipientGuestId => return { msg with recipientGuestId := ← readGuestId value }
  | .recipientGuestOrigin => return { msg with recipientGuestOrigin := ← readGuestOrigin value }

def decodeFields : List MapEntry → Nat → RelayMessage → Except DecodeError (Nat × RelayMessage)
  | [], seen, msg => .ok (seen, msg)
  | entry :: entries, seen, msg =>
    match Field.all.find? (fun field => field.key == entry.key) with
    | none => .error .unknownField
    | some field =>
      match claimField seen field with
      | .error e => .error e
      | .ok seen =>
        match setField msg entry.value field with
        | .error e => .error e
        | .ok msg => decodeFields entries seen msg

/-- The defaults a decode starts from. -/
def blank : RelayMessage where
  wireSchema := 2
  verb := .privmsg
  target := []
  minRank := 0
  sourcePrefix := []
  account := []
  tags := []
  text := []
  dataTag := []
  recipient := []
  scopeKind := .channel
  senderRouteId := none
  senderMemberModes := none
  recipientRouteId := none
  recipientGuestOrigin := none
  recipientGuestId := none
  originNode := 0
  hlc := 0
  originPubkey := []
  originSig := []

def decode (bytes : Bytes) : Except DecodeError RelayMessage :=
  match Coilpack.decode bytes with
  | .error e => .error (.format e)
  | .ok (.map entries) =>
    match decodeFields entries 0 blank with
    | .error e => .error e
    | .ok (seen, msg) =>
      if seen ≠ allFieldsMask ∧ seen ≠ legacyFieldsMask ∧ seen ≠ guestFieldsMask then
        .error .missingField
      else
        let msg := { msg with
          wireSchema :=
            if seen = legacyFieldsMask then 1 else if seen = guestFieldsMask then 3 else 2 }
        if msg.originPubkey.length ≠ 32 ∨ msg.originSig.length ≠ 64 then .error .invalidFieldType
        else if !validateSemantic msg then .error .invalidSemantic
        else .ok msg
  | .ok _ => .error .invalidDocument

def optionalBytes {n : Nat} (value : Option (FixedBytes n)) : Bytes :=
  match value with
  | some bytes => bytes.val
  | none => []

def encodeFieldValue (msg : RelayMessage) : Field → Value
  | .account => .string msg.account
  | .dataTag => .string msg.dataTag
  | .hlc => .unsigned msg.hlc
  | .minRank => .unsigned msg.minRank.toUInt64
  | .originNode => .unsigned msg.originNode
  | .originPubkey => .bytes msg.originPubkey
  | .originSig => .bytes msg.originSig
  | .recipient => .string msg.recipient
  | .recipientRouteId => .bytes (optionalBytes msg.recipientRouteId)
  | .scopeKind => .unsigned msg.scopeKind.code.toUInt64
  | .senderMemberModes =>
    .unsigned (match msg.senderMemberModes with | some modes => modes.toUInt64 | none => 256)
  | .senderRouteId => .bytes (optionalBytes msg.senderRouteId)
  | .sourcePrefix => .string msg.sourcePrefix
  | .tags => .string msg.tags
  | .target => .string msg.target
  | .text => .string msg.text
  | .verb => .unsigned msg.verb.code.toUInt64
  | .recipientGuestId => .bytes (optionalBytes msg.recipientGuestId)
  | .recipientGuestOrigin => .bytes (optionalBytes msg.recipientGuestOrigin)

def guestEntries : List Field :=
  [.account, .dataTag, .hlc, .minRank, .originNode, .originPubkey, .originSig, .recipient,
    .recipientGuestId, .recipientGuestOrigin, .recipientRouteId, .scopeKind, .senderMemberModes,
    .senderRouteId, .sourcePrefix, .tags, .target, .text, .verb]

def plainEntries : List Field :=
  [.account, .dataTag, .hlc, .minRank, .originNode, .originPubkey, .originSig, .recipient,
    .recipientRouteId, .scopeKind, .senderMemberModes, .senderRouteId, .sourcePrefix, .tags,
    .target, .text, .verb]

def encode (msg : RelayMessage) : Except DecodeError Bytes :=
  if !validateSemantic msg then .error .invalidSemantic
  else
    let fields := if msg.scopeKind = .directGuest then guestEntries else plainEntries
    match encodeValue
      (.map (fields.map fun field => .mk field.key (encodeFieldValue msg field))) with
    | .error e => .error (.format e)
    | .ok bytes => .ok bytes

inductive TranscriptError where
  | fieldTooLong
  | invalidSemantic
  deriving DecidableEq

def appendLenPrefixed (field : Bytes) : Except TranscriptError Bytes :=
  if 2 ^ 32 ≤ field.length then .error .fieldTooLong
  else .ok (leBytes 4 field.length ++ field)

def appendRoute (route : Option RouteId) : Bytes :=
  match route with
  | some id => 1 :: id.val
  | none => [0]

def appendModes (msg : RelayMessage) : Bytes :=
  if 2 ≤ msg.wireSchema then
    match msg.senderMemberModes with
    | some modes => [1, modes]
    | none => [0]
  else []

def appendGuest (msg : RelayMessage) : Except TranscriptError Bytes :=
  if 3 ≤ msg.wireSchema then
    match msg.recipientGuestOrigin, msg.recipientGuestId with
    | some origin, some id => .ok (origin.val ++ id.val)
    | _, _ => .error .invalidSemantic
  else .ok []

def appendAll : List Bytes → Except TranscriptError Bytes
  | [] => .ok []
  | field :: fields =>
    match appendLenPrefixed field with
    | .error e => .error e
    | .ok head =>
      match appendAll fields with
      | .error e => .error e
      | .ok tail => .ok (head ++ tail)

def originTranscript (msg : RelayMessage) : Except TranscriptError Bytes :=
  match appendGuest msg with
  | .error e => .error e
  | .ok guest =>
    match appendAll [msg.sourcePrefix, msg.account, msg.tags, msg.target, msg.text, msg.dataTag,
      msg.recipient] with
    | .error e => .error e
    | .ok fields =>
      .ok (leBytes 8 msg.originNode.toNat ++ (leBytes 8 msg.hlc.toNat ++
        ([msg.verb.code, msg.scopeKind.code, msg.minRank] ++ (appendModes msg ++
          (appendRoute msg.senderRouteId ++ (appendRoute msg.recipientRouteId ++
            (guest ++ fields)))))))

/-- The primitives outside the repository: the hash, and the check of a signature
over a domain and a transcript, false also where the check itself fails. -/
structure Crypto where
  blake3 : Bytes → FixedBytes 32
  verifyCtx : Bytes → Bytes → Signature → PublicKey → Bool

def signDomain : Bytes := ascii "onyx-s2s-relay-msg-v2"
def relayIdDomain : Bytes := ascii "onyx-s2s-relay-id-v2"
def shortIdDomain : Bytes := ascii "MZ-S2S-SHORTID-v1"

def nodeIdFromPublicKey (crypto : Crypto) (pubkey : PublicKey) : FixedBytes 20 :=
  FixedBytes.ofSlice 20 (crypto.blake3 pubkey.val).val

/-- Zero is the sentinel of an unknown peer and never a handle. -/
def shortId (crypto : Crypto) (nodeId : FixedBytes 20) : UInt64 :=
  let handle := UInt64.ofNat (beNat ((crypto.blake3 (shortIdDomain ++ nodeId.val)).val.take 8))
  if handle = 0 then 1 else handle

def originShortId (crypto : Crypto) (pubkey : PublicKey) : UInt64 :=
  shortId crypto (nodeIdFromPublicKey crypto pubkey)

inductive VerifyAndIdOutcome where
  | verified (relayId : RelayId)
  | originMismatch
  | badSignature
  | invalidSemantic
  deriving DecidableEq

def verifyAndRelayId (crypto : Crypto) (msg : RelayMessage) : VerifyAndIdOutcome :=
  if !validateSemantic msg then .invalidSemantic
  else
    let pubkey : PublicKey := FixedBytes.ofSlice 32 msg.originPubkey
    if originShortId crypto pubkey ≠ msg.originNode then .originMismatch
    else
      match originTranscript msg with
      | .error _ => .invalidSemantic
      | .ok transcript =>
        if !crypto.verifyCtx signDomain transcript (FixedBytes.ofSlice 64 msg.originSig) pubkey then
          .badSignature
        else
          .verified (FixedBytes.ofSlice 16
            (crypto.blake3 (relayIdDomain ++ msg.originPubkey ++ msg.originSig ++ transcript)).val)

end OnyxServer.Relay.V2
