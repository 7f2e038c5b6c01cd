import Mathlib.Data.Prod.Lex
import OnyxServer.Lib.Cursor
import OnyxServer.Lib.Wire
import OnyxServer.Text.Ascii

/-!
# Signed objects of SESSION_REPLICA

The OFFER and the attachment lease on the wire: how each is decoded, what shape it must
have, and how its signature is checked. A decoded object carries the proof that its exact
octets decode to it again, so every copy the store owns is one that decodes.
-/
namespace OnyxServer.SessionReplica

open Lib Text Except

abbrev Token := FixedBytes 16
abbrev NodeId := UInt64
abbrev Digest := FixedBytes 32
abbrev PublicKey := FixedBytes 32
abbrev Signature := FixedBytes 64

/-- "SRO2" -/
def offerMagic : Bytes := [0x53, 0x52, 0x4f, 0x32]
/-- "SRL2" -/
def attachmentLeaseMagic : Bytes := [0x53, 0x52, 0x4c, 0x32]
def offerSignDomain : Bytes := "onyx-session-replica-offer-v2".toUTF8.toList
def attachmentLeaseSignDomain : Bytes := "onyx-session-replica-attachment-lease-v2".toUTF8.toList

def maxAccountLen : Nat := 128
def maxNickLen : Nat := 64
def publicKeyLen : Nat := 32
def signatureLen : Nat := 64
def signatureWireLen : Nat := publicKeyLen + signatureLen
def offerFixedLen : Nat := 4 + 1 + 16 + (8 + 8 + 8) + 8 + 8 + 2 + 2 + 4

def defaultMaxFrameSize : Nat := 1024 * 1024
def frameHeaderLen : Nat := 5
def outerSignedEnvelopeLen : Nat := 32 + 64
def replicaHeaderLen : Nat := 4 + 1 + 1 + 4
def maxSignedPayloadLen : Nat :=
    defaultMaxFrameSize - frameHeaderLen - outerSignedEnvelopeLen - replicaHeaderLen
def legacyEnvelopeReserve : Nat := 4 * 1024
def transportMaxSnapshotLen : Nat :=
  maxSignedPayloadLen - offerFixedLen - signatureWireLen - maxAccountLen - maxNickLen
def maxSnapshotLen : Nat :=
  min transportMaxSnapshotLen (defaultMaxFrameSize - frameHeaderLen - legacyEnvelopeReserve)

/-- The cryptography the module calls. -/
structure Crypto where
  blake3 : Bytes → Digest
  originShortId : PublicKey → NodeId
  verifyCtx : Bytes → Bytes → Signature → PublicKey → Bool

structure Revision where
  epoch : UInt64
  sequence : UInt64
  originNode : NodeId
  deriving DecidableEq

namespace Revision

def rank (r : Revision) : UInt64 ×ₗ UInt64 ×ₗ UInt64 :=
  toLex (r.epoch, toLex (r.sequence, r.originNode))

theorem rank_injective : Function.Injective rank := by
  intro a b h
  obtain ⟨hepoch, hrest⟩ := Prod.mk.inj (toLex.injective h)
  obtain ⟨hsequence, horigin⟩ := Prod.mk.inj (toLex.injective hrest)
  cases a
  cases b
  simp only at hepoch hsequence horigin
  rw [hepoch, hsequence, horigin]

instance : LinearOrder Revision := LinearOrder.lift' rank rank_injective

theorem lt_iff {a b : Revision} : a < b ↔ a.epoch < b.epoch ∨ a.epoch = b.epoch ∧
    (a.sequence < b.sequence ∨ a.sequence = b.sequence ∧ a.originNode < b.originNode) := by
  change rank a < rank b ↔ _
  rw [rank, rank, Prod.Lex.toLex_lt_toLex, Prod.Lex.toLex_lt_toLex]

def compare (a b : Revision) : Ordering :=
  if a.epoch < b.epoch then .lt
  else if b.epoch < a.epoch then .gt
  else if a.sequence < b.sequence then .lt
  else if b.sequence < a.sequence then .gt
  else if a.originNode < b.originNode then .lt
  else if b.originNode < a.originNode then .gt
  else .eq

/-- The comparison is the one of the linear order. -/
theorem compare_cases (a b : Revision) :
    (compare a b = .lt ∧ a < b) ∨ (compare a b = .eq ∧ a = b) ∨ (compare a b = .gt ∧ b < a) := by
  have split : ∀ x y : UInt64, x < y ∨ x = y ∨ y < x := lt_trichotomy
  simp only [lt_iff, compare]
  rcases split a.epoch b.epoch with h | h | h
  · exact .inl ⟨if_pos h, .inl h⟩
  · rw [if_neg (by order), if_neg (by order)]
    rcases split a.sequence b.sequence with h' | h' | h'
    · exact .inl ⟨if_pos h', .inr ⟨h, .inl h'⟩⟩
    · rw [if_neg (by order), if_neg (by order)]
      rcases split a.originNode b.originNode with h'' | h'' | h''
      · exact .inl ⟨if_pos h'', .inr ⟨h, .inr ⟨h', h''⟩⟩⟩
      · rw [if_neg (by order), if_neg (by order)]
        refine .inr (.inl ⟨rfl, ?_⟩)
        cases a
        cases b
        simp only at h h' h''
        rw [h, h', h'']
      · rw [if_neg (by order), if_pos h'']
        exact .inr (.inr ⟨rfl, .inr ⟨h.symm, .inr ⟨h'.symm, h''⟩⟩⟩)
    · rw [if_neg (by order), if_pos h']
      exact .inr (.inr ⟨rfl, .inr ⟨h.symm, .inl h'⟩⟩)
  · rw [if_neg (by order), if_pos h]
    exact .inr (.inr ⟨rfl, .inl h⟩)

variable {a b : Revision}

theorem compare_eq_cmp : compare a b = cmp a b := by
  rcases compare_cases a b with ⟨h, hlt⟩ | ⟨h, rfl⟩ | ⟨h, hlt⟩
  · rw [h, (cmp_eq_lt_iff _ _).mpr hlt]
  · rw [h, cmp_self_eq_eq]
  · rw [h, (cmp_eq_gt_iff _ _).mpr hlt]

theorem compare_lt : compare a b = .lt ↔ a < b := by rw [compare_eq_cmp, cmp_eq_lt_iff]
theorem compare_eq : compare a b = .eq ↔ a = b := by rw [compare_eq_cmp, cmp_eq_eq_iff]
theorem compare_gt : compare a b = .gt ↔ b < a := by rw [compare_eq_cmp, cmp_eq_gt_iff]

def eql (a b : Revision) : Bool := compare a b == .eq

@[simp] theorem eql_iff : eql a b = true ↔ a = b := by
  rw [eql, beq_iff_eq, compare_eq]

end Revision

/-- `MeshClock.physicalOf`. -/
def physicalOf (hlc : UInt64) : UInt64 := hlc >>> 16

def Revision.isCanonical (r : Revision) : Bool := r.epoch == physicalOf r.sequence

inductive OfferOperation where
  | upsert
  | remove
  | inventoryUpsert
  | groupRevoke
  deriving DecidableEq

def inventoryRowLen : Nat := 25
def maxInventoryAttachments : Nat := 256

/-- The attachment id of a row. -/
def rowId (bytes : Bytes) (index : Nat) : Bytes :=
  slice bytes (index * inventoryRowLen) (index * inventoryRowLen + 16)

def rowSignon (bytes : Bytes) (index : Nat) : Int64 :=
  i64OfBytes (slice bytes (index * inventoryRowLen + 16) (index * inventoryRowLen + 24))

def validInventory (bytes : Bytes) : Bool :=
  decide (bytes.length % inventoryRowLen = 0 ∧
    bytes.length / inventoryRowLen ≤ maxInventoryAttachments) &&
    (List.range (bytes.length / inventoryRowLen)).all fun i =>
      !((rowId bytes i).all (· == 0)) && decide (0 ≤ rowSignon bytes i) &&
        decide (bytes.getD (i * inventoryRowLen + 24) 0 ≤ 1) &&
        (i == 0 || decide (rowId bytes (i - 1) < rowId bytes i))

structure Offer where
  operation : OfferOperation
  token : Token
  revision : Revision
  issuedAtMs : Int64
  expiresAtMs : Int64
  account : Bytes
  nick : Bytes
  snapshot : Bytes
  inventory : Bytes
  resumeEligible : Option Bool
  deriving DecidableEq

def Offer.allowsResume (self : Offer) : Bool :=
  self.operation == .upsert ||
    (self.operation == .inventoryUpsert && self.resumeEligible == some true)

inductive ShapeError where
  | invalidOffer
  | tooLong
  deriving DecidableEq

def validateOfferShape (offer : Offer) : Except ShapeError Unit :=
  if offer.revision.originNode = 0 ∨ !offer.revision.isCanonical then .error .invalidOffer
  else if offer.issuedAtMs < 0 ∨ offer.expiresAtMs < offer.issuedAtMs then .error .invalidOffer
  else if maxAccountLen < offer.account.length ∨ maxNickLen < offer.nick.length ∨
      maxSnapshotLen < offer.snapshot.length then .error .tooLong
  else if offer.operation ≠ .inventoryUpsert ∧ offer.resumeEligible ≠ none then .error .invalidOffer
  else
    match offer.operation with
    | .upsert | .inventoryUpsert =>
      if offer.account.length = 0 then .error .invalidOffer
      else if offer.operation = .inventoryUpsert ∧
        offer.resumeEligible = none then .error .invalidOffer
      else if offer.allowsResume ∧
        (offer.nick.length = 0 ∨ offer.snapshot.length = 0) then .error .invalidOffer
      else if !offer.allowsResume ∧
        (offer.nick.length ≠ 0 ∨ offer.snapshot.length ≠ 0) then .error .invalidOffer
      else if offer.operation = .upsert ∧ offer.inventory.length ≠ 0 then .error .invalidOffer
      else if !validInventory offer.inventory then .error .invalidOffer
      else .ok ()
    | .groupRevoke =>
      if offer.token.val.all (· == 0) ∨ offer.account.length = 0 ∨ offer.nick.length ≠ 0 ∨
          offer.snapshot.length ≠ 0 ∨ offer.inventory.length ≠ 0 then .error .invalidOffer
      else .ok ()
    | .remove =>
      if offer.account.length ≠ 0 ∨ offer.nick.length ≠ 0 ∨ offer.snapshot.length ≠ 0 ∨
          offer.inventory.length ≠ 0 then .error .invalidOffer
      else .ok ()

theorem validateOfferShape_origin {offer : Offer} (h : validateOfferShape offer = .ok ()) :
    offer.revision.originNode ≠ 0 := by
  intro hzero
  rw [validateOfferShape, if_pos (.inl hzero)] at h
  cases h

theorem validateOfferShape_times {offer : Offer} (h : validateOfferShape offer = .ok ()) :
    0 ≤ offer.issuedAtMs ∧ offer.issuedAtMs ≤ offer.expiresAtMs := by
  unfold validateOfferShape at h
  split at h
  · cases h
  split at h
  · cases h
  · next htimes =>
    push Not at htimes
    exact htimes

inductive DecodeError where
  | badMagic
  | invalidOffer
  | invalidAttachmentLease
  | tooLong
  | trailingBytes
  | truncated
  deriving DecidableEq

abbrev Reader := Cursor DecodeError

namespace Reader

def take (n : Nat) : Reader Bytes := takeBytes .truncated n
def fixed (n : Nat) : Reader (FixedBytes n) := FixedBytes.ofSlice n <$> take n
def readByte : Reader UInt8 := (fun bytes => bytes.headD 0) <$> take 1
def readU16 : Reader Nat := beNat <$> take 2
def readU32 : Reader Nat := beNat <$> take 4
def readU64 : Reader UInt64 := (fun bytes => UInt64.ofNat (beNat bytes)) <$> take 8
def readI64 : Reader Int64 := i64OfBytes <$> take 8

def readRevision : Reader Revision := do
  let epoch ← readU64
  let sequence ← readU64
  let originNode ← readU64
  pure { epoch, sequence, originNode }

/-- The magic octets of an object. -/
def expect (magic : Bytes) : Reader Unit := do
  let found ← take magic.length
  if found = magic then pure () else throw .badMagic

theorem take_leaves (n : Nat) : LeavesEnd (take n) := leavesEnd_takeBytes DecodeError.truncated n
theorem fixed_leaves (n : Nat) : LeavesEnd (fixed n) := (take_leaves n).map _
theorem readByte_leaves : LeavesEnd readByte := (take_leaves 1).map _
theorem readU16_leaves : LeavesEnd readU16 := (take_leaves 2).map _
theorem readU32_leaves : LeavesEnd readU32 := (take_leaves 4).map _
theorem readU64_leaves : LeavesEnd readU64 := (take_leaves 8).map _
theorem readI64_leaves : LeavesEnd readI64 := (take_leaves 8).map _

theorem readRevision_leaves : LeavesEnd readRevision :=
  readU64_leaves.bind fun _ => readU64_leaves.bind fun _ => readU64_leaves.bind fun _ =>
    leavesEnd_pure _

theorem expect_leaves (magic : Bytes) : LeavesEnd (expect magic) := by
  refine (take_leaves magic.length).bind fun found => ?_
  split
  · exact leavesEnd_pure _
  · exact leavesEnd_throw _

end Reader

open Reader

def readOperation : Reader OfferOperation := do
  match ← readByte with
  | 1 => pure .upsert
  | 2 => pure .remove
  | 3 => pure .inventoryUpsert
  | 4 => pure .groupRevoke
  | _ => throw .invalidOffer

def readResumeEligible (operation : OfferOperation) : Reader (Option Bool) :=
  if operation = .inventoryUpsert then do
    match ← readByte with
    | 0 => pure (some false)
    | 1 => pure (some true)
    | _ => throw .invalidOffer
  else pure none

def readInventoryCount (operation : OfferOperation) : Reader Nat :=
  if operation = .inventoryUpsert then readU16 else pure 0

/-- A limit on a length that was read. -/
def limit (long : Bool) : Reader Unit := if long then throw .tooLong else pure ()

def checkShape (offer : Offer) : Reader Offer :=
  match validateOfferShape offer with
  | .ok () => pure offer
  | .error _ => throw .invalidOffer

def readOffer : Reader Offer := do
  expect offerMagic
  let operation ← readOperation
  let token ← fixed 16
  let revision ← readRevision
  let issuedAtMs ← readI64
  let expiresAtMs ← readI64
  let accountLen ← readU16
  let nickLen ← readU16
  let snapshotLen ← readU32
  limit (decide (maxAccountLen < accountLen ∨ maxNickLen < nickLen ∨ maxSnapshotLen < snapshotLen))
  let resumeEligible ← readResumeEligible operation
  let inventoryCount ← readInventoryCount operation
  limit (decide (maxInventoryAttachments < inventoryCount))
  let account ← take accountLen
  let nick ← take nickLen
  let snapshot ← take snapshotLen
  let inventory ← take (inventoryCount * inventoryRowLen)
  checkShape {
    operation, token, revision, issuedAtMs, expiresAtMs, account, nick, snapshot, inventory
    resumeEligible }

theorem readOperation_leaves : LeavesEnd readOperation := by
  refine readByte_leaves.bind fun byte => ?_
  split
  all_goals first | exact leavesEnd_pure _ | exact leavesEnd_throw _

theorem readResumeEligible_leaves (operation : OfferOperation) :
    LeavesEnd (readResumeEligible operation) := by
  unfold readResumeEligible
  split
  · refine readByte_leaves.bind fun byte => ?_
    split
    all_goals first | exact leavesEnd_pure _ | exact leavesEnd_throw _
  · exact leavesEnd_pure _

theorem readInventoryCount_leaves (operation : OfferOperation) :
    LeavesEnd (readInventoryCount operation) := by
  unfold readInventoryCount
  split
  · exact readU16_leaves
  · exact leavesEnd_pure _

theorem limit_leaves (long : Bool) : LeavesEnd (limit long) := by
  unfold limit
  split
  · exact leavesEnd_throw _
  · exact leavesEnd_pure _

theorem checkShape_leaves (offer : Offer) : LeavesEnd (checkShape offer) := by
  unfold checkShape
  split
  · exact leavesEnd_pure _
  · exact leavesEnd_throw _

theorem readOffer_leaves : LeavesEnd readOffer :=
  (expect_leaves _).bind fun _ => readOperation_leaves.bind fun operation =>
    (fixed_leaves 16).bind fun _ => readRevision_leaves.bind fun _ => readI64_leaves.bind fun _ =>
    readI64_leaves.bind fun _ => readU16_leaves.bind fun _ => readU16_leaves.bind fun _ =>
    readU32_leaves.bind fun _ => (limit_leaves _).bind fun _ =>
    (readResumeEligible_leaves operation).bind fun _ =>
      (readInventoryCount_leaves operation).bind fun _ =>
    (limit_leaves _).bind fun _ => (take_leaves _).bind fun _ => (take_leaves _).bind fun _ =>
    (take_leaves _).bind fun _ => (take_leaves _).bind fun _ => checkShape_leaves _

/-- What a decoder reads: the body, the key, the signature and the octets that were signed. -/
structure Signed (α : Type) where
  body : α
  signer : PublicKey
  signature : Signature
  transcript : Bytes
  deriving DecidableEq

variable {α : Type}

/-- The exact octets of a signed object; `ownSignedOffer` and `ownSignedAttachmentLease`
write the same ones. -/
def Signed.wire (self : Signed α) : Bytes :=
  self.transcript ++ (self.signer.val ++ self.signature.val)

def readSigned (read : Reader α) (bytes : Bytes) : Except DecodeError (Signed α) := do
  let (body, rest) ← read bytes
  let transcript := bytes.take (bytes.length - rest.length)
  let (signer, rest) ← fixed publicKeyLen rest
  let (signature, rest) ← fixed signatureLen rest
  if rest.length ≠ 0 then throw .trailingBytes
  else pure { body, signer, signature, transcript }

theorem fixed_ok {n : Nat} {xs rest : Bytes} {x : FixedBytes n} (h : fixed n xs = .ok (x, rest)) :
    xs = x.val ++ rest := by
  obtain ⟨field, mid, hfield, hx⟩ := cursor_bind_ok (f := fun a => pure (FixedBytes.ofSlice n a)) h
  obtain ⟨rfl, rfl⟩ := cursor_pure_ok hx
  unfold Reader.take takeBytes at hfield
  split_ifs at hfield with hlong
  cases hfield
  have hlength : (xs.take n).length = n := List.length_take_of_le (by omega)
  rw [FixedBytes.ofSlice_val ⟨xs.take n, hlength⟩]
  exact (List.take_append_drop n xs).symm

theorem readSigned_wire {read : Reader α} (hread : LeavesEnd read) {bytes : Bytes}
    {signed : Signed α} (h : readSigned read bytes = .ok signed) : signed.wire = bytes := by
  obtain ⟨⟨body, rest⟩, hbody, h⟩ := bind_ok h
  obtain ⟨⟨signer, afterSigner⟩, hsigner, h⟩ := bind_ok h
  obtain ⟨⟨signature, afterSignature⟩, hsignature, h⟩ := bind_ok h
  simp only at h
  split_ifs at h with hempty
  have hnil : afterSignature = [] := List.length_eq_zero_iff.mp (not_not.mp hempty)
  obtain ⟨used, rfl⟩ := hread bytes body rest hbody
  rw [← ok.inj h, Signed.wire]
  have hused : (used ++ rest).take ((used ++ rest).length - rest.length) = used := by
    rw [List.length_append, Nat.add_sub_cancel, List.take_left]
  rw [hused, fixed_ok hsigner, fixed_ok hsignature, hnil, List.append_nil]

/-- A decoded OFFER. Its own octets decode to it. -/
structure SignedOffer extends Signed Offer where
  fits : toSigned.wire.length ≤ maxSignedPayloadLen
  decodes : readSigned readOffer toSigned.wire = .ok toSigned

abbrev SignedOffer.offer (self : SignedOffer) : Offer := self.body
abbrev SignedOffer.wire (self : SignedOffer) : Bytes := self.toSigned.wire

theorem SignedOffer.ext_signed {a b : SignedOffer} (h : a.toSigned = b.toSigned) : a = b := by
  cases a
  cases b
  cases h
  rfl

instance : DecidableEq SignedOffer := fun a b =>
  decidable_of_iff (a.toSigned = b.toSigned) ⟨SignedOffer.ext_signed, congrArg _⟩

def decodeOffer (bytes : Bytes) : Except DecodeError SignedOffer :=
  if hlong : maxSignedPayloadLen < bytes.length then .error .tooLong
  else
    match h : readSigned readOffer bytes with
    | .error e => .error e
    | .ok signed =>
      have hwire := readSigned_wire readOffer_leaves h
      .ok { signed with fits := hwire ▸ Nat.le_of_not_lt hlong, decodes := hwire.symm ▸ h }

theorem decodeOffer_wire (signed : SignedOffer) : decodeOffer signed.wire = .ok signed := by
  unfold decodeOffer
  rw [dif_neg (Nat.not_lt.mpr signed.fits)]
  split
  · next e h =>
    rw [signed.decodes] at h
    cases h
  · next s h =>
    rw [signed.decodes] at h
    exact congrArg Except.ok (SignedOffer.ext_signed (ok.inj h).symm)

theorem checkShape_answers (offer : Offer) :
    Answers (fun o => validateOfferShape o = .ok ()) (checkShape offer) := by
  intro xs answer rest h
  cases hshape : validateOfferShape offer with
  | ok _ =>
    rw [checkShape, hshape] at h
    rw [(cursor_pure_ok h).1, hshape]
  | error e =>
    rw [checkShape, hshape] at h
    cases h

theorem readOffer_shape : Answers (fun o => validateOfferShape o = .ok ()) readOffer :=
  .bind fun _ => .bind fun _ => .bind fun _ => .bind fun _ => .bind fun _ => .bind fun _ =>
    .bind fun _ =>
  .bind fun _ => .bind fun _ => .bind fun _ => .bind fun _ => .bind fun _ => .bind fun _ =>
    .bind fun _ =>
  .bind fun _ => .bind fun _ => .bind fun _ => checkShape_answers _

theorem SignedOffer.shape (signed : SignedOffer) : validateOfferShape signed.offer = .ok () := by
  obtain ⟨⟨body, rest⟩, hbody, h⟩ := bind_ok signed.decodes
  obtain ⟨⟨signer, afterSigner⟩, -, h⟩ := bind_ok h
  obtain ⟨⟨signature, afterSignature⟩, -, h⟩ := bind_ok h
  simp only at h
  split_ifs at h
  · have hsigned := congrArg Signed.body (ok.inj h)
    rw [SignedOffer.offer, ← hsigned]
    exact readOffer_shape _ _ _ hbody

inductive VerifyError where
  | badSignature
  | originMismatch
  | transcriptMismatch
  deriving DecidableEq

def verifyOffer (crypto : Crypto) (signed : SignedOffer) : Except VerifyError Unit :=
  match readOffer signed.transcript with
  | .error _ => .error .transcriptMismatch
  | .ok (projected, rest) =>
    if rest.length ≠ 0 ∨ projected ≠ signed.offer then .error .transcriptMismatch
    else if crypto.originShortId signed.signer ≠ signed.offer.revision.originNode then
      .error .originMismatch
    else if !crypto.verifyCtx offerSignDomain signed.transcript signed.signature signed.signer then
      .error .badSignature
    else .ok ()

structure AttachmentLease where
  token : Token
  revision : Revision
  issuedAtMs : Int64
  expiresAtMs : Int64
  deriving DecidableEq

def validateAttachmentLeaseShape (lease : AttachmentLease) : Bool :=
  !(lease.revision.originNode == 0 || !lease.revision.isCanonical) &&
    !(decide (lease.issuedAtMs < 0) || decide (lease.expiresAtMs < lease.issuedAtMs))

def readAttachmentLease : Reader AttachmentLease := do
  expect attachmentLeaseMagic
  let token ← fixed 16
  let revision ← readRevision
  let issuedAtMs ← readI64
  let expiresAtMs ← readI64
  let lease : AttachmentLease := { token, revision, issuedAtMs, expiresAtMs }
  if validateAttachmentLeaseShape lease then pure lease else throw .invalidAttachmentLease

theorem readAttachmentLease_leaves : LeavesEnd readAttachmentLease := by
  refine (expect_leaves _).bind fun _ => (fixed_leaves 16).bind fun _ =>
    readRevision_leaves.bind fun _ =>
    readI64_leaves.bind fun _ => readI64_leaves.bind fun _ => ?_
  simp only
  split
  · exact leavesEnd_pure _
  · exact leavesEnd_throw _

/-- A decoded lease. Its own octets decode to it. -/
structure SignedAttachmentLease extends Signed AttachmentLease where
  decodes : readSigned readAttachmentLease toSigned.wire = .ok toSigned

abbrev SignedAttachmentLease.lease (self : SignedAttachmentLease) : AttachmentLease := self.body
abbrev SignedAttachmentLease.wire (self : SignedAttachmentLease) : Bytes := self.toSigned.wire

theorem SignedAttachmentLease.ext_signed {a b : SignedAttachmentLease}
    (h : a.toSigned = b.toSigned) :
    a = b := by
  cases a
  cases b
  cases h
  rfl

instance : DecidableEq SignedAttachmentLease := fun a b =>
  decidable_of_iff (a.toSigned = b.toSigned) ⟨SignedAttachmentLease.ext_signed, congrArg _⟩

def decodeAttachmentLease (bytes : Bytes) : Except DecodeError SignedAttachmentLease :=
  match h : readSigned readAttachmentLease bytes with
  | .error e => .error e
  | .ok signed =>
    .ok { signed with decodes := (readSigned_wire readAttachmentLease_leaves h).symm ▸ h }

theorem decodeAttachmentLease_wire (signed : SignedAttachmentLease) :
    decodeAttachmentLease signed.wire = .ok signed := by
  unfold decodeAttachmentLease
  split
  · next e h =>
    rw [signed.decodes] at h
    cases h
  · next s h =>
    rw [signed.decodes] at h
    exact congrArg Except.ok (SignedAttachmentLease.ext_signed (ok.inj h).symm)

def verifyAttachmentLease (crypto : Crypto) (signed : SignedAttachmentLease) :
    Except VerifyError Unit :=
  match readAttachmentLease signed.transcript with
  | .error _ => .error .transcriptMismatch
  | .ok (projected, rest) =>
    if rest.length ≠ 0 ∨ projected ≠ signed.lease then .error .transcriptMismatch
    else if crypto.originShortId signed.signer ≠ signed.lease.revision.originNode then
      .error .originMismatch
    else if !crypto.verifyCtx attachmentLeaseSignDomain signed.transcript signed.signature
      signed.signer then
      .error .badSignature
    else .ok ()

def tokenEql (a b : Token) : Bool := decide (a = b)

@[simp] theorem tokenEql_iff {a b : Token} : tokenEql a b = true ↔ a = b := decide_eq_true_iff

def digestBytes (crypto : Crypto) (bytes : Bytes) : Digest := crypto.blake3 bytes

/-- The hash of the account with its case folded. -/
def accountDigest (crypto : Crypto) (account : Bytes) : Digest :=
  crypto.blake3 (lowerString account)

end OnyxServer.SessionReplica
