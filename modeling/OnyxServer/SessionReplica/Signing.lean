import OnyxServer.SessionReplica.Store

/-!
# Signing

How an OFFER and an attachment lease are written and signed. What a node signs, every node
decodes to the same object, and it verifies under the key that signed it.
-/
namespace OnyxServer.SessionReplica

open Lib Text

/-- A key pair of the signature scheme. -/
structure KeyPair where
  publicKey : PublicKey
  signCtx : Bytes → Bytes → Signature

/-- What the pair signs, its public key verifies. -/
def KeyPair.Genuine (crypto : Crypto) (kp : KeyPair) : Prop :=
  ∀ domain bytes, crypto.verifyCtx domain bytes (kp.signCtx domain bytes) kp.publicKey = true

inductive EncodeError where
  | shape (e : ShapeError)
  | invalidAttachmentLease
  | originMismatch
  | tooLong
  deriving DecidableEq

def OfferOperation.toByte : OfferOperation → UInt8
  | .upsert => 1
  | .remove => 2
  | .inventoryUpsert => 3
  | .groupRevoke => 4

def writeRevision (revision : Revision) : Bytes :=
  beBytes 8 revision.epoch.toNat ++
    (beBytes 8 revision.sequence.toNat ++ beBytes 8 revision.originNode.toNat)

def writeResumeEligible (offer : Offer) : Bytes :=
  if offer.operation = .inventoryUpsert then [if offer.resumeEligible = some true then 1 else 0]
    else []

def writeInventoryCount (offer : Offer) : Bytes :=
  if offer.operation = .inventoryUpsert then beBytes 2 (offer.inventory.length / inventoryRowLen)
    else []

def Offer.transcript (offer : Offer) : Bytes :=
  offerMagic ++ ([offer.operation.toByte] ++ (offer.token.val ++ (writeRevision offer.revision ++
    (i64Bytes offer.issuedAtMs ++ (i64Bytes offer.expiresAtMs ++ (beBytes 2 offer.account.length ++
    (beBytes 2 offer.nick.length ++
      (beBytes 4 offer.snapshot.length ++ (writeResumeEligible offer ++
    (writeInventoryCount offer ++
      (offer.account ++ (offer.nick ++ (offer.snapshot ++ offer.inventory)))))))))))))

def encodeOffer (crypto : Crypto) (kp : KeyPair) (offer : Offer) : Except EncodeError Bytes :=
  match validateOfferShape offer with
  | .error e => .error (.shape e)
  | .ok () =>
    if crypto.originShortId kp.publicKey ≠ offer.revision.originNode then .error .originMismatch
    else if maxSignedPayloadLen < offer.transcript.length + signatureWireLen then .error .tooLong
    else .ok
      (offer.transcript ++ (kp.publicKey.val ++ (kp.signCtx offerSignDomain offer.transcript).val))

def AttachmentLease.transcript (lease : AttachmentLease) : Bytes :=
  attachmentLeaseMagic ++ (lease.token.val ++ (writeRevision lease.revision ++
    (i64Bytes lease.issuedAtMs ++ i64Bytes lease.expiresAtMs)))

def encodeAttachmentLease (crypto : Crypto) (kp : KeyPair) (lease : AttachmentLease) :
    Except EncodeError Bytes :=
  if !validateAttachmentLeaseShape lease then .error .invalidAttachmentLease
  else if crypto.originShortId kp.publicKey ≠ lease.revision.originNode then .error .originMismatch
  else .ok (lease.transcript ++
    (kp.publicKey.val ++ (kp.signCtx attachmentLeaseSignDomain lease.transcript).val))

namespace Reader

variable {n : Nat}

theorem takes_take {field : Bytes} (h : field.length = n) : Takes (take n) field field :=
  takes_takeBytes h

theorem takes_fixed (x : FixedBytes n) : Takes (fixed n) x.val x := by
  have hread := (takes_take x.property).map (FixedBytes.ofSlice n)
  rw [FixedBytes.ofSlice_val] at hread
  exact hread

theorem takes_readByte (b : UInt8) : Takes readByte [b] b := by
  have htake : Takes (take 1) [b] [b] := takes_take rfl
  exact htake.map fun bytes => bytes.headD 0

theorem takes_readU16 (h : n < 2 ^ 16) : Takes readU16 (beBytes 2 n) n := by
  have hread := (takes_take (beBytes_length 2 n)).map beNat
  rw [beNat_beBytes h] at hread
  exact hread

theorem takes_readU32 (h : n < 2 ^ 32) : Takes readU32 (beBytes 4 n) n := by
  have hread := (takes_take (beBytes_length 4 n)).map beNat
  rw [beNat_beBytes h] at hread
  exact hread

theorem takes_readU64 (n : UInt64) : Takes readU64 (beBytes 8 n.toNat) n := by
  have hread := (takes_take (beBytes_length 8 n.toNat)).map fun bytes => UInt64.ofNat (beNat bytes)
  rw [u64_read] at hread
  exact hread

theorem takes_readI64 (a : Int64) : Takes readI64 (i64Bytes a) a := by
  have hread := (takes_take (i64Bytes_length a)).map i64OfBytes
  rw [i64_read] at hread
  exact hread

theorem takes_readRevision (revision : Revision) :
    Takes readRevision (writeRevision revision) revision := by
  change Reads readRevision _ (.ok revision)
  exact (takes_readU64 revision.epoch).then ((takes_readU64 revision.sequence).then
    ((takes_readU64 revision.originNode).last fun _ => rfl))

theorem takes_expect (magic : Bytes) : Takes (expect magic) magic () := by
  change Reads (expect magic) magic (.ok ())
  refine (takes_take rfl).last ?_
  rw [if_pos rfl]
  exact fun _ => rfl

end Reader

open Reader

theorem takes_readOperation (operation : OfferOperation) :
    Takes readOperation [operation.toByte] operation := by
  change Reads readOperation _ (.ok operation)
  refine (takes_readByte operation.toByte).last ?_
  cases operation <;> exact fun _ => rfl

theorem takes_limit {long : Bool} (h : long = false) : Takes (limit long) [] () := by
  rw [h]
  exact fun _ => rfl

variable {offer : Offer}

section

variable (h : validateOfferShape offer = .ok ())
include h

/-- What the shape of an OFFER says of its lengths and of its attachments. -/
theorem validateOfferShape_lengths :
    offer.account.length ≤ maxAccountLen ∧ offer.nick.length ≤ maxNickLen ∧
      offer.snapshot.length ≤ maxSnapshotLen := by
  unfold validateOfferShape at h
  split at h
  · cases h
  split at h
  · cases h
  split at h
  · cases h
  · next hlengths =>
    push Not at hlengths
    exact hlengths

theorem validateOfferShape_attachments :
    (offer.operation = .inventoryUpsert ∧ offer.resumeEligible ≠ none ∧
      validInventory offer.inventory = true) ∨
      (offer.operation ≠ .inventoryUpsert ∧ offer.resumeEligible = none ∧
        offer.inventory = []) := by
  unfold validateOfferShape at h
  iterate 3
    split at h
    · cases h
  split at h
  · cases h
  rename_i hflag
  cases hop : offer.operation with
  | inventoryUpsert =>
    rw [hop] at h
    simp only at h
    split at h
    · cases h
    split at h
    · cases h
    rename_i hresume
    iterate 3
      split at h
      · cases h
    split_ifs at h
    · next hinventory =>
        exact .inl ⟨rfl, fun hnone => hresume ⟨trivial, hnone⟩, by simpa using hinventory⟩
  | upsert =>
    rw [hop] at h hflag
    simp only at h
    iterate 4
      split at h
      · cases h
    split at h
    · cases h
    · next hinventory =>
      refine .inr ⟨nofun, by simpa using hflag, ?_⟩
      simpa [hop] using hinventory
  | remove =>
    rw [hop] at h hflag
    simp only at h
    split_ifs at h
    · next hempty =>
      push Not at hempty
      exact .inr ⟨nofun, by simpa using hflag, List.length_eq_zero_iff.mp hempty.2.2.2⟩
  | groupRevoke =>
    rw [hop] at h hflag
    simp only at h
    split_ifs at h
    · next hempty =>
      push Not at hempty
      exact .inr ⟨nofun, by simpa using hflag, List.length_eq_zero_iff.mp hempty.2.2.2.2⟩

theorem takes_readResumeEligible :
    Takes (readResumeEligible offer.operation)
    (writeResumeEligible offer) offer.resumeEligible := by
  unfold readResumeEligible writeResumeEligible
  rcases validateOfferShape_attachments h with ⟨hop, hflag, -⟩ | ⟨hop, hflag, -⟩
  · rw [if_pos hop, if_pos hop]
    change Reads _ _ (.ok offer.resumeEligible)
    refine (takes_readByte _).last ?_
    cases hresume : offer.resumeEligible with
    | none => exact absurd hresume hflag
    | some flag => cases flag <;> exact fun _ => rfl
  · rw [if_neg hop, if_neg hop, hflag]
    exact fun _ => rfl

/-- An inventory is a number of rows, and no more than are allowed. -/
theorem inventory_rows :
    offer.inventory.length / inventoryRowLen ≤ maxInventoryAttachments ∧
      offer.inventory.length = offer.inventory.length / inventoryRowLen * inventoryRowLen := by
  rcases validateOfferShape_attachments h with ⟨-, -, hvalid⟩ | ⟨-, -, hempty⟩
  · simp only [validInventory, Bool.and_eq_true, decide_eq_true_eq] at hvalid
    exact ⟨hvalid.1.2, (Nat.div_mul_cancel (Nat.dvd_of_mod_eq_zero hvalid.1.1)).symm⟩
  · rw [hempty]
    exact ⟨Nat.zero_le _, rfl⟩

theorem takes_readInventoryCount :
    Takes (readInventoryCount offer.operation) (writeInventoryCount offer)
      (offer.inventory.length / inventoryRowLen) := by
  obtain ⟨hrows, -⟩ := inventory_rows h
  unfold readInventoryCount writeInventoryCount
  rcases validateOfferShape_attachments h with ⟨hop, -⟩ | ⟨hop, -, hempty⟩
  · rw [if_pos hop, if_pos hop]
    exact takes_readU16 (by simp only [maxInventoryAttachments] at hrows; omega)
  · rw [if_neg hop, if_neg hop, hempty]
    exact fun _ => rfl

/-- An OFFER of the right shape is read as it was written. -/
theorem takes_readOffer :
    Takes readOffer offer.transcript offer := by
  obtain ⟨haccount, hnick, hsnapshot⟩ := validateOfferShape_lengths h
  obtain ⟨hrows, hinventory⟩ := inventory_rows h
  have hsnapshotBound : maxSnapshotLen < 2 ^ 32 := by decide
  have hfirst : decide (maxAccountLen < offer.account.length ∨ maxNickLen < offer.nick.length ∨
      maxSnapshotLen < offer.snapshot.length) = false := by
    rw [decide_eq_false_iff_not]
    omega
  have hsecond :
      decide (maxInventoryAttachments < offer.inventory.length / inventoryRowLen) = false :=
    decide_eq_false (not_lt.mpr hrows)
  change Reads readOffer _ (.ok offer)
  refine (takes_expect offerMagic).then ((takes_readOperation _).then ((takes_fixed _).then
    ((takes_readRevision _).then ((takes_readI64 _).then ((takes_readI64 _).then
    ((takes_readU16 (by simp only [maxAccountLen] at haccount; omega)).then
    ((takes_readU16 (by simp only [maxNickLen] at hnick; omega)).then
    ((takes_readU32 (hsnapshot.trans_lt hsnapshotBound)).then ?_))))))))
  refine (takes_limit hfirst).then ?_
  refine (takes_readResumeEligible h).then ((takes_readInventoryCount h).then ?_)
  refine (takes_limit hsecond).then ?_
  refine (takes_take rfl).then
    ((takes_take rfl).then ((takes_take rfl).then ((takes_take hinventory).last ?_)))
  rw [checkShape, h]
  exact fun _ => rfl

end

variable {lease : AttachmentLease}

theorem takes_readAttachmentLease (h : validateAttachmentLeaseShape lease = true) :
    Takes readAttachmentLease lease.transcript lease := by
  change Reads readAttachmentLease _ (.ok lease)
  refine (takes_expect attachmentLeaseMagic).then ((takes_fixed _).then ((takes_readRevision _).then
    ((takes_readI64 _).then ((takes_readI64 _).last ?_))))
  simp only
  rw [if_pos h]
  exact fun _ => rfl

variable {α : Type} {crypto : Crypto} {kp : KeyPair} {bytes : Bytes}

theorem readSigned_written {read : Reader α} {transcript : Bytes} {body : α}
    (hread : Takes read transcript body) (signer : PublicKey) (signature : Signature) :
    readSigned read (transcript ++ (signer.val ++ signature.val)) =
      .ok ⟨body, signer, signature, transcript⟩ := by
  have hsigner : fixed publicKeyLen (signer.val ++ signature.val) = .ok (signer, signature.val) :=
    takes_fixed signer signature.val
  have hsignature : fixed signatureLen signature.val = .ok (signature, []) := by
    have h := takes_fixed signature []
    rw [List.append_nil] at h
    exact h
  have htranscript : (transcript ++ (signer.val ++ signature.val)).take
      ((transcript ++ (signer.val ++ signature.val)).length -
        (signer.val ++ signature.val).length) = transcript := by
    rw [List.length_append, Nat.add_sub_cancel, List.take_left]
  unfold readSigned
  rw [hread]
  change (fixed publicKeyLen (signer.val ++ signature.val) >>= fun p => _) = _
  rw [hsigner]
  change (fixed signatureLen signature.val >>= fun p => _) = _
  rw [hsignature]
  exact congrArg (fun t => Except.ok (Signed.mk body signer signature t)) htranscript

/-- An OFFER with a signature. -/
def Offer.signedBy (offer : Offer) (signer : PublicKey) (signature : Signature)
    (hshape : validateOfferShape offer = .ok ())
    (hfits : offer.transcript.length + signatureWireLen ≤ maxSignedPayloadLen) : SignedOffer where
  body := offer
  signer := signer
  signature := signature
  transcript := offer.transcript
  fits := by
    rw [Signed.wire, List.length_append, List.length_append, signer.property, signature.property]
    exact hfits
  decodes := readSigned_written (takes_readOffer hshape) signer signature

/-- A lease with a signature. -/
def AttachmentLease.signedBy (lease : AttachmentLease) (signer : PublicKey) (signature : Signature)
    (hshape : validateAttachmentLeaseShape lease = true) : SignedAttachmentLease where
  body := lease
  signer := signer
  signature := signature
  transcript := lease.transcript
  decodes := readSigned_written (takes_readAttachmentLease hshape) signer signature

theorem verifyOffer_signedBy {signer : PublicKey} {signature : Signature}
    {hshape : validateOfferShape offer = .ok ()}
    {hfits : offer.transcript.length + signatureWireLen ≤ maxSignedPayloadLen}
    (horigin : crypto.originShortId signer = offer.revision.originNode)
    (hvalid : crypto.verifyCtx offerSignDomain offer.transcript signature signer = true) :
    verifyOffer crypto (offer.signedBy signer signature hshape hfits) = .ok () := by
  have hread : readOffer offer.transcript = .ok (offer, []) := by
    have h := takes_readOffer hshape []
    rw [List.append_nil] at h
    exact h
  simp only [verifyOffer, Offer.signedBy, SignedOffer.offer, hread, horigin, hvalid,
    List.length_nil, ne_eq, not_true_eq_false, or_self, if_false, Bool.not_true, Bool.false_eq_true]

theorem verifyAttachmentLease_signedBy {signer : PublicKey} {signature : Signature}
    {hshape : validateAttachmentLeaseShape lease = true}
    (horigin : crypto.originShortId signer = lease.revision.originNode)
    (hvalid : crypto.verifyCtx attachmentLeaseSignDomain lease.transcript signature signer = true) :
    verifyAttachmentLease crypto (lease.signedBy signer signature hshape) = .ok () := by
  have hread : readAttachmentLease lease.transcript = .ok (lease, []) := by
    have h := takes_readAttachmentLease hshape []
    rw [List.append_nil] at h
    exact h
  simp only [verifyAttachmentLease, AttachmentLease.signedBy, SignedAttachmentLease.lease, hread,
    horigin, hvalid,
    List.length_nil, ne_eq, not_true_eq_false, or_self, if_false, Bool.not_true, Bool.false_eq_true]

/-- What a node encodes, every node decodes to the OFFER that was meant, and it verifies. -/
theorem encodeOffer_decodes (h : encodeOffer crypto kp offer = .ok bytes) :
    ∃ signed, decodeOffer bytes = .ok signed ∧ signed.offer = offer ∧
      (kp.Genuine crypto → verifyOffer crypto signed = .ok ()) := by
  unfold encodeOffer at h
  split at h
  · cases h
  rename_i hshape
  split at h
  · cases h
  rename_i horigin
  split at h
  · cases h
  rename_i hfits
  refine ⟨offer.signedBy kp.publicKey (kp.signCtx offerSignDomain offer.transcript) hshape
    (not_lt.mp hfits), ?_, rfl, fun hgenuine => ?_⟩
  · rw [← Except.ok.inj h]
    exact decodeOffer_wire (offer.signedBy _ _ hshape (not_lt.mp hfits))
  · exact verifyOffer_signedBy (not_not.mp horigin) (hgenuine _ _)

theorem encodeAttachmentLease_decodes
    (h : encodeAttachmentLease crypto kp lease = .ok bytes) :
    ∃ signed, decodeAttachmentLease bytes = .ok signed ∧ signed.lease = lease ∧
      (kp.Genuine crypto → verifyAttachmentLease crypto signed = .ok ()) := by
  unfold encodeAttachmentLease at h
  split_ifs at h with hshape horigin
  refine ⟨lease.signedBy kp.publicKey (kp.signCtx attachmentLeaseSignDomain lease.transcript)
    (by simpa using hshape), ?_, rfl, fun hgenuine => ?_⟩
  · rw [← Except.ok.inj h]
    exact decodeAttachmentLease_wire (lease.signedBy _ _ (by simpa using hshape))
  · exact verifyAttachmentLease_signedBy (not_not.mp horigin) (hgenuine _ _)

/-- A scheme for examples: a polynomial hash, the first octet of a key as its node, and every
signature good. -/
def sampleCrypto : Crypto where
  blake3 bytes :=
    FixedBytes.ofSlice 32 (beBytes 32 (bytes.foldl (fun hash b => hash * 257 + b.toNat + 1) 0))
  originShortId key := (key.val.headD 0).toUInt64
  verifyCtx _ _ _ _ := true

/-- The key of node 1. -/
def sampleKey : PublicKey := FixedBytes.ofSlice 32 [1]
def sampleSignature : Signature := FixedBytes.ofSlice 64 []
def sampleToken : Token := FixedBytes.ofSlice 16 [7]

def sampleRevision (epoch : UInt64) : Revision := ⟨epoch, epoch <<< 16, 1⟩

def sampleOffer (account : Bytes) (epoch : UInt64) (issuedAtMs expiresAtMs : Int64) : Offer where
  operation := .upsert
  token := sampleToken
  revision := sampleRevision epoch
  issuedAtMs := issuedAtMs
  expiresAtMs := expiresAtMs
  account := account
  nick := [110]
  snapshot := [115]
  inventory := []
  resumeEligible := none

def sampleRevoke (epoch : UInt64) (issuedAtMs expiresAtMs : Int64) : Offer where
  operation := .remove
  token := sampleToken
  revision := sampleRevision epoch
  issuedAtMs := issuedAtMs
  expiresAtMs := expiresAtMs
  account := []
  nick := []
  snapshot := []
  inventory := []
  resumeEligible := none

def sampleUpsert : SignedOffer :=
  (sampleOffer [97] 5 5 105).signedBy sampleKey sampleSignature (by decide) (by decide)

def sampleRemove : SignedOffer :=
  (sampleRevoke 6 6 106).signedBy sampleKey sampleSignature (by decide) (by decide)

def sampleConfig : Config where
  maxEntries := 2
  maxAttachmentLeases := 2
  maxRoutes := 2
  maxTombstones := 2
  maxQuarantines := 1
  maxGroupRevocations := 2
  maxOfferLifetimeMs := 1000
  maxAttachmentLeaseLifetimeMs := 1000
  maxFutureSkewMs := 10
  routeTtlMs := 100
  tombstoneTtlMs := 100
  maxAccountBytes := 64
  maxNickBytes := 64
  maxSnapshotBytes := 64

def sampleKeyPair : KeyPair := ⟨sampleKey, fun _ _ => sampleSignature⟩

theorem encodeOffer_decodes_sample : ∃ signed, signed.offer = sampleOffer [97] 5 5 105 ∧
    verifyOffer sampleCrypto signed = .ok () := by
  obtain ⟨signed, -, hoffer, hverify⟩ := encodeOffer_decodes
    (show encodeOffer sampleCrypto sampleKeyPair (sampleOffer [97] 5 5 105) = .ok _ from rfl)
  exact ⟨signed, hoffer, hverify fun _ _ => rfl⟩

theorem encodeAttachmentLease_decodes_sample : ∃ signed,
    signed.lease = ⟨sampleToken, sampleRevision 7, 5, 105⟩ ∧
    verifyAttachmentLease sampleCrypto signed = .ok () := by
  obtain ⟨signed, -, hlease, hverify⟩ := encodeAttachmentLease_decodes
    (show encodeAttachmentLease sampleCrypto sampleKeyPair ⟨sampleToken, sampleRevision 7, 5, 105⟩ =
      .ok _ from rfl)
  exact ⟨signed, hlease, hverify fun _ _ => rfl⟩

end OnyxServer.SessionReplica
