import OnyxServer.SessionReplica.Apply

/-!
# Upgrade checkpoints

The SRST image, version 3: a header with the capture time and the five counts, the rows with
their exact wires, and a checksum over all of it. A restore decodes into a fresh store,
checks every record against the capture time, and sweeps at the restore time.
-/
namespace OnyxServer.SessionReplica

open Lib Text

/-- "SRST" -/
def upgradeCheckpointMagic : Bytes := [0x53, 0x52, 0x53, 0x54]
def upgradeCheckpointVersion : UInt8 := 3
def upgradeCheckpointChecksumLen : Nat := 32
def upgradeCheckpointV1HeaderLen : Nat := 4 + 1 + 8 + 4 + 4 + 4
def maxU32 : Nat := 2 ^ 32 - 1

inductive UpgradeCheckpointError where
  | badMagic
  | unsupportedVersion
  | truncated
  | trailingBytes
  | checksumMismatch
  | capacityExceeded
  | duplicateState
  | invalidMetadata
  | invalidSignedObject
  | tooLarge
  | outOfMemory
  deriving DecidableEq

def encodeWire (wire : Bytes) : Bytes := beBytes 4 wire.length ++ wire

def encodeOptionalI64 : Option Int64 → Bytes
  | none => [0]
  | some value => 1 :: i64Bytes value

def encodeOptionalDigest : Option Digest → Bytes
  | none => [0]
  | some digest => 1 :: digest.val

def Entry.encode (self : Entry) : Bytes :=
  encodeWire self.wire.wire ++
    (i64Bytes self.updatedAtMs ++ encodeOptionalI64 self.quarantineUntilMs)

def Tombstone.encode (self : Tombstone) : Bytes :=
  encodeWire self.wire.wire ++ (i64Bytes self.removedAtMs ++
    (encodeOptionalDigest self.identityDigest ++ encodeOptionalI64 self.quarantineUntilMs))

def Quarantine.encode (self : Quarantine) : Bytes :=
  encodeWire self.firstWire.wire ++ (encodeWire self.secondWire.wire ++
    (i64Bytes self.expiresAtMs ++ i64Bytes self.detectedAtMs))

def AttachmentLeaseEntry.encode (self : AttachmentLeaseEntry) : Bytes :=
  encodeWire self.wire.wire ++
    match self.conflictWire with
    | some wire => (if self.conflicted then 1 else 0) :: encodeWire wire.wire
    | none => [if self.conflicted then 2 else 0]

def GroupRevocation.encode (self : GroupRevocation) : Bytes := encodeWire self.wire.wire

namespace Store

variable (crypto : Crypto) (self : Store)

def counts : List Nat :=
  [HashMap.count self.entries, HashMap.count self.tombstones, HashMap.count self.quarantines,
    HashMap.count self.attachmentLeases, HashMap.count self.groupRevocations]

def encodeHeader (capturedAtMs : Int64) : Bytes :=
  upgradeCheckpointMagic ++ (upgradeCheckpointVersion :: (i64Bytes capturedAtMs ++
    self.counts.flatMap (beBytes 4)))

def encodeRecords : Bytes :=
  self.entries.entries.flatMap (fun slot => slot.2.encode) ++
    (self.tombstones.entries.flatMap (fun slot => slot.2.encode) ++
    (self.quarantines.entries.flatMap (fun slot => slot.2.encode) ++
    (self.attachmentLeases.entries.flatMap (fun slot => slot.2.encode) ++
    self.groupRevocations.entries.flatMap (fun slot => slot.2.encode))))

/-- Every wire the image holds. -/
def checkpointWires : List Bytes :=
  self.entries.entries.map (fun slot => slot.2.wire.wire) ++
    (self.tombstones.entries.map (fun slot => slot.2.wire.wire) ++
    (self.quarantines.entries.flatMap
      (fun slot => [slot.2.firstWire.wire, slot.2.secondWire.wire]) ++
    (self.attachmentLeases.entries.flatMap (fun slot =>
      slot.2.wire.wire :: (slot.2.conflictWire.map SignedAttachmentLease.wire).toList) ++
    self.groupRevocations.entries.map (fun slot => slot.2.wire.wire))))

def encodeUpgradeCheckpoint (capturedAtMs : Int64) (alloc : Allocator) :
    Except UpgradeCheckpointError Bytes :=
  if capturedAtMs < 0 then .error .invalidMetadata
  else if self.counts.any (fun count => decide (maxU32 < count)) then .error .tooLarge
  else
    let body := self.encodeHeader capturedAtMs ++ self.encodeRecords
    if usizeLimit ≤ body.length + upgradeCheckpointChecksumLen then .error .tooLarge
    else if !alloc 0 then .error .outOfMemory
    else if self.checkpointWires.any
      (fun wire => decide (wire.length = 0 ∨ maxU32 < wire.length)) then
      .error .tooLarge
    else .ok (body ++ (digestBytes crypto body).val)

end Store

abbrev CheckpointReader := Cursor UpgradeCheckpointError

namespace CheckpointReader

def take (n : Nat) : CheckpointReader Bytes := takeBytes .truncated n
def readByte : CheckpointReader UInt8 := (fun bytes => bytes.headD 0) <$> take 1
def readU32 : CheckpointReader Nat := beNat <$> take 4
def readI64 : CheckpointReader Int64 := i64OfBytes <$> take 8

/-- A check that reads nothing. -/
def check {α : Type} (answer : Except UpgradeCheckpointError α) : CheckpointReader α :=
  fun rest => answer.map fun a => (a, rest)

def readWire : CheckpointReader Bytes := do
  let len ← readU32
  if len = 0 ∨ maxSignedPayloadLen < len then throw .invalidMetadata else take len

def readOptionalI64 : CheckpointReader (Option Int64) := do
  match ← readByte with
  | 0 => pure none
  | 1 => some <$> readI64
  | _ => throw .invalidMetadata

def readOptionalDigest : CheckpointReader (Option Digest) := do
  match ← readByte with
  | 0 => pure none
  | 1 => (fun bytes => some (FixedBytes.ofSlice 32 bytes)) <$> take 32
  | _ => throw .invalidMetadata

/-- The tag of a lease and, with a portable conflict, its second wire. -/
def readConflict : CheckpointReader (Bool × Option Bytes) := do
  match ← readByte with
  | 0 => pure (false, none)
  | 1 => (fun wire => (true, some wire)) <$> readWire
  | 2 => pure (true, none)
  | _ => throw .invalidMetadata

/-- `count` records, each with the number of the record it is. -/
def readRecords (read : Nat → Store → CheckpointReader Store) :
    Nat → Nat → Store → CheckpointReader Store
  | 0, _, self => pure self
  | count + 1, site, self => do
    let self ← read site self
    readRecords read count (site + 1) self

end CheckpointReader

def checkpointTimeAtOrBefore (valueMs limitMs : Int64) : Bool :=
  decide (0 ≤ valueMs ∧ valueMs ≤ limitMs)

def checkpointTimeNearCapture (valueMs capturedAtMs : Int64) (maxFutureSkewMs : Nat) : Bool :=
  decide (valueMs.toInt ≤ capturedAtMs.toInt + maxFutureSkewMs)

def checkpointOptionalUntilValid (untilMs : Option Int64) (expiresAtMs : Int64) : Bool :=
  untilMs.all fun value => checkpointTimeAtOrBefore value expiresAtMs

/-- Whether a record of the image may hold this operation. -/
def OfferOperation.restoresAs (found expected : OfferOperation) : Bool :=
  found == expected || (expected == .upsert && found == .inventoryUpsert)

/-- The span and the clock bounds of a lease in an image. -/
def checkpointLeaseValid (cfg : Config) (lease : AttachmentLease) (capturedAtMs : Int64) : Bool :=
  let lifetime := lease.expiresAtMs.toInt - lease.issuedAtMs.toInt
  let latest := capturedAtMs.toInt + cfg.maxFutureSkewMs
  decide (0 ≤ lease.issuedAtMs ∧ 0 ≤ lifetime ∧ lifetime ≤ cfg.maxAttachmentLeaseLifetimeMs ∧
    lease.issuedAtMs.toInt ≤ lease.revision.epoch.toNat ∧ lease.issuedAtMs.toInt ≤ latest ∧
    (lease.revision.epoch.toNat : Int) ≤ latest)

def verifiedLease (crypto : Crypto) (bytes : Bytes) :
    Except UpgradeCheckpointError SignedAttachmentLease :=
  match decodeAttachmentLease bytes with
  | .error _ => .error .invalidSignedObject
  | .ok signed =>
    match verifyAttachmentLease crypto signed with
    | .error _ => .error .invalidSignedObject
    | .ok () => .ok signed

namespace Store

variable (crypto : Crypto) (self : Store)

def validateCheckpointSignedOffer (bytes : Bytes) (operation : OfferOperation)
    (capturedAtMs : Int64) :
    Except UpgradeCheckpointError SignedOffer :=
  match decodeOffer bytes with
  | .error _ => .error .invalidSignedObject
  | .ok signed =>
    match verifyOffer crypto signed with
    | .error _ => .error .invalidSignedObject
    | .ok () =>
      let offer := signed.offer
      let lifetime := offer.expiresAtMs.toInt - offer.issuedAtMs.toInt
      let latest := capturedAtMs.toInt + self.cfg.maxFutureSkewMs
      if !offer.operation.restoresAs operation ∨ self.cfg.maxAccountBytes < offer.account.length ∨
          self.cfg.maxNickBytes < offer.nick.length ∨
            self.cfg.maxSnapshotBytes < offer.snapshot.length then
        .error .invalidMetadata
      else if lifetime < 0 ∨
        (self.cfg.maxOfferLifetimeMs : Int) < lifetime then .error .invalidMetadata
      else if latest < offer.issuedAtMs.toInt ∨ latest < (offer.revision.epoch.toNat : Int) then
        .error .invalidMetadata
      else .ok signed

def hasAnyCheckpointState (token : Token) : Bool :=
  (self.entries.keys.any fun key => tokenEql key.token token) || self.tombstones.keys.any fun key =>
    tokenEql key.token token

def restoreCheckpointEntry (bytes : Bytes) (updatedAtMs : Int64) (quarantineUntilMs : Option Int64)
    (capturedAtMs : Int64) (alloc : Allocator) : Except UpgradeCheckpointError Store :=
  match self.validateCheckpointSignedOffer crypto bytes .upsert capturedAtMs with
  | .error e => .error e
  | .ok signed =>
    let key := signed.offer.key
    if !checkpointTimeAtOrBefore updatedAtMs signed.offer.expiresAtMs ∨
        !checkpointTimeNearCapture updatedAtMs capturedAtMs self.cfg.maxFutureSkewMs ∨
        !checkpointOptionalUntilValid quarantineUntilMs signed.offer.expiresAtMs then
          .error .invalidMetadata
    else if key ∈ self.entries ∨ key ∈ self.tombstones then .error .duplicateState
    else if !alloc 0 then .error .outOfMemory
    else
      match self.reserveAccountOrigin crypto signed.offer.account key (fun n => alloc (1 + n)) with
      | none => .error .outOfMemory
      | some (false, _) => .error .duplicateState
      | some (true, reserved) =>
        let indexed := reserved.appendAccountOrigin crypto signed.offer.account key
        .ok { indexed with entries := indexed.entries.insert key {
          wire := signed, updatedAtMs, ingressPeer := none, quarantineUntilMs
          authorityIssuedHwmMs := Int64.minValue, authorityExpiresHwmMs := Int64.minValue } }

def restoreCheckpointTombstone (bytes : Bytes) (removedAtMs : Int64)
    (identityDigest : Option Digest)
    (quarantineUntilMs : Option Int64) (capturedAtMs : Int64) (alloc : Allocator) :
    Except UpgradeCheckpointError Store :=
  match self.validateCheckpointSignedOffer crypto bytes .remove capturedAtMs with
  | .error e => .error e
  | .ok signed =>
    let key := signed.offer.key
    -- the image has no soft-cap flag; a conversion always binds an account
    let softCapped := identityDigest.isNone
    if !checkpointTimeAtOrBefore removedAtMs signed.offer.expiresAtMs ∨
        !checkpointTimeNearCapture removedAtMs capturedAtMs self.cfg.maxFutureSkewMs ∨
        !checkpointOptionalUntilValid quarantineUntilMs signed.offer.expiresAtMs then
          .error .invalidMetadata
    else if key ∈ self.entries ∨ key ∈ self.tombstones then .error .duplicateState
    else if softCapped ∧
      self.cfg.maxTombstones ≤ self.softCappedTombstones then .error .capacityExceeded
    else if !alloc 0 then .error .outOfMemory
    else
      .ok { self with
        tombstones := self.tombstones.insert key {
          wire := signed, removedAtMs
          retainUntilMs := tombstoneRetainUntil removedAtMs signed.offer.expiresAtMs
            (some (acceptedAuthorityHorizon removedAtMs self.cfg.retention)) self.cfg.tombstoneTtlMs
          identityDigest, quarantineUntilMs, softCapped }
        softCappedTombstones :=
          if softCapped then self.softCappedTombstones + 1 else self.softCappedTombstones }

def restoreCheckpointQuarantine (firstBytes secondBytes : Bytes)
    (expiresAtMs detectedAtMs capturedAtMs : Int64)
    (alloc : Allocator) : Except UpgradeCheckpointError Store :=
  match self.validateCheckpointSignedOffer crypto firstBytes .upsert capturedAtMs with
  | .error e => .error e
  | .ok first =>
    match self.validateCheckpointSignedOffer crypto secondBytes .upsert capturedAtMs with
    | .error e => .error e
    | .ok second =>
      let token := first.offer.token
      if token ≠ second.offer.token ∨
        first.offer.account = second.offer.account then .error .invalidMetadata
      else if ¬ digestBytes crypto first.transcript < digestBytes crypto second.transcript then
        .error .invalidMetadata
      else if expiresAtMs ≠ min first.offer.expiresAtMs second.offer.expiresAtMs ∨
          !checkpointTimeAtOrBefore detectedAtMs expiresAtMs ∨
          !checkpointTimeNearCapture detectedAtMs capturedAtMs self.cfg.maxFutureSkewMs then
        .error .invalidMetadata
      else if self.hasFullQuarantine token ∨
        self.hasAnyCheckpointState token then .error .duplicateState
      else if !alloc 0 ∨ !alloc 1 then .error .outOfMemory
      else
        .ok { self with quarantines := self.quarantines.insert token {
          firstWire := first, secondWire := second, expiresAtMs, detectedAtMs } }

/-- The second transcript that proves a disagreement. -/
def validateCheckpointConflict (signed : SignedAttachmentLease) (conflicted : Bool)
    (capturedAtMs : Int64) :
    Option Bytes → Except UpgradeCheckpointError (Option SignedAttachmentLease)
  | none => .ok none
  | some bytes =>
    if !conflicted then .error .invalidMetadata
    else
      match verifiedLease crypto bytes with
      | .error e => .error e
      | .ok candidate =>
        if signed.lease.token ≠ candidate.lease.token ∨
            !signed.lease.revision.eql candidate.lease.revision ∨
            digestBytes crypto signed.transcript = digestBytes crypto candidate.transcript ∨
            !checkpointLeaseValid self.cfg candidate.lease capturedAtMs then .error .invalidMetadata
        else .ok (some candidate)

def restoreCheckpointAttachmentLease (bytes : Bytes) (conflicted : Bool)
    (conflictBytes : Option Bytes)
    (capturedAtMs : Int64) (alloc : Allocator) : Except UpgradeCheckpointError Store :=
  match verifiedLease crypto bytes with
  | .error e => .error e
  | .ok signed =>
    if !checkpointLeaseValid self.cfg signed.lease capturedAtMs then .error .invalidMetadata
    else
      match self.validateCheckpointConflict crypto signed conflicted capturedAtMs conflictBytes with
      | .error e => .error e
      | .ok conflictWire =>
        let key := signed.lease.key
        if key ∈ self.attachmentLeases then .error .duplicateState
        else if !alloc 0 ∨ (conflictWire.isSome ∧ !alloc 1) then .error .outOfMemory
        else
          .ok { self with attachmentLeases := self.attachmentLeases.insert key {
            wire := signed, conflicted, conflictWire } }

def restoreCheckpointGroup (bytes : Bytes) (capturedAtMs : Int64) (alloc : Allocator) :
    Except UpgradeCheckpointError Store :=
  match self.validateCheckpointSignedOffer crypto bytes .groupRevoke capturedAtMs with
  | .error _ => .error .invalidSignedObject
  | .ok signed =>
    let token := signed.offer.token
    if self.isGroupRevoked token ∨ self.hasAnyCheckpointState token ∨
      self.hasFullQuarantine token then
      .error .duplicateState
    else if self.attachmentLeases.keys.any fun key => tokenEql key.token token then
      .error .duplicateState
    else
      match self.prepareGroupRevoke crypto signed capturedAtMs alloc with
      | (.error .outOfMemory, _) => .error .outOfMemory
      | (.error _, _) => .error .invalidMetadata
      | (.ok prepared, reserved) => .ok (reserved.commitGroupRevoke crypto prepared).2

/-- What an entry of an image disagrees with. -/
def entryIdentityError (key : OriginKey) (entry : Entry) : Option UpgradeCheckpointError :=
  if self.hasFullQuarantine key.token then some .duplicateState
  else if self.accountMismatch crypto key.token entry.account then some .invalidMetadata
  else none

def tombstoneIdentityError (key : OriginKey) (tombstone : Tombstone) :
    Option UpgradeCheckpointError :=
  if self.hasFullQuarantine key.token then some .duplicateState
  else
    match tombstone.identityDigest with
    | none => none
    | some expected =>
      if self.tombstones.entries.any fun slot => tokenEql slot.1.token key.token &&
          slot.2.identityDigest.any (· != expected) then some .invalidMetadata
      else none

def validateCheckpointIdentityState : Except UpgradeCheckpointError Unit :=
  match self.entries.entries.findSome? fun slot => self.entryIdentityError crypto slot.1 slot.2 with
  | some e => .error e
  | none =>
    match self.tombstones.entries.findSome? fun slot =>
      self.tombstoneIdentityError slot.1 slot.2 with
    | some e => .error e
    | none => .ok ()

/-- The counts of an image. -/
structure CheckpointCounts where
  entries : Nat
  tombstones : Nat
  quarantines : Nat
  attachmentLeases : Nat
  groups : Nat

def CheckpointCounts.exceed (counts : CheckpointCounts) (cfg : Config) : Bool :=
  decide (cfg.maxGroupRevocations < counts.groups) || decide (cfg.maxEntries < counts.entries) ||
    decide (combinedSlots cfg.retention < saturatingAdd counts.entries counts.tombstones) ||
    decide (cfg.maxQuarantines < counts.quarantines) ||
    decide (cfg.maxAttachmentLeases < counts.attachmentLeases)

/-- The least octets so many records take. The counts are 32 bits wide, so nothing overflows. -/
def CheckpointCounts.minimumRecordBytes (counts : CheckpointCounts) : Nat :=
  counts.entries * (4 + 1 + 8 + 1) + counts.tombstones * (4 + 1 + 8 + 1 + 1) +
    counts.quarantines * (4 + 1 + 4 + 1 + 8 + 8) + counts.attachmentLeases * (4 + 1 + 1) +
    counts.groups * (4 + 1)

open CheckpointReader

def readHeader : CheckpointReader (Int64 × CheckpointCounts) := do
  let _ ← take upgradeCheckpointMagic.length
  let version ← readByte
  if version ≠ upgradeCheckpointVersion then throw .unsupportedVersion
  else
    let capturedAtMs ← readI64
    if capturedAtMs < 0 then throw .invalidMetadata
    else
      let entries ← readU32
      let tombstones ← readU32
      let quarantines ← readU32
      let attachmentLeases ← readU32
      let groups ← readU32
      pure (capturedAtMs, { entries, tombstones, quarantines, attachmentLeases, groups })

def readEntry (capturedAtMs : Int64) (alloc : Allocator) (self : Store) :
    CheckpointReader Store := do
  let wire ← readWire
  let updatedAtMs ← readI64
  let quarantineUntilMs ← readOptionalI64
  check (self.restoreCheckpointEntry crypto wire updatedAtMs quarantineUntilMs capturedAtMs alloc)

def readTombstone (capturedAtMs : Int64) (alloc : Allocator) (self : Store) :
    CheckpointReader Store := do
  let wire ← readWire
  let removedAtMs ← readI64
  let identityDigest ← readOptionalDigest
  let quarantineUntilMs ← readOptionalI64
  check
    (self.restoreCheckpointTombstone crypto wire removedAtMs identityDigest quarantineUntilMs
      capturedAtMs alloc)

def readQuarantine (capturedAtMs : Int64) (alloc : Allocator) (self : Store) :
    CheckpointReader Store := do
  let firstWire ← readWire
  let secondWire ← readWire
  let expiresAtMs ← readI64
  let detectedAtMs ← readI64
  check
    (self.restoreCheckpointQuarantine crypto firstWire secondWire expiresAtMs detectedAtMs
      capturedAtMs alloc)

def readAttachmentLeaseRecord (capturedAtMs : Int64) (alloc : Allocator) (self : Store) :
    CheckpointReader Store := do
  let wire ← readWire
  let (conflicted, conflictWire) ← readConflict
  check
    (self.restoreCheckpointAttachmentLease crypto wire conflicted conflictWire capturedAtMs alloc)

def readGroup (capturedAtMs : Int64) (alloc : Allocator) (self : Store) :
    CheckpointReader Store := do
  let wire ← readWire
  check (self.restoreCheckpointGroup crypto wire capturedAtMs alloc)

/-- The allocator sites of a record: four for each, after the four tables. -/
def recordSites (alloc : Allocator) (site : Nat) : Allocator := fun n => alloc (4 + 4 * site + n)

def restoreRecords (cfg : Config) (capturedAtMs : Int64) (counts : CheckpointCounts)
    (alloc : Allocator) :
    CheckpointReader Store := do
  let site := counts.entries
  let self ← readRecords (fun n => readEntry crypto capturedAtMs (recordSites alloc n))
    counts.entries 0
    (initWithConfig cfg)
  let self ← readRecords (fun n => readTombstone crypto capturedAtMs (recordSites alloc n))
    counts.tombstones
    site self
  let site := site + counts.tombstones
  let self ← readRecords (fun n => readQuarantine crypto capturedAtMs (recordSites alloc n))
    counts.quarantines
    site self
  let site := site + counts.quarantines
  let self ← readRecords
    (fun n => readAttachmentLeaseRecord crypto capturedAtMs (recordSites alloc n))
    counts.attachmentLeases site self
  let site := site + counts.attachmentLeases
  readRecords (fun n => readGroup crypto capturedAtMs (recordSites alloc n)) counts.groups site self

def restoreUpgradeCheckpoint (cfg : Config) (bytes : Bytes) (restoreNowMs : Int64)
    (alloc : Allocator) :
    Except UpgradeCheckpointError Store :=
  if bytes.length < upgradeCheckpointV1HeaderLen + upgradeCheckpointChecksumLen then
    .error .truncated
  else if bytes.take 4 ≠ upgradeCheckpointMagic then .error .badMagic
  else
    let bodyEnd := bytes.length - upgradeCheckpointChecksumLen
    let body := bytes.take bodyEnd
    if (digestBytes crypto body).val ≠ bytes.drop bodyEnd then .error .checksumMismatch
    else
      match readHeader body with
      | .error e => .error e
      | .ok ((capturedAtMs, counts), rest) =>
        if counts.exceed cfg then .error .capacityExceeded
        else if rest.length < counts.minimumRecordBytes then .error .truncated
        else if !alloc 0 ∨ !alloc 1 ∨ !alloc 2 ∨ !alloc 3 then .error .outOfMemory
        else
          match restoreRecords crypto cfg capturedAtMs counts alloc rest with
          | .error e => .error e
          | .ok (self, rest) =>
            if rest.length ≠ 0 then .error .trailingBytes
            else
              match self.validateCheckpointIdentityState crypto with
              | .error e => .error e
              | .ok () => .ok (self.sweep crypto restoreNowMs)

end Store

end OnyxServer.SessionReplica
