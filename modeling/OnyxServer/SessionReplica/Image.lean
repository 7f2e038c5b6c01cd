import OnyxServer.SessionReplica.Checkpoint

/-!
# The image read back

What a restore reads from the octets the store encoded. Every field is read as it was
written, so a restore of the store's own image is a restore of its rows, one by one.
-/
namespace OnyxServer.SessionReplica

open Lib Text List

namespace CheckpointReader

theorem takes_take {field : Bytes} {n : Nat} (h : field.length = n) : Takes (take n) field field :=
  takes_takeBytes h

theorem takes_readByte (b : UInt8) : Takes readByte [b] b := by
  have htake : Takes (take 1) [b] [b] := takes_take rfl
  exact htake.map fun bytes => bytes.headD 0

theorem takes_readU32 {n : Nat} (h : n ≤ maxU32) : Takes readU32 (beBytes 4 n) n := by
  have hread := (takes_take (beBytes_length 4 n)).map beNat
  rw [beNat_beBytes (by simp only [maxU32] at h; omega)] at hread
  exact hread

theorem takes_readI64 (a : Int64) : Takes readI64 (i64Bytes a) a := by
  have hread := (takes_take (i64Bytes_length a)).map i64OfBytes
  rw [i64_read] at hread
  exact hread

theorem takes_readOptionalI64 (value : Option Int64) :
    Takes readOptionalI64 (encodeOptionalI64 value) value := by
  unfold readOptionalI64
  cases value with
  | none =>
    change Reads _ [0] (.ok none)
    exact (takes_readByte 0).last fun _ => rfl
  | some a =>
    change Reads _ ([1] ++ i64Bytes a) (.ok (some a))
    exact (takes_readByte 1).then ((takes_readI64 a).map some)

theorem takes_readOptionalDigest (digest : Option Digest) :
    Takes readOptionalDigest (encodeOptionalDigest digest) digest := by
  unfold readOptionalDigest
  cases digest with
  | none =>
    change Reads _ [0] (.ok none)
    exact (takes_readByte 0).last fun _ => rfl
  | some d =>
    change Reads _ ([1] ++ d.val) (.ok (some d))
    have hread := (takes_take d.property).map fun bytes => some (FixedBytes.ofSlice 32 bytes)
    rw [show FixedBytes.ofSlice 32 d.val = d from FixedBytes.ofSlice_val d] at hread
    exact (takes_readByte 1).then hread

/-- A wire of an image is neither empty nor longer than a payload. -/
def checkWire (wire : Bytes) : Except UpgradeCheckpointError Bytes :=
  if wire.length = 0 ∨ maxSignedPayloadLen < wire.length then .error .invalidMetadata else .ok wire

theorem reads_readWire {wire : Bytes} (h : wire.length ≤ maxU32) :
    Reads readWire (encodeWire wire) (checkWire wire) := by
  refine (takes_readU32 h).then ?_
  unfold checkWire
  split
  · exact fun _ => rfl
  · exact (takes_take rfl).reads

theorem reads_check {α : Type} (answer : Except UpgradeCheckpointError α) :
    Reads (check answer) [] answer :=
  fun _ => rfl

/-- Row after row, each as `put` says. -/
def putRows {ρ : Type} (put : Nat → Store → ρ → Except UpgradeCheckpointError Store) :
    List ρ → Nat → Store → Except UpgradeCheckpointError Store
  | [], _, self => .ok self
  | row :: rows, site, self => put site self row >>= putRows put rows (site + 1)

theorem reads_readRecords {ρ : Type} {read : Nat → Store → CheckpointReader Store}
    {encode : ρ → Bytes}
    {put : Nat → Store → ρ → Except UpgradeCheckpointError Store} {rows : List ρ}
    (hread : ∀ row ∈ rows, ∀ site self, Reads (read site self) (encode row) (put site self row))
    (site : Nat) (self : Store) :
    Reads (readRecords read rows.length site self) (rows.flatMap encode)
    (putRows put rows site self) := by
  induction rows generalizing site self with
  | nil => exact fun _ => rfl
  | cons row rows ih =>
    obtain ⟨hfirst, hrest⟩ := forall_mem_cons.mp hread
    exact (hfirst site self).bind fun next _ => ih hrest (site + 1) next

end CheckpointReader

namespace Store

open CheckpointReader

variable {crypto : Crypto} {s t : Store} {cfg : Config} {capturedAtMs restoreNowMs : Int64}
    {alloc : Allocator}

/-- What a restore does with an entry. -/
def putEntry (crypto : Crypto) (capturedAtMs : Int64) (alloc : Allocator) (self : Store)
    (e : Entry) :
    Except UpgradeCheckpointError Store := do
  let wire ← checkWire e.wire.wire
  self.restoreCheckpointEntry crypto wire e.updatedAtMs e.quarantineUntilMs capturedAtMs alloc

theorem reads_readEntry {e : Entry} (h : e.wire.wire.length ≤ maxU32) :
    Reads (readEntry crypto capturedAtMs alloc s) e.encode
      (putEntry crypto capturedAtMs alloc s e) :=
  (reads_readWire h).bind fun _ _ =>
    (takes_readI64 _).then ((takes_readOptionalI64 _).last (reads_check _))

/-- What a restore does with a tombstone. -/
def putTombstone (crypto : Crypto) (capturedAtMs : Int64) (alloc : Allocator) (self : Store)
    (tomb : Tombstone) :
    Except UpgradeCheckpointError Store := do
  let wire ← checkWire tomb.wire.wire
  self.restoreCheckpointTombstone crypto wire tomb.removedAtMs tomb.identityDigest
    tomb.quarantineUntilMs
    capturedAtMs alloc

def putQuarantine (crypto : Crypto) (capturedAtMs : Int64) (alloc : Allocator) (self : Store)
    (q : Quarantine) :
    Except UpgradeCheckpointError Store := do
  let firstWire ← checkWire q.firstWire.wire
  let secondWire ← checkWire q.secondWire.wire
  self.restoreCheckpointQuarantine crypto firstWire secondWire q.expiresAtMs q.detectedAtMs
    capturedAtMs alloc

/-- The disagreement a lease is read back with. -/
def checkConflict (l : AttachmentLeaseEntry) :
    Except UpgradeCheckpointError (Bool × Option Bytes) :=
  match l.conflictWire with
  | some witness => checkWire witness.wire >>= fun wire => .ok (true, some wire)
  | none => .ok (l.conflicted, none)

def putAttachmentLease (crypto : Crypto) (capturedAtMs : Int64) (alloc : Allocator) (self : Store)
    (l : AttachmentLeaseEntry) : Except UpgradeCheckpointError Store := do
  let wire ← checkWire l.wire.wire
  let conflict ← checkConflict l
  self.restoreCheckpointAttachmentLease crypto wire conflict.1 conflict.2 capturedAtMs alloc

def putGroup (crypto : Crypto) (capturedAtMs : Int64) (alloc : Allocator) (self : Store)
    (g : GroupRevocation) :
    Except UpgradeCheckpointError Store := do
  let wire ← checkWire g.wire.wire
  self.restoreCheckpointGroup crypto wire capturedAtMs alloc

theorem reads_readTombstone {tomb : Tombstone} (h : tomb.wire.wire.length ≤ maxU32) :
    Reads (readTombstone crypto capturedAtMs alloc s) tomb.encode
      (putTombstone crypto capturedAtMs alloc s tomb) :=
  (reads_readWire h).bind fun _ _ => (takes_readI64 _).then ((takes_readOptionalDigest _).then
    ((takes_readOptionalI64 _).last (reads_check _)))

theorem reads_readQuarantine {q : Quarantine} (hfirst : q.firstWire.wire.length ≤ maxU32)
    (hsecond : q.secondWire.wire.length ≤ maxU32) :
    Reads (readQuarantine crypto capturedAtMs alloc s) q.encode
      (putQuarantine crypto capturedAtMs alloc s q) :=
  (reads_readWire hfirst).bind fun _ _ => (reads_readWire hsecond).bind fun _ _ =>
    (takes_readI64 _).then ((takes_readI64 _).last (reads_check _))

theorem reads_readAttachmentLeaseRecord {l : AttachmentLeaseEntry} (h : l.wire.wire.length ≤ maxU32)
    (hwitness : ∀ witness, l.conflictWire = some witness → witness.wire.length ≤ maxU32)
    (htag : l.conflictWire.isSome → l.conflicted = true) :
    Reads (readAttachmentLeaseRecord crypto capturedAtMs alloc s) l.encode
      (putAttachmentLease crypto capturedAtMs alloc s l) := by
  unfold readAttachmentLeaseRecord putAttachmentLease AttachmentLeaseEntry.encode
  refine (reads_readWire h).bind fun wire _ => ?_
  unfold checkConflict
  cases hconflict : l.conflictWire with
  | none =>
    have hread : Takes readConflict [if l.conflicted then 2 else 0] (l.conflicted, none) := by
      change Reads readConflict _ (.ok (l.conflicted, none))
      refine (takes_readByte _).last ?_
      cases l.conflicted <;> exact fun _ => rfl
    exact hread.last (reads_check _)
  | some witness =>
    rw [hconflict] at htag
    simp only [htag rfl, if_true]
    have hread : Reads readConflict ([1] ++ encodeWire witness.wire)
        (checkWire witness.wire >>= fun wire => .ok (true, some wire)) := by
      refine (takes_readByte 1).then ?_
      exact (reads_readWire (hwitness witness hconflict)).map fun wire => (true, some wire)
    exact hread.last fun _ _ => reads_check _

theorem reads_readGroup {g : GroupRevocation} (h : g.wire.wire.length ≤ maxU32) :
    Reads (readGroup crypto capturedAtMs alloc s) g.encode
      (putGroup crypto capturedAtMs alloc s g) :=
  (reads_readWire h).last fun _ _ => reads_check _

/-- The counts the header of the store holds. -/
def checkpointCounts (self : Store) : CheckpointCounts where
  entries := HashMap.count self.entries
  tombstones := HashMap.count self.tombstones
  quarantines := HashMap.count self.quarantines
  attachmentLeases := HashMap.count self.attachmentLeases
  groups := HashMap.count self.groupRevocations

theorem takes_readHeader (hclock : 0 ≤ capturedAtMs)
    (hcounts : ∀ count ∈ s.counts, count ≤ maxU32) :
    Takes readHeader (s.encodeHeader capturedAtMs) (capturedAtMs, s.checkpointCounts) := by
  have hentries := hcounts (HashMap.count s.entries) (by simp [counts])
  have htombstones := hcounts (HashMap.count s.tombstones) (by simp [counts])
  have hquarantines := hcounts (HashMap.count s.quarantines) (by simp [counts])
  have hleases := hcounts (HashMap.count s.attachmentLeases) (by simp [counts])
  have hgroups := hcounts (HashMap.count s.groupRevocations) (by simp [counts])
  have hfields : s.counts.flatMap (beBytes 4) =
      beBytes 4 (HashMap.count s.entries) ++ (beBytes 4 (HashMap.count s.tombstones) ++
        (beBytes 4 (HashMap.count s.quarantines) ++ (beBytes 4 (HashMap.count s.attachmentLeases) ++
          beBytes 4 (HashMap.count s.groupRevocations)))) := by
    simp [counts]
  rw [encodeHeader, hfields]
  change Reads readHeader (upgradeCheckpointMagic ++ ([upgradeCheckpointVersion] ++ _)) (.ok _)
  unfold readHeader
  refine (takes_take rfl).then ((takes_readByte upgradeCheckpointVersion).then ?_)
  rw [if_neg (not_not.mpr rfl)]
  refine (takes_readI64 capturedAtMs).then ?_
  rw [if_neg (not_lt.mpr hclock)]
  exact (takes_readU32 hentries).then
    ((takes_readU32 htombstones).then ((takes_readU32 hquarantines).then
    ((takes_readU32 hleases).then ((takes_readU32 hgroups).last fun _ => rfl))))

/-- What an image that was encoded consists of. -/
theorem encodeUpgradeCheckpoint_ok {bytes : Bytes}
    (h : s.encodeUpgradeCheckpoint crypto capturedAtMs alloc = .ok bytes) :
    0 ≤ capturedAtMs ∧ (∀ count ∈ s.counts, count ≤ maxU32) ∧
      (∀ wire ∈ s.checkpointWires, wire.length ≤ maxU32) ∧
      bytes = s.encodeHeader capturedAtMs ++ s.encodeRecords ++
        (digestBytes crypto (s.encodeHeader capturedAtMs ++ s.encodeRecords)).val := by
  simp only [encodeUpgradeCheckpoint] at h
  split at h
  · cases h
  rename_i hclock
  split at h
  · cases h
  rename_i hcounts
  iterate 2
    split at h
    · cases h
  split_ifs at h
  · next hwires =>
    simp only [any_eq_true, decide_eq_true_eq, not_exists, not_and, not_lt,
      not_or] at hcounts hwires
    exact ⟨not_lt.mp hclock, hcounts, fun wire hwire => (hwires wire hwire).2,
      (Except.ok.inj h).symm⟩

/-- The image without its checksum. -/
theorem take_image (body : Bytes) (digest : Digest) :
    (body ++ digest.val).take ((body ++ digest.val).length - upgradeCheckpointChecksumLen) =
      body := by
  rw [length_append, digest.property, upgradeCheckpointChecksumLen, Nat.add_sub_cancel, take_left]

/-- The tag of a lease says what is read back: a second wire stands for a disagreement. -/
def Tagged (s : Store) : Prop :=
  ∀ k l, s.attachmentLeases.lookup k = some l → l.conflictWire.isSome → l.conflicted = true

/-- What a restore does with the rows of a store. -/
def putRecords (crypto : Crypto) (cfg : Config) (capturedAtMs : Int64) (alloc : Allocator)
    (s : Store) :
    Except UpgradeCheckpointError Store := do
  let site := s.checkpointCounts.entries
  let self ← putRows
    (fun n self slot => putEntry crypto capturedAtMs (recordSites alloc n) self slot.2)
    s.entries.entries 0 (initWithConfig cfg)
  let self ← putRows
    (fun n self slot => putTombstone crypto capturedAtMs (recordSites alloc n) self slot.2)
    s.tombstones.entries site self
  let site := site + s.checkpointCounts.tombstones
  let self ← putRows
    (fun n self slot => putQuarantine crypto capturedAtMs (recordSites alloc n) self slot.2)
    s.quarantines.entries site self
  let site := site + s.checkpointCounts.quarantines
  let self ← putRows
    (fun n self slot => putAttachmentLease crypto capturedAtMs (recordSites alloc n) self slot.2)
    s.attachmentLeases.entries site self
  let site := site + s.checkpointCounts.attachmentLeases
  putRows (fun n self slot => putGroup crypto capturedAtMs (recordSites alloc n) self slot.2)
    s.groupRevocations.entries site self

theorem reads_entries (hfits : ∀ wire ∈ s.checkpointWires, wire.length ≤ maxU32) (n : Nat)
    (self : Store) :
    Reads
      (readRecords (fun n => readEntry crypto capturedAtMs (recordSites alloc n))
        s.checkpointCounts.entries n self) (s.entries.entries.flatMap fun slot => slot.2.encode)
      (putRows (fun n self slot => putEntry crypto capturedAtMs (recordSites alloc n) self slot.2)
        s.entries.entries n self) := by
  refine reads_readRecords (fun slot hslot site self => reads_readEntry (hfits _ ?_)) n self
  exact mem_append_left _ (mem_map.mpr ⟨slot, hslot, rfl⟩)

theorem reads_restoreRecords (hfits : ∀ wire ∈ s.checkpointWires, wire.length ≤ maxU32)
    (htags : s.Tagged) :
    Reads (restoreRecords crypto cfg capturedAtMs s.checkpointCounts alloc) s.encodeRecords
      (putRecords crypto cfg capturedAtMs alloc s) := by
  obtain ⟨-, hrest⟩ := forall_mem_append.mp hfits
  obtain ⟨htombstones, hrest⟩ := forall_mem_append.mp hrest
  obtain ⟨hquarantines, hrest⟩ := forall_mem_append.mp hrest
  obtain ⟨hleases, hgroups⟩ := forall_mem_append.mp hrest
  refine (reads_entries hfits 0 (initWithConfig cfg)).bind fun _ _ =>
    (reads_readRecords (fun slot hslot site self => reads_readTombstone (htombstones _ ?_)) _
      _).bind fun _ _ =>
    (reads_readRecords
      (fun slot hslot site self => reads_readQuarantine (hquarantines _ ?_) (hquarantines _ ?_))
      _ _).bind fun _ _ =>
    (reads_readRecords (fun slot hslot site self => reads_readAttachmentLeaseRecord (hleases _ ?_)
      (fun witness hwitness => hleases _ ?_) ?_) _ _).bind fun _ _ =>
    reads_readRecords (fun slot hslot site self => reads_readGroup (hgroups _ ?_)) _ _
  · exact mem_map.mpr ⟨slot, hslot, rfl⟩
  · exact mem_flatMap.mpr ⟨slot, hslot, mem_cons_self⟩
  · exact mem_flatMap.mpr ⟨slot, hslot, mem_cons_of_mem _ mem_cons_self⟩
  · exact mem_flatMap.mpr ⟨slot, hslot, mem_cons_self⟩
  · refine mem_flatMap.mpr ⟨slot, hslot, mem_cons_of_mem _ ?_⟩
    rw [hwitness]
    exact mem_cons_self
  · exact htags slot.1 slot.2 (HashMap.mem_entries.mp hslot)
  · exact mem_map.mpr ⟨slot, hslot, rfl⟩

end Store

end OnyxServer.SessionReplica
