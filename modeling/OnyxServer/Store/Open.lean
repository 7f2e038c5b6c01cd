import OnyxServer.Store.Chunks

/-!
# Opening a store

`Durable` describes the disks a store leaves behind, torn tail and half-made compaction
included, and the view each of them stands for. Opening such a disk succeeds and gives
that view.
-/
namespace OnyxServer.Store

open Lib List

def Contents.withEpoch (contents : Contents) (epoch : Epoch) (known : Bool) : Contents :=
  { contents with walEpoch := epoch, walEpochKnown := known }

def loadWalEpoch (wal : Bytes) (contents : Contents) : Except StoreError Contents :=
  let unknown := contents.withEpoch legacyWalEpoch false
  let legacy := contents.withEpoch legacyWalEpoch true
  if wal.length < recordHeaderLen then .ok unknown
  else if leNat (slice wal 0 4) ≠ walEpochPayloadLen then .ok legacy
  else
    let payload := slice wal recordHeaderLen coldEpochRecordLen
    if payload.length ≠ walEpochPayloadLen then .ok unknown
    -- a legacy mutation may have the width of an epoch record
    else if payload.getD 0 0 ≠ metaKindWalEpoch then .ok legacy
    else if (checksum payload).toNat ≠ leNat (slice wal 4 8) then .error .checksumMismatch
    else
      match parseWalEpoch payload with
      | .error e => .error e
      | .ok epoch => .ok (contents.withEpoch epoch true)

section Open

variable (blake3 : Bytes → Digest)

/-- The epoch of the log that follows the snapshot. -/
def emptyWalEpoch (emptyEpoch : Epoch) : Option SnapshotCoverage → Except StoreError Epoch
  | none => .ok emptyEpoch
  | some coverage =>
    match coverage.slots.find? fun slot =>
        slot.coveredLen = coldEpochRecordLen ∧ blake3 (coldEpoch slot.epoch) = slot.digest with
    | none => .error .snapshotCoverageMismatch
    | some slot => .ok slot.epoch

/-- Where replay starts: behind the octets the snapshot covers. -/
def coveredWalReplayStart (wal : Bytes) (contents : Contents) : Except StoreError Nat :=
  match contents.snapshotCoverage with
  | none => .ok 0
  | some coverage =>
    if contents.walEpochKnown = false then .error .snapshotCoverageMismatch
    else
      match coverage.slots.find? fun slot =>
          slot.coveredLen ≤ wal.length ∧ slot.epoch = contents.walEpoch ∧
            blake3 (wal.take slot.coveredLen) = slot.digest with
      | none => .error .snapshotCoverageMismatch
      | some slot => .ok slot.coveredLen

/-- The log a store opened for writing starts from: an empty one gets its epoch record. -/
def initializeEmptyWalAfterSnapshot (env : Env) (wal : Bytes) (contents : Contents) :
    Except StoreError Bytes :=
  if wal.length =
    0 then (emptyWalEpoch blake3 env.emptyEpoch contents.snapshotCoverage).map coldEpoch
  else .ok wal

/-- The log replayed and the offset of its torn tail. -/
def replayWal (config : Config) (wal : Bytes) (contents : Contents) :
    Except StoreError (Contents × Nat) :=
  match loadWalEpoch wal contents with
  | .error e => .error e
  | .ok contents =>
    match coveredWalReplayStart blake3 wal contents with
    | .error e => .error e
    | .ok start => replayFile config .wal (some wal) start contents

def opened (config : Config) (contents : Contents) (walOffset : Nat) (readOnly : Bool) :
    OroStore where
  toContents := contents
  config := config
  changefeed := .init config.changefeedCapacity
  walOffset := walOffset
  activePrepared := none
  activeBatch := none
  nextPreparedGeneration := 1
  preparedPoisoned := false
  stagedReadOnly := readOnly

/-- Opening a store. The disk is answered also where opening fails: the empty log may
have been initialized, the torn tail cut off or the files compacted by then. -/
def openImpl (config : Config) (readOnly : Bool) (env : Env) (disk : Disk) :
    Except StoreError OroStore × Disk :=
  if readOnly ∧ disk.wal = none then (.error .io, disk)
  else if readOnly = false ∧ env.ensureWalFails then (.error .io, disk)
  else
    let wal := disk.wal.getD []
    let disk := { disk with wal := some wal }
    match replayFile config .snapshot disk.snapshot 0 .init with
    | .error e => (.error e, disk)
    | .ok (contents, _) =>
      match (if readOnly then .ok wal
        else initializeEmptyWalAfterSnapshot blake3 env wal contents) with
      | .error e => (.error e, disk)
      | .ok wal =>
        let disk := { disk with wal := some wal }
        match replayWal blake3 config wal contents with
        | .error e => (.error e, disk)
        | .ok (contents, good) =>
          if readOnly then
            if good < wal.length then (.error .badRecord, disk)
            else (.ok (opened config contents wal.length readOnly), disk)
          else
            let disk := { disk with wal := some (wal.take good) }
            let outcome := maybeCompact blake3 env
              ⟨opened config contents (wal.take good).length readOnly, disk⟩
            (outcome.1.map fun _ => outcome.2.store, outcome.2.disk)

end Open

/-! ## The first record of a log -/

section Epochs

variable {config : Config} {contents : Contents}

theorem slice_coldEpoch (epoch : Epoch) (rest : Bytes) :
    slice (coldEpoch epoch ++ rest) recordHeaderLen coldEpochRecordLen = walEpochPayload epoch := by
  rw [slice, coldEpoch, frame_body, take_left']
  rw [walEpochPayload_length]
  rfl

theorem loadWalEpoch_epoch (epoch : Epoch) (rest : Bytes) (contents : Contents) :
    loadWalEpoch (coldEpoch epoch ++ rest) contents =
      .ok (contents.withEpoch epoch true) := by
  have hword : leNat (slice (coldEpoch epoch ++ rest) 0 4) = walEpochPayloadLen := by
    rw [coldEpoch, frame_word, leNat_word (by rw [walEpochPayload_length]; decide),
      walEpochPayload_length]
  have hsum : leNat (slice (coldEpoch epoch ++ rest) 4 8) =
      (checksum (walEpochPayload epoch)).toNat := by
    rw [coldEpoch, frame_sum, leNat_sum]
  have hkind : (walEpochPayload epoch).getD 0 0 = metaKindWalEpoch := rfl
  have hlength : ¬ (coldEpoch epoch ++ rest).length < recordHeaderLen := by
    rw [length_append, coldEpoch_length, coldEpochRecordLen]
    omega
  simp only [loadWalEpoch, if_neg hlength, hword, hsum, slice_coldEpoch,
    walEpochPayload_length, hkind, parseWalEpoch_payload, ne_eq, not_true_eq_false, ↓reduceIte]

/-- A log of the time before epoch records. -/
theorem loadWalEpoch_frame {payload : Bytes} (hword : payload.length ≤ maxU32)
    (hkind : payload.getD 0 0 ≠ metaKindWalEpoch) (rest : Bytes) :
    loadWalEpoch (frame payload ++ rest) contents =
      .ok (contents.withEpoch legacyWalEpoch true) := by
  have hlength : ¬ (frame payload ++ rest).length < recordHeaderLen := by
    rw [length_append, frame_length]
    omega
  simp only [loadWalEpoch, if_neg hlength, frame_word, leNat_word hword]
  by_cases hlen : payload.length = walEpochPayloadLen
  · have hpayload : slice (frame payload ++ rest) recordHeaderLen coldEpochRecordLen = payload := by
      rw [slice, frame_body, take_left']
      rw [hlen]
      rfl
    rw [if_neg (not_not.mpr hlen), hpayload, if_neg (not_not.mpr hlen), if_pos hkind]
  · rw [if_pos hlen]

theorem loadWalEpoch_torn {tail : Bytes} (h : Torn config tail) (contents : Contents) :
    ∃ known, loadWalEpoch tail contents =
      .ok (contents.withEpoch legacyWalEpoch known) := by
  obtain ⟨payload, n, hread, hn, rfl⟩ := h
  have hlength : ((frame payload).take n).length = n := by rw [length_take]; omega
  rw [frame_length] at hn
  simp only [loadWalEpoch, hlength]
  by_cases hshort : n < recordHeaderLen
  · exact ⟨false, if_pos hshort⟩
  rw [if_neg hshort]
  by_cases hword : leNat (slice ((frame payload).take n) 0 4) = walEpochPayloadLen
  · have hlen : payload.length = walEpochPayloadLen := by
      rw [take_frame_word (Nat.not_lt.mp hshort), leNat_word hread.word] at hword
      exact hword
    have hpayload : (slice ((frame payload).take n) recordHeaderLen coldEpochRecordLen).length ≠
        walEpochPayloadLen := by
      rw [slice, length_take, length_drop, hlength]
      omega
    rw [if_neg (not_not.mpr hword), if_pos hpayload]
    exact ⟨false, rfl⟩
  · rw [if_pos hword]
    exact ⟨true, rfl⟩

theorem Chunk.Fits.frame {chunk : Chunk} (h : chunk.Fits config) :
    ∃ payload rest, chunk.bytes = frame payload ++ rest ∧ payload.length ≤ maxU32 ∧
      payload.getD 0 0 ≠ metaKindWalEpoch := by
  have hguard : batchGuardPayload.getD 0 0 ≠ metaKindWalEpoch := by decide
  cases chunk with
  | guard => exact ⟨batchGuardPayload, [], (append_nil _).symm, by decide, hguard⟩
  | committed call =>
    cases call with
    | single mutation shaped =>
      refine ⟨encodeMutation mutation, [], (append_nil _).symm,
        Nat.le_trans h config.recordFits, ?_⟩
      have hfirst : (encodeMutation mutation).getD 0 0 = mutation.kind.code := rfl
      rw [hfirst]
      cases mutation.kind <;> decide
    | batch mutations => exact ⟨batchGuardPayload, _, rfl, by decide, hguard⟩

/-- A log without an epoch record has the legacy epoch, known once a record is there. -/
theorem loadWalEpoch_headerless {chunks : List Chunk} {tail : Bytes}
    (hfits : ∀ chunk ∈ chunks, chunk.Fits config) (htorn : Torn config tail) (contents : Contents) :
    ∃ known, (chunks ≠ [] → known = true) ∧ loadWalEpoch (chunkBytes chunks ++ tail) contents =
      .ok (contents.withEpoch legacyWalEpoch known) := by
  cases chunks with
  | nil =>
    obtain ⟨known, hknown⟩ := loadWalEpoch_torn htorn contents
    exact ⟨known, fun h => absurd rfl h, hknown⟩
  | cons chunk chunks =>
    obtain ⟨payload, rest, hbytes, hword, hkind⟩ := (hfits chunk mem_cons_self).frame
    refine ⟨true, fun _ => rfl, ?_⟩
    have hsplit : chunkBytes (chunk :: chunks) ++ tail =
        frame payload ++ (rest ++ (chunkBytes chunks ++ tail)) := by
      rw [chunkBytes, flatMap_cons, hbytes, append_assoc, append_assoc]
      rfl
    rw [hsplit]
    exact loadWalEpoch_frame hword hkind _

end Epochs

/-- How a log begins. -/
inductive Head where
  | headerless
  | headed (epoch : Epoch)

namespace Head

def bytes : Head → Bytes
  | headerless => []
  | headed epoch => coldEpoch epoch

def walEpoch : Head → Epoch
  | headerless => legacyWalEpoch
  | headed epoch => epoch

end Head

/-- What can be sealed in a snapshot. -/
structure Contents.Seals (config : Config) (contents : Contents) : Prop where
  fits : contents.view.Fits config
  seq : contents.nextSeq ≤ maxU64
  guard : contents.batchFormatRequired = true → 2 ≤ config.maxRecordBytes

section Disks

variable (blake3 : Bytes → Digest) (config : Config)

/-- How a snapshot and a log belong together: the log starts with `head` and the chunks
`covered`, which are part of `base` already. Without a snapshot nothing is covered. A
snapshot is paired with the log it was made from or with the one that replaces it. -/
inductive Anchor : Option Bytes → Head → List Chunk → Contents → Prop where
  | unsealed (head : Head) : Anchor none head [] .init
  | before {head : Head} {covered : List Chunk} {base : Contents} {next : CoverageSlot}
      (seals : base.Seals config) (nonempty : head.bytes ++ chunkBytes covered ≠ [])
      (next_le : next.coveredLen ≤ maxU64) :
      Anchor (some (coldSnapshotBytes base
        ⟨[⟨(head.bytes ++ chunkBytes covered).length, head.walEpoch,
        blake3 (head.bytes ++ chunkBytes covered)⟩, next]⟩)) head covered base
  | after {epoch : Epoch} {base : Contents} {old : CoverageSlot} (seals : base.Seals config)
      (fresh : old.epoch ≠ epoch) (old_le : old.coveredLen ≤ maxU64) :
      Anchor (some (coldSnapshotBytes base ⟨[old, freshSlot blake3 epoch]⟩)) (.headed epoch) [] base

/-- A disk whose log has been started. -/
inductive Laid (disk : Disk) (head : Head) (torn : Bytes) (view : View) : Prop where
  | mk (covered live : List Chunk) (base : Contents)
      (anchor : Anchor blake3 config disk.snapshot head covered base)
      (wal : disk.wal = some (head.bytes ++ (chunkBytes covered ++ (chunkBytes live ++ torn))))
      (coveredFits : ∀ chunk ∈ covered, chunk.Fits config)
      (liveFits : ∀ chunk ∈ live, chunk.Fits config)
      (room : (head.bytes ++ (chunkBytes covered ++ (chunkBytes live ++ torn))).length ≤
        config.maxWalBytes)
      (meaning : live.foldl Chunk.apply base.view = view)
      (seq : view.nextSeq ≤ maxU64)

/-- A disk that opens with the given view, and with a log of one of the given epochs. The
last two cases have an empty log: no store yet, or a compaction of an empty log that
stopped between its renames. -/
inductive Durable (epochs : List Epoch) (disk : Disk) (view : View) : Prop where
  | laid {head : Head} {torn : Bytes} (layout : Laid blake3 config disk head torn view)
      (torn : Torn config torn) (known : head.walEpoch ∈ epochs)
  | fresh (wal : disk.wal.getD [] = []) (snapshot : disk.snapshot = none)
      (meaning : view = Contents.init.view)
  | emptied {base : Contents} {old : CoverageSlot} {epoch : Epoch} (wal : disk.wal.getD [] = [])
      (seals : base.Seals config) (old_epoch : old.epoch ≠ epoch) (old_len : old.coveredLen = 0)
      (snapshot : disk.snapshot = some (coldSnapshotBytes base ⟨[old, freshSlot blake3 epoch]⟩))
      (meaning : view = base.view) (known : epoch ∈ epochs)

end Disks

section Replaying

variable {blake3 : Bytes → Digest} {config : Config} {disk : Disk} {head : Head}
    {covered live : List Chunk}
  {base contents : Contents} {torn : Bytes} {view : View}

theorem replaySource_eq {wal : Bytes} {start : Nat} (hroom : wal.length ≤ config.maxWalBytes)
    (hstart : start ≤ wal.length) :
    replaySource config .wal wal start contents =
      replayFrom config .wal start (wal.drop start) contents := by
  rw [replaySource]
  by_cases hempty : wal.length = 0
  · obtain rfl := length_eq_zero_iff.mp hempty
    obtain rfl : start = 0 := Nat.le_zero.mp hstart
    rfl
  · rw [if_neg hempty, if_neg (by simp; omega), if_neg (by omega),
      replayLoop_eq _ _ (by rw [length_drop]; omega)]

theorem View.Fits.chunks (h : view.Fits config) (hlive : ∀ chunk ∈ live, chunk.Fits config) :
    (live.foldl Chunk.apply view).Fits config := by
  induction live generalizing view with
  | nil => exact h
  | cons chunk rest ih =>
    obtain ⟨hfirst, hrest⟩ := forall_mem_cons.mp hlive
    refine ih ?_ hrest
    cases chunk with
    | committed call => exact h.apply hfirst
    | guard => exact h

theorem replayChunks_guard (hlive : ∀ chunk ∈ live, chunk.Fits config)
    (h : contents.batchFormatRequired = true → 2 ≤ config.maxRecordBytes) :
    (contents.replayChunks live).batchFormatRequired = true → 2 ≤ config.maxRecordBytes := by
  induction live generalizing contents with
  | nil => exact h
  | cons chunk rest ih =>
    obtain ⟨hfirst, hrest⟩ := forall_mem_cons.mp hlive
    refine ih hrest ?_
    cases chunk with
    | guard => exact fun _ => hfirst
    | committed call =>
      cases call with
      | single mutation shaped =>
        intro hrequired
        exact h
          (by simpa only [Contents.replayChunk, Contents.replayCall, Call.isBatch, Bool.or_false]
          using hrequired)
      | batch mutations => exact fun _ => BatchFits.guard hfirst

theorem Contents.Seals.chunks (h : contents.Seals config)
    (hlive : ∀ chunk ∈ live, chunk.Fits config)
    (hseq : (contents.replayChunks live).nextSeq ≤ maxU64) :
    (contents.replayChunks live).Seals config := by
  constructor
  · rw [view_replayChunks hlive]
    exact h.fits.chunks hlive
  · exact hseq
  · exact replayChunks_guard hlive h.guard

theorem init_seals : Contents.init.Seals config := by
  constructor
  · intro family key value hget
    have hnone : Contents.init.view.get family key = none := rfl
    rw [hnone] at hget
    cases hget
  · decide
  · intro h
    cases h

theorem replayChunks_epoch (contents : Contents) (live : List Chunk) :
    (contents.replayChunks live).walEpoch = contents.walEpoch := by
  induction live generalizing contents with
  | nil => rfl
  | cons chunk rest ih =>
    rw [Contents.replayChunks, foldl_cons, ← Contents.replayChunks, ih]
    cases chunk <;> rfl

theorem Contents.Seals.replay_snapshot {first second : CoverageSlot} (h : contents.Seals config)
    (hfirst : first.coveredLen ≤ maxU64) (hsecond : second.coveredLen ≤ maxU64) :
    ∃ read offset, replayFile config .snapshot
        (some (coldSnapshotBytes contents ⟨[first, second]⟩)) 0 .init = .ok (read, offset) ∧
      read.view = contents.view ∧ read.snapshotCoverage = some ⟨[first, second]⟩ ∧
      read.Seals config := by
  obtain ⟨read, offset, hread, hview, hcoverage, hflag⟩ :=
    replay_coldSnapshot h.fits h.seq h.guard hfirst hsecond
  have hseq : read.nextSeq = contents.nextSeq := congrArg View.nextSeq hview
  refine ⟨read, offset, hread, hview, hcoverage, ?_⟩
  constructor
  · rw [hview]; exact h.fits
  · rw [hseq]; exact h.seq
  · rw [hflag]; exact h.guard

/-- The chunks behind an offset, replayed. -/
theorem replay_live (front : Bytes) (hlive : ∀ chunk ∈ live, chunk.Fits config)
    (htorn : Torn config torn)
    (hroom : (front ++ (chunkBytes live ++ torn)).length ≤ config.maxWalBytes)
    (hseq : (live.foldl Chunk.apply contents.view).nextSeq ≤ maxU64) :
    replayFile config .wal (some (front ++ (chunkBytes live ++ torn))) front.length contents =
      .ok (contents.replayChunks live, front.length + (chunkBytes live).length) := by
  have hstart : front.length ≤ (front ++ (chunkBytes live ++ torn)).length := by
    rw [length_append]
    omega
  rw [← view_replayChunks hlive] at hseq
  rw [replayFile, replaySource_eq hroom hstart, drop_left, replayFrom_chunks hlive hseq htorn]

/-- A log without a snapshot is replayed from its first octet. -/
theorem replay_unsealed (hlive : ∀ chunk ∈ live, chunk.Fits config) (htorn : Torn config torn)
    (hroom : (head.bytes ++ (chunkBytes live ++ torn)).length ≤ config.maxWalBytes)
    (hseq : (live.foldl Chunk.apply contents.view).nextSeq ≤ maxU64)
    (hnone : contents.snapshotCoverage = none) :
    ∃ known, replayWal blake3 config (head.bytes ++ (chunkBytes live ++ torn)) contents =
      .ok ((contents.withEpoch head.walEpoch known).replayChunks live,
        head.bytes.length + (chunkBytes live).length) := by
  cases head with
  | headerless =>
    obtain ⟨known, -, hload⟩ := loadWalEpoch_headerless hlive htorn contents
    refine ⟨known, ?_⟩
    have hstart : coveredWalReplayStart blake3 (chunkBytes live ++ torn)
        (contents.withEpoch legacyWalEpoch known) = .ok 0 := by
      rw [coveredWalReplayStart, Contents.withEpoch, hnone]
    rw [replayWal, Head.bytes, nil_append, hload]
    simp only [hstart]
    exact replay_live [] hlive htorn hroom hseq
  | headed epoch =>
    refine ⟨true, ?_⟩
    have hstart : coveredWalReplayStart blake3 (coldEpoch epoch ++ (chunkBytes live ++ torn))
        (contents.withEpoch epoch true) = .ok 0 := by
      rw [coveredWalReplayStart, Contents.withEpoch, hnone]
    have hseq' : ((contents.withEpoch epoch true).replayChunks live).nextSeq ≤ maxU64 := by
      have hview := view_replayChunks hlive (contents.withEpoch epoch true)
      have hnext := congrArg View.nextSeq hview
      exact Nat.le_trans (Nat.le_of_eq hnext) hseq
    rw [Head.bytes] at hroom ⊢
    rw [replayWal, loadWalEpoch_epoch]
    simp only [hstart]
    rw [replayFile, replaySource_eq hroom (Nat.zero_le _), drop_zero, replayFrom_epoch]
    rw [coldEpoch_length]
    exact replayFrom_chunks hlive hseq' htorn coldEpochRecordLen

/-- A log behind the snapshot that was made from it. -/
theorem replay_before {next : CoverageSlot} (hcovered : ∀ chunk ∈ covered, chunk.Fits config)
    (hlive : ∀ chunk ∈ live, chunk.Fits config) (htorn : Torn config torn)
    (hroom : ((head.bytes ++ chunkBytes covered) ++ (chunkBytes live ++ torn)).length ≤
      config.maxWalBytes) (hseq : (live.foldl Chunk.apply contents.view).nextSeq ≤ maxU64)
    (hnonempty : head.bytes ++ chunkBytes covered ≠ [])
    (hcoverage : contents.snapshotCoverage = some ⟨[⟨(head.bytes ++ chunkBytes covered).length,
      head.walEpoch, blake3 (head.bytes ++ chunkBytes covered)⟩, next]⟩) :
    replayWal blake3 config ((head.bytes ++ chunkBytes covered) ++ (chunkBytes live ++ torn))
      contents =
      .ok ((contents.withEpoch head.walEpoch true).replayChunks live,
        (head.bytes ++ chunkBytes covered).length + (chunkBytes live).length) := by
  have hload :
      loadWalEpoch ((head.bytes ++ chunkBytes covered) ++ (chunkBytes live ++ torn)) contents =
      .ok (contents.withEpoch head.walEpoch true) := by
    cases head with
    | headed epoch =>
      rw [Head.bytes, append_assoc]
      exact loadWalEpoch_epoch epoch _ contents
    | headerless =>
      have hall : ∀ chunk ∈ covered ++ live, chunk.Fits config := by
        intro chunk hchunk
        rcases mem_append.mp hchunk with h | h
        · exact hcovered chunk h
        · exact hlive chunk h
      obtain ⟨known, hknown, hload⟩ := loadWalEpoch_headerless hall htorn contents
      have hchunks : covered ++ live ≠ [] := by
        intro hnil
        obtain ⟨rfl, -⟩ := append_eq_nil_iff.mp hnil
        exact hnonempty rfl
      obtain rfl := hknown hchunks
      rw [chunkBytes_append, append_assoc] at hload
      rw [Head.bytes, nil_append]
      exact hload
  have hstart : coveredWalReplayStart blake3
      ((head.bytes ++ chunkBytes covered) ++ (chunkBytes live ++ torn))
      (contents.withEpoch head.walEpoch true) = .ok (head.bytes ++ chunkBytes covered).length := by
    rw [coveredWalReplayStart, Contents.withEpoch, hcoverage]
    simp only [Bool.true_eq_false, ↓reduceIte]
    rw [List.find?_cons_of_pos]
    rw [decide_eq_true_eq]
    refine ⟨?_, rfl, ?_⟩
    · exact (sublist_append_left _ _).length_le
    · rw [take_left]
  rw [replayWal, hload]
  simp only [hstart]
  exact replay_live _ hlive htorn hroom hseq

/-- The log that a compaction put in place of the old one. -/
theorem replay_after {epoch : Epoch} {old : CoverageSlot}
    (hlive : ∀ chunk ∈ live, chunk.Fits config) (htorn : Torn config torn)
    (hroom : (coldEpoch epoch ++ (chunkBytes live ++ torn)).length ≤ config.maxWalBytes)
    (hseq : (live.foldl Chunk.apply contents.view).nextSeq ≤ maxU64) (hfresh : old.epoch ≠ epoch)
    (hcoverage : contents.snapshotCoverage = some ⟨[old, freshSlot blake3 epoch]⟩) :
    replayWal blake3 config (coldEpoch epoch ++ (chunkBytes live ++ torn)) contents =
      .ok ((contents.withEpoch epoch true).replayChunks live,
        (coldEpoch epoch).length + (chunkBytes live).length) := by
  have hstart : coveredWalReplayStart blake3 (coldEpoch epoch ++ (chunkBytes live ++ torn))
      (contents.withEpoch epoch true) = .ok (coldEpoch epoch).length := by
    rw [coveredWalReplayStart, Contents.withEpoch, hcoverage]
    simp only [Bool.true_eq_false, ↓reduceIte]
    rw [List.find?_cons_of_neg (by simp [hfresh]), List.find?_cons_of_pos]
    · rw [freshSlot, coldEpoch_length]
    · rw [decide_eq_true_eq]
      refine ⟨?_, rfl, ?_⟩
      · exact Nat.le_trans (Nat.le_of_eq (coldEpoch_length epoch).symm)
          (sublist_append_left _ _).length_le
      · rw [freshSlot, ← coldEpoch_length epoch, take_left]
  rw [replayWal, loadWalEpoch_epoch]
  simp only [hstart]
  exact replay_live _ hlive htorn hroom hseq

theorem freshSlot_le (blake3 : Bytes → Digest) (epoch : Epoch) :
    (freshSlot blake3 epoch).coveredLen ≤ maxU64 := by
  have hlen : coldEpochRecordLen ≤ maxU64 := by decide
  exact hlen

/-- The snapshot and the log of an anchor, replayed one after the other. -/
theorem Anchor.replay {snapshot : Option Bytes}
    (h : Anchor blake3 config snapshot head covered base)
    (hcovered : ∀ chunk ∈ covered, chunk.Fits config) (hlive : ∀ chunk ∈ live, chunk.Fits config)
    (htorn : Torn config torn)
    (hroom : ((head.bytes ++ chunkBytes covered) ++ (chunkBytes live ++ torn)).length ≤
      config.maxWalBytes) (hseq : (live.foldl Chunk.apply base.view).nextSeq ≤ maxU64) :
    ∃ read offset known, replayFile config .snapshot snapshot 0 .init = .ok (read, offset) ∧
      replayWal blake3 config
        ((head.bytes ++ chunkBytes covered) ++ (chunkBytes live ++ torn)) read =
        .ok ((read.withEpoch head.walEpoch known).replayChunks live,
          (head.bytes ++ chunkBytes covered).length + (chunkBytes live).length) ∧
      read.view = base.view ∧ read.Seals config := by
  cases h with
  | unsealed =>
    have hnil : head.bytes ++ chunkBytes [] = head.bytes := append_nil _
    rw [hnil] at hroom ⊢
    obtain ⟨known, hreplay⟩ := replay_unsealed hlive htorn hroom hseq rfl
    exact ⟨.init, 0, known, rfl, hreplay, rfl, init_seals⟩
  | before seals nonempty next_le =>
    have hlen : CoverageSlot.coveredLen ⟨(head.bytes ++ chunkBytes covered).length, head.walEpoch,
        blake3 (head.bytes ++ chunkBytes covered)⟩ ≤ maxU64 :=
      Nat.le_trans (Nat.le_trans (sublist_append_left _ _).length_le hroom) config.walFits
    obtain ⟨read, offset, hread, hview, hcoverage, hseals⟩ := seals.replay_snapshot hlen next_le
    rw [← hview] at hseq
    exact ⟨read, offset, true, hread,
      replay_before hcovered hlive htorn hroom hseq nonempty hcoverage, hview, hseals⟩
  | @after epoch _ old seals fresh old_le =>
    obtain ⟨read, offset, hread, hview, hcoverage, hseals⟩ :=
      seals.replay_snapshot old_le (freshSlot_le blake3 epoch)
    rw [← hview] at hseq
    have hnil : (Head.headed epoch).bytes ++ chunkBytes [] = coldEpoch epoch := append_nil _
    rw [hnil] at hroom ⊢
    exact ⟨read, offset, true, hread, replay_after hlive htorn hroom hseq fresh hcoverage,
      hview, hseals⟩

/-- What replay makes of a started log. -/
theorem Laid.replay (h : Laid blake3 config disk head torn view) (htorn : Torn config torn) :
    ∃ read offset wal final, replayFile config .snapshot disk.snapshot 0 .init =
      .ok (read, offset) ∧
      disk.wal = some (wal ++ torn) ∧ replayWal blake3 config (wal ++ torn) read =
        .ok (final, wal.length) ∧
      Laid blake3 config { disk with wal := some wal } head [] view ∧
      final.view = view ∧ final.walEpoch = head.walEpoch ∧ final.Seals config := by
  obtain ⟨covered, live, base, anchor, hwal, hcovered, hlive, hroom, hmeaning, hseq⟩ := h
  have hfront : head.bytes ++ (chunkBytes covered ++ (chunkBytes live ++ torn)) =
      (head.bytes ++ chunkBytes covered) ++ (chunkBytes live ++ torn) := (append_assoc _ _ _).symm
  have hsplit : (head.bytes ++ chunkBytes covered) ++ (chunkBytes live ++ torn) =
      ((head.bytes ++ chunkBytes covered) ++ chunkBytes live) ++ torn := (append_assoc _ _ _).symm
  have hbound : (live.foldl Chunk.apply base.view).nextSeq ≤ maxU64 := by rw [hmeaning]; exact hseq
  rw [hfront] at hwal hroom
  obtain ⟨read, offset, known, hread, hreplay, hview, hseals⟩ :=
    anchor.replay hcovered hlive htorn hroom hbound
  have hlast : ((read.withEpoch head.walEpoch known).replayChunks live).view = view := by
    rw [view_replayChunks hlive, ← hmeaning, ← hview]
    rfl
  have hstart : (read.withEpoch head.walEpoch known).Seals config :=
    ⟨hseals.fits, hseals.seq, hseals.guard⟩
  have hlastSeq : ((read.withEpoch head.walEpoch known).replayChunks live).nextSeq ≤ maxU64 :=
    Nat.le_trans (Nat.le_of_eq (congrArg View.nextSeq hlast)) hseq
  refine ⟨read, offset, (head.bytes ++ chunkBytes covered) ++ chunkBytes live, _, hread,
    by rw [hwal, hsplit], ?_, ?_, hlast, replayChunks_epoch _ _, hstart.chunks hlive hlastSeq⟩
  · rw [← hsplit, hreplay, ← length_append]
  · refine ⟨covered, live, base, anchor, ?_, hcovered, hlive, ?_, hmeaning, hseq⟩
    · rw [append_nil, append_assoc]
    · simp only [length_append, length_nil] at hroom ⊢
      omega

theorem torn_nil : Torn config [] := Torn.nil (readable_walEpoch legacyWalEpoch)

theorem chunkBytes_eq_nil (hlive : ∀ chunk ∈ live, chunk.Fits config) (h : chunkBytes live = []) :
    live = [] := by
  cases live with
  | nil => rfl
  | cons chunk rest =>
    obtain ⟨payload, more, hbytes, -, -⟩ := (hlive chunk mem_cons_self).frame
    have hlen := congrArg List.length h
    rw [chunkBytes, flatMap_cons, hbytes, length_append, length_append, frame_length,
      recordHeaderLen, length_nil] at hlen
    omega

theorem coldEpoch_ne_nil (epoch : Epoch) : coldEpoch epoch ≠ [] := by
  intro h
  have hlen := coldEpoch_length epoch
  rw [h] at hlen
  cases hlen

/-- A started log without an octet is the one of no store. -/
theorem Laid.empty (h : Laid blake3 config disk head torn view) (hwal : disk.wal.getD [] = []) :
    disk.snapshot = none ∧ view = Contents.init.view := by
  obtain ⟨covered, live, base, anchor, hsome, hcovered, hlive, -, hmeaning, -⟩ := h
  rw [hsome, Option.getD_some] at hwal
  obtain ⟨hhead, hrest⟩ := append_eq_nil_iff.mp hwal
  obtain ⟨hcoveredNil, hrest⟩ := append_eq_nil_iff.mp hrest
  obtain ⟨hliveNil, -⟩ := append_eq_nil_iff.mp hrest
  obtain rfl := chunkBytes_eq_nil hlive hliveNil
  generalize disk.snapshot = snapshot at anchor
  cases anchor with
  | unsealed => exact ⟨rfl, hmeaning.symm⟩
  | before seals nonempty => exact absurd (by rw [hhead, hcoveredNil]; rfl) nonempty
  | after => exact absurd hhead (coldEpoch_ne_nil _)

/-- Opening gives an empty log its epoch record, after which the log is started. -/
theorem Durable.start {epochs : List Epoch} (h : Durable blake3 config epochs disk view)
    (env : Env) :
    ∃ read offset wal head torn,
      replayFile config .snapshot disk.snapshot 0 .init = .ok (read, offset) ∧
      initializeEmptyWalAfterSnapshot blake3 env (disk.wal.getD []) read = .ok wal ∧
      Torn config torn ∧ Head.walEpoch head ∈ env.emptyEpoch :: epochs ∧
      Laid blake3 config { disk with wal := some wal } head torn view := by
  have hfresh : disk.wal.getD [] = [] → disk.snapshot = none → view = Contents.init.view →
      ∃ read offset wal head torn,
        replayFile config .snapshot disk.snapshot 0 .init = .ok (read, offset) ∧
        initializeEmptyWalAfterSnapshot blake3 env (disk.wal.getD []) read = .ok wal ∧
        Torn config torn ∧ Head.walEpoch head ∈ env.emptyEpoch :: epochs ∧
        Laid blake3 config { disk with wal := some wal } head torn view := by
    intro hwal hsnapshot hview
    refine ⟨.init, 0, coldEpoch env.emptyEpoch, .headed env.emptyEpoch, [], by rw [hsnapshot]; rfl,
      by rw [hwal]; rfl, torn_nil, mem_cons_self, [], [], .init, ?_, ?_, by simp, by simp, ?_,
      hview.symm, ?_⟩
    · rw [hsnapshot]
      exact .unsealed _
    · rw [Head.bytes]
      simp [chunkBytes]
    · have := config.epochFits
      simpa [Head.bytes, chunkBytes, coldEpoch_length] using this
    · rw [hview]
      decide
  cases h with
  | fresh wal snapshot meaning => exact hfresh wal snapshot meaning
  | @emptied base old epoch wal seals old_epoch old_len snapshot meaning known =>
    have hold : old.coveredLen ≤ maxU64 := by rw [old_len]; exact Nat.zero_le _
    obtain ⟨read, offset, hread, hview, hcoverage, hseals⟩ :=
      seals.replay_snapshot hold (freshSlot_le blake3 epoch)
    have hepoch : emptyWalEpoch blake3 env.emptyEpoch read.snapshotCoverage = .ok epoch := by
      rw [hcoverage, emptyWalEpoch]
      rw [List.find?_cons_of_neg
        (by simp [old_len, coldEpochRecordLen, recordHeaderLen, walEpochPayloadLen]),
        List.find?_cons_of_pos (by simp [freshSlot])]
      rfl
    refine ⟨read, offset, coldEpoch epoch, .headed epoch, [], by
      rw [snapshot]; exact hread, ?_, torn_nil,
      mem_cons_of_mem _ known, [], [], base, ?_, ?_, by simp, by simp, ?_, meaning.symm, ?_⟩
    · rw [wal, initializeEmptyWalAfterSnapshot, if_pos length_nil, hepoch]
      rfl
    · rw [snapshot]
      exact .after seals old_epoch hold
    · rw [Head.bytes]
      simp [chunkBytes]
    · have := config.epochFits
      simpa [Head.bytes, chunkBytes, coldEpoch_length] using this
    · rw [meaning]
      exact seals.seq
  | @laid head torn layout htorn known =>
    by_cases hwal : disk.wal.getD [] = []
    · obtain ⟨hsnapshot, hview⟩ := layout.empty hwal
      exact hfresh hwal hsnapshot hview
    obtain ⟨read, offset, wal, final, hread, hsome, -⟩ := layout.replay htorn
    refine ⟨read, offset, disk.wal.getD [], head, torn, hread, ?_, htorn,
      mem_cons_of_mem _ known, ?_⟩
    · rw [initializeEmptyWalAfterSnapshot, if_neg (fun hlen => hwal (length_eq_zero_iff.mp hlen))]
    · have hsame : { disk with wal := some (disk.wal.getD []) } = disk := by
        rw [hsome, Option.getD_some, ← hsome]
      rw [hsame]
      exact layout

end Replaying

/-- An open store that may be written to, in step with its disk. -/
structure Settled (blake3 : Bytes → Digest) (config : Config) (epochs : List Epoch)
    (engine : Engine) (view : View) : Prop where
  config_eq : engine.store.config = config
  writable : engine.store.stagedReadOnly = false
  sound : engine.store.preparedPoisoned = false
  shows : engine.store.view = view
  seals : engine.store.Seals config
  offset : (engine.disk.wal.getD []).length = engine.store.walOffset
  known : engine.store.walEpoch ∈ epochs
  laid : ∃ head, engine.store.walEpoch = Head.walEpoch head ∧
    Laid blake3 config engine.disk head [] view

/-- No reservation is held. -/
structure OroStore.Idle (store : OroStore) : Prop where
  prepared : store.activePrepared = none
  batch : store.activeBatch = none

section Opening

variable {blake3 : Bytes → Digest} {config : Config} {epochs : List Epoch} {disk : Disk}
  {view : View} {env : Env}

/-- Opening brings store and disk in step, and then compacts a log that has grown long. -/
theorem Durable.open_eq (h : Durable blake3 config epochs disk view)
    (henv : env.ensureWalFails = false) :
    ∃ contents wal, Settled blake3 config (env.emptyEpoch :: epochs)
        ⟨opened config contents wal.length false, { disk with wal := some wal }⟩ view ∧
      openImpl blake3 config false env disk =
        ((maybeCompact blake3 env
            ⟨opened config contents wal.length false, { disk with wal := some wal }⟩).1.map fun _ =>
          (maybeCompact blake3 env
            ⟨opened config contents wal.length false, { disk with wal := some wal }⟩).2.store,
        (maybeCompact blake3 env
          ⟨opened config contents wal.length false, { disk with wal := some wal }⟩).2.disk) := by
  obtain ⟨read, offset, start, head, torn, hread, hinit, htorn, hknown, hlaid⟩ := h.start env
  obtain ⟨read', offset', wal, final, hread', hwal, hreplay, hcut, hview, hepoch, hseals⟩ :=
    hlaid.replay htorn
  obtain ⟨rfl, rfl⟩ := Prod.mk.inj (Except.ok.inj (hread'.symm.trans hread))
  cases hwal
  refine ⟨final, wal, ?_, ?_⟩
  · rw [← hepoch] at hknown
    exact ⟨rfl, rfl, rfl, hview, hseals, rfl, hknown, head, hepoch, hcut⟩
  · simp only [openImpl, henv, hread, hinit, hreplay, Bool.false_eq_true, false_and, and_false,
      ↓reduceIte, take_left]

end Opening

end OnyxServer.Store
