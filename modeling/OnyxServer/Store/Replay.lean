import OnyxServer.Store.Engine

/-!
# Replay

The loop that reads a log or a snapshot back. What a store writes is a run of frames, and
a crash leaves a strict part of one frame behind them: replay reads the frames and stops
in front of that part.
-/
namespace OnyxServer.Store

open Lib List Option

inductive ReplayKind where
  | snapshot
  | wal
  deriving DecidableEq

def checkedNextSequence (sequence : Nat) : Except StoreError Nat :=
  if sequence = maxU64 then .error .sequenceExhausted else .ok (sequence + 1)

def applyPayload (contents : Contents) (payload : Bytes) : Except StoreError Contents :=
  if payload.length = 0 then .error .badRecord
  else if payload.getD 0 0 = metaKindNextSeq then
    if payload.length ≠ metaNextSeqPayloadLen then .error .badRecord
    else .ok { contents with nextSeq := leNat (slice payload 1 9) }
  else if payload.length < payloadHeaderLen then .error .badRecord
  else
    match decodeKind (payload.getD 0 0) with
    | none => .error .unknownRecordKind
    | some kind =>
      match decodeFamily (payload.getD 1 0) with
      | none => .error .unknownFamily
      | some family =>
        let keyLen := leNat (slice payload 2 6)
        let valueLen := leNat (slice payload 6 10)
        if payload.length ≠
          payloadHeaderLen + keyLen + (if valueLen = tombstoneLen then 0 else valueLen) then
          .error .badRecord
        else
          let key := (payload.drop payloadHeaderLen).take keyLen
          if kind = .delete then
            if valueLen ≠ tombstoneLen then .error .badRecord
              else .ok (contents.applyDelete family key)
          else if valueLen = tombstoneLen then .error .badRecord
          else .ok
            (contents.applyPut family key
              ((payload.drop (payloadHeaderLen + keyLen)).take valueLen))

/-- A record with a kind of its own, or `none` for the ones `applyPayload` reads. -/
def replayMeta (kind : ReplayKind) (recordOffset : Nat) (contents : Contents) (payload : Bytes) :
    Option (Except StoreError Contents) :=
  if payload.getD 0 0 = metaKindSnapshotCoverage then
    some <|
      if kind ≠ .snapshot then .error .badRecord
      else
        match parseSnapshotCoverage payload with
        | .error e => .error e
        | .ok coverage => .ok { contents with snapshotCoverage := some coverage }
  else if payload.getD 0 0 = metaKindWalEpoch then
    some <|
      if kind ≠ .wal ∨ recordOffset ≠ 0 then .error .badRecord
      else
        match parseWalEpoch payload with
        | .error e => .error e
        | .ok epoch => .ok { contents with walEpoch := epoch, walEpochKnown := true }
  else if payload.getD 0 0 = metaKindBatchFormat then
    some <|
      if payload.length ≠ 2 ∨ payload.getD 1 0 ≠ batchFormatVersion then .error .badRecord
      else .ok { contents with batchFormatRequired := true }
  else if payload.getD 0 0 = metaKindBatch then
    some <|
      if kind ≠ .wal ∨ contents.batchFormatRequired = false then .error .badRecord
      else
        match decodeBatch payload with
        | .error e => .error e
        | .ok mutations =>
          match checkedAdd contents.nextSeq mutations.length with
          | none => .error .sequenceExhausted
          | some next =>
              .ok { mutations.foldl Contents.applyMutation contents with nextSeq := next }
  else none

/-- The errors of `applyPayload` that a torn last record explains. -/
def StoreError.undecodable : StoreError → Bool
  | badRecord | unknownFamily | unknownRecordKind => true
  | _ => false

/-- The replay loop over the octets `rest` of a file from `offset` on. The answer is what
was read and the offset behind the last record applied: a log may end in a torn record,
a snapshot may not. Every pass takes at least a record header, which bounds the fuel. -/
def replayLoop (config : Config) (kind : ReplayKind) :
    Nat → Nat → Bytes → Contents → Except StoreError (Contents × Nat)
  | 0, _, _, _ => .error .badRecord
  | fuel + 1, offset, rest, contents =>
    if rest.length = 0 then .ok (contents, offset)
    else if rest.length < recordHeaderLen then
      if kind = .wal then .ok (contents, offset) else .error .badRecord
    else
      let payloadLen := leNat (slice rest 0 4)
      let body := rest.drop recordHeaderLen
      if config.maxRecordBytes < payloadLen ∧ isAllowedMetaPayloadLen payloadLen = false then
        if kind = .wal ∧ body.length < payloadLen then .ok (contents, offset)
          else .error .recordTooLarge
      else if body.length < payloadLen then
        if kind = .wal then .ok (contents, offset) else .error .badRecord
      else
        let payload := body.take payloadLen
        let recordEnd := offset + recordHeaderLen + payloadLen
        if (checksum payload).toNat ≠ leNat (slice rest 4 8) then
          if kind = .wal ∧ body.length - payloadLen < recordHeaderLen then .ok (contents, offset)
          else .error .checksumMismatch
        else if payload.length = 0 then .error .badRecord
        else
          match replayMeta kind offset contents payload with
          | some (.error e) => .error e
          | some (.ok contents) =>
              replayLoop config kind fuel recordEnd (body.drop payloadLen) contents
          | none =>
            match applyPayload contents payload with
            | .error e =>
              if e.undecodable ∧ contents.batchFormatRequired = false ∧ kind = .wal ∧
                  body.length = payloadLen then .ok (contents, offset)
              else .error e
            | .ok contents =>
              match (if kind = .wal ∧
                isMutationPayload payload then checkedNextSequence contents.nextSeq
                  else .ok contents.nextSeq) with
              | .error e => .error e
              | .ok nextSeq =>
                replayLoop config kind fuel recordEnd (body.drop payloadLen)
                  { contents with nextSeq := nextSeq }

def replaySource (config : Config) (kind : ReplayKind) (file : Bytes) (start : Nat)
    (contents : Contents) :
    Except StoreError (Contents × Nat) :=
  if file.length = 0 then .ok (contents, 0)
  else if kind = .wal ∧ config.maxWalBytes < file.length then .error .recordTooLarge
  else if file.length < start then .error .snapshotCoverageMismatch
  else replayLoop config kind (file.length + 1) start (file.drop start) contents

def replayFile (config : Config) (kind : ReplayKind) (file : Option Bytes) (start : Nat)
    (contents : Contents) : Except StoreError (Contents × Nat) :=
  match file with
  | none => .ok (contents, 0)
  | some file => replaySource config kind file start contents

section Frames

variable {config : Config} {kind : ReplayKind} {payload : Bytes} {contents : Contents}

/-- The payloads replay does not refuse for their size. -/
structure Readable (config : Config) (payload : Bytes) : Prop where
  nonempty : payload ≠ []
  word : payload.length ≤ maxU32
  allowed : payload.length ≤ config.maxRecordBytes ∨ isAllowedMetaPayloadLen payload.length = true

/-- Replay with the fuel its length asks for. -/
def replayFrom (config : Config) (kind : ReplayKind) (offset : Nat) (rest : Bytes)
    (contents : Contents) :
    Except StoreError (Contents × Nat) :=
  replayLoop config kind (rest.length + 1) offset rest contents

theorem replayLoop_fuel {fuel fuel' : Nat} {rest : Bytes} (offset : Nat) (contents : Contents)
    (h : rest.length < fuel) (h' : rest.length < fuel') :
    replayLoop config kind fuel offset rest contents =
      replayLoop config kind fuel' offset rest contents := by
  induction fuel generalizing fuel' offset rest contents with
  | zero => omega
  | succ fuel ih =>
    cases fuel' with
    | zero => omega
    | succ fuel' =>
      by_cases hshort : rest.length < recordHeaderLen
      · simp only [replayLoop, if_pos hshort]
      have hrec : ∀ (n offset : Nat) (contents : Contents),
          replayLoop config kind fuel offset ((rest.drop recordHeaderLen).drop n) contents =
            replayLoop config kind fuel' offset
              ((rest.drop recordHeaderLen).drop n) contents := by
        intro n offset contents
        refine ih offset contents ?_ ?_ <;>
          simp only [length_drop, recordHeaderLen] at hshort ⊢ <;> omega
      simp only [replayLoop, hrec]

theorem replayLoop_eq {fuel : Nat} {rest : Bytes} (offset : Nat) (contents : Contents)
    (h : rest.length < fuel) :
    replayLoop config kind fuel offset rest contents =
      replayFrom config kind offset rest contents :=
  replayLoop_fuel offset contents h (Nat.lt_succ_self _)

theorem frame_append (payload more : Bytes) :
    frame payload ++ more =
      leBytes 4 payload.length ++ (leBytes 4 (checksum payload).toNat ++ (payload ++ more)) := by
  rw [frame, append_assoc, append_assoc]

theorem frame_word (payload more : Bytes) :
    slice (frame payload ++ more) 0 4 = leBytes 4 payload.length := by
  rw [frame_append]
  exact slice_first (leBytes_length _ _)

theorem frame_sum (payload more : Bytes) :
    slice (frame payload ++ more) 4 8 = leBytes 4 (checksum payload).toNat :=
  slice_field (frame_append payload more) (leBytes_length _ _) (by rw [leBytes_length])

theorem frame_body (payload more : Bytes) :
    (frame payload ++ more).drop recordHeaderLen = payload ++ more := by
  rw [frame_append, ← append_assoc, drop_left']
  simp [recordHeaderLen]

theorem leNat_word {n : Nat} (h : n ≤ maxU32) : leNat (leBytes 4 n) = n :=
  leNat_leBytes (by simp only [maxU32] at h; omega)

theorem leNat_sum (payload : Bytes) :
    leNat (leBytes 4 (checksum payload).toNat) = (checksum payload).toNat :=
  leNat_leBytes (by have := (checksum payload).toNat_lt; omega)

theorem Readable.size (h : Readable config payload) :
    ¬ (config.maxRecordBytes < payload.length ∧
      isAllowedMetaPayloadLen payload.length = false) := by
  rintro ⟨hlong, hmeta⟩
  rcases h.allowed with hfits | hallowed
  · omega
  · rw [hmeta] at hallowed; cases hallowed

/-- One complete frame. -/
theorem replayFrom_frame (h : Readable config payload) (offset : Nat) (more : Bytes) :
    replayFrom config kind offset (frame payload ++ more) contents =
      match replayMeta kind offset contents payload with
      | some (.error e) => .error e
      | some (.ok next) => replayFrom config kind (offset + (frame payload).length) more next
      | none =>
        match applyPayload contents payload with
        | .error e =>
          if e.undecodable ∧ contents.batchFormatRequired = false ∧ kind = .wal ∧
              (payload ++ more).length = payload.length then .ok (contents, offset)
          else .error e
        | .ok next =>
          match (if kind = .wal ∧ isMutationPayload payload then checkedNextSequence next.nextSeq
              else .ok next.nextSeq) with
          | .error e => .error e
          | .ok nextSeq =>
            replayFrom config kind (offset + (frame payload).length) more { next with nextSeq :=
              nextSeq } := by
  have hlen := frame_length payload
  have hpos := length_pos_iff.mpr h.nonempty
  have hend : offset + recordHeaderLen + payload.length =
      offset + (frame payload).length := by omega
  have hfuel : ∀ (offset : Nat) (next : Contents),
      replayLoop config kind (frame payload ++ more).length offset more next =
        replayFrom config kind offset more next :=
    fun offset next => replayLoop_eq offset next (by rw [length_append]; omega)
  have hlength : (frame payload ++ more).length = (frame payload).length + more.length :=
    length_append
  have hbody : (payload ++ more).length = payload.length + more.length := length_append
  rw [replayFrom, replayLoop, if_neg (by omega), if_neg (by omega)]
  simp only [frame_word, frame_sum, frame_body, leNat_word h.word, leNat_sum]
  rw [if_neg h.size, if_neg (by omega), take_left, if_neg (by simp), if_neg (by omega), hend,
    drop_left]
  simp only [hfuel]

/-- The part of a frame that a crash leaves behind. -/
def Torn (config : Config) (tail : Bytes) : Prop :=
  ∃ payload n, Readable config payload ∧ n < (frame payload).length ∧ tail = (frame payload).take n

theorem Torn.nil (h : Readable config payload) : Torn config [] :=
  ⟨payload, 0, h, by rw [frame_length, recordHeaderLen]; omega, rfl⟩

theorem take_frame_word {n : Nat} (h : recordHeaderLen ≤ n) :
    slice ((frame payload).take n) 0 4 = leBytes 4 payload.length := by
  have hframe := frame_word payload []
  rw [append_nil] at hframe
  rw [← hframe, slice, slice, drop_zero, drop_zero, take_take]
  congr 1
  simp only [recordHeaderLen] at h
  omega

/-- Replay of a log stops in front of a torn frame. -/
theorem Torn.replay {tail : Bytes} (h : Torn config tail) (offset : Nat) :
    replayFrom config .wal offset tail contents = .ok (contents, offset) := by
  obtain ⟨payload, n, hread, hn, rfl⟩ := h
  have hlength : ((frame payload).take n).length = n := by rw [length_take]; omega
  rw [frame_length] at hn
  rw [replayFrom, replayLoop, hlength]
  by_cases hzero : n = 0
  · rw [if_pos hzero]
  rw [if_neg hzero]
  by_cases hshort : n < recordHeaderLen
  · rw [if_pos hshort, if_pos rfl]
  rw [if_neg hshort]
  have hbody : (((frame payload).take n).drop recordHeaderLen).length < payload.length := by
    rw [length_drop, hlength]
    omega
  simp only [take_frame_word (Nat.not_lt.mp hshort), leNat_word hread.word]
  rw [if_neg hread.size, if_pos hbody, if_pos trivial]

end Frames

section Records

variable {config : Config} {contents : Contents}

def editMaps (maps : Family → Table) (mutation : BatchMutation) : Family → Table :=
  Function.update maps mutation.family (edit (maps mutation.family) mutation.key mutation.value)

variable {mutation : BatchMutation}

theorem Contents.applyMutation_eq (h : mutation.Shaped) (contents : Contents) :
    contents.applyMutation mutation =
      { contents with maps := editMaps contents.maps mutation } := by
  rcases h.cases with ⟨hkind, value, hvalue⟩ | ⟨hkind, hvalue⟩
  · simp only [Contents.applyMutation, hkind, hvalue, getD_some, Contents.applyPut, editMaps]
  · simp only [Contents.applyMutation, hkind, hvalue, Contents.applyDelete, editMaps]

variable {mutations : List BatchMutation}

theorem foldl_applyMutation (h : ∀ mutation ∈ mutations, mutation.Shaped)
    (contents : Contents) :
    mutations.foldl Contents.applyMutation contents =
      { contents with maps := mutations.foldl editMaps contents.maps } := by
  induction mutations generalizing contents with
  | nil => rfl
  | cons mutation rest ih =>
    obtain ⟨hfirst, hrest⟩ := forall_mem_cons.mp h
    rw [foldl_cons, ih hrest, Contents.applyMutation_eq hfirst]
    rfl

theorem applyPayload_encode (h : mutation.Shaped)
    (hfits : (encodeMutation mutation).length ≤ maxU32) :
    applyPayload contents (encodeMutation mutation) = .ok (contents.applyMutation mutation) := by
  have hkind : decodeKind ((encodeMutation mutation).getD 0 0) = some mutation.kind :=
    decodeKind_code _
  have hfamily : decodeFamily ((encodeMutation mutation).getD 1 0) = some mutation.family :=
    decodeFamily_code _
  have hmeta : (encodeMutation mutation).getD 0 0 ≠ metaKindNextSeq := by
    have hfirst : (encodeMutation mutation).getD 0 0 = mutation.kind.code := rfl
    rw [hfirst]
    cases mutation.kind <;> decide
  have hlength := encodeMutation_length mutation
  have hheader : payloadHeaderLen = 10 := rfl
  rw [applyPayload, if_neg (by omega), if_neg hmeta, if_neg (by omega), hkind]
  simp only [hfamily, encodeMutation_keyLen hfits, encodeMutation_valueLen hfits,
    encodeMutation_key, encodeMutation_value]
  rcases h.cases with ⟨hput, value, hvalue⟩ | ⟨hdelete, hvalue⟩
  · have htombstone := valueLen_ne_tombstone hvalue hfits
    simp only [hvalue, getD_some, map_some] at hlength ⊢
    rw [if_neg htombstone, if_neg (by omega), if_neg (by simp [hput]), if_neg htombstone,
      take_length]
    simp only [Contents.applyMutation, hput, hvalue, getD_some]
  · simp only [hvalue, getD_none, length_nil, map_none] at hlength ⊢
    rw [if_pos trivial, if_neg (by omega), if_pos hdelete, if_neg (by simp)]
    simp only [Contents.applyMutation, hdelete]

theorem replayMeta_encodeMutation (kind : ReplayKind) (offset : Nat) (mutation : BatchMutation) :
    replayMeta kind offset contents (encodeMutation mutation) = none := by
  have hfirst : (encodeMutation mutation).getD 0 0 = mutation.kind.code := rfl
  simp only [replayMeta, hfirst]
  cases mutation.kind <;> rfl

theorem isMutationPayload_encodeMutation (mutation : BatchMutation) :
    isMutationPayload (encodeMutation mutation) = true := by
  simp only [encodeMutation, isMutationPayload]
  cases mutation.kind <;> rfl

theorem readable_encodeMutation
    (h : (encodeMutation mutation).length ≤ config.maxRecordBytes) :
    Readable config (encodeMutation mutation) := by
  constructor
  · simp [encodeMutation]
  · exact Nat.le_trans h config.recordFits
  · exact Or.inl h

section

variable (hshaped : mutation.Shaped)
    (hfits : (encodeMutation mutation).length ≤ config.maxRecordBytes)
include hshaped hfits

theorem replayFrom_mutation (hseq : contents.nextSeq < maxU64) (offset : Nat) (more : Bytes) :
    replayFrom config .wal offset (frame (encodeMutation mutation) ++ more) contents =
      replayFrom config .wal (offset + (frame (encodeMutation mutation)).length) more
        { contents.applyMutation mutation with nextSeq := contents.nextSeq + 1 } := by
  have hread := readable_encodeMutation hfits
  have hnext : (contents.applyMutation mutation).nextSeq = contents.nextSeq := by
    rw [Contents.applyMutation_eq hshaped]
  rw [replayFrom_frame hread, replayMeta_encodeMutation]
  simp only [applyPayload_encode hshaped hread.word, isMutationPayload_encodeMutation, hnext,
    checkedNextSequence]
  rw [if_pos (by simp), if_neg (by omega)]

/-- A row of a snapshot: nothing is counted. -/
theorem replayFrom_row (offset : Nat) (more : Bytes) :
    replayFrom config .snapshot offset (frame (encodeMutation mutation) ++ more) contents =
      replayFrom config .snapshot (offset + (frame (encodeMutation mutation)).length) more
        (contents.applyMutation mutation) := by
  have hread := readable_encodeMutation hfits
  rw [replayFrom_frame hread, replayMeta_encodeMutation]
  simp only [applyPayload_encode hshaped hread.word]
  rw [if_neg (by simp)]

end

theorem readable_guard (h : 2 ≤ config.maxRecordBytes) : Readable config batchGuardPayload := by
  constructor
  · decide
  · decide
  · exact Or.inl h

theorem replayFrom_guard (h : 2 ≤ config.maxRecordBytes) (kind : ReplayKind) (offset : Nat)
    (more : Bytes) :
    replayFrom config kind offset (encodeBatchGuard ++ more) contents =
      replayFrom config kind (offset + encodeBatchGuard.length) more
        { contents with batchFormatRequired := true } := by
  rw [encodeBatchGuard, replayFrom_frame (readable_guard h)]
  rfl

section

variable (h : BatchFits config.maxRecordBytes mutations)
include h

theorem BatchFits.guard :
    2 ≤ config.maxRecordBytes := by
  have hsize := h.size
  rw [encodeBatch_length] at hsize
  omega

theorem readable_encodeBatch : Readable config (encodeBatch mutations) := by
  constructor
  · simp [encodeBatch]
  · exact h.sizeFits
  · exact Or.inl h.size

theorem replayFrom_batch
    (hrequired : contents.batchFormatRequired = true)
    (hseq : contents.nextSeq + mutations.length ≤ maxU64) (offset : Nat) (more : Bytes) :
    replayFrom config .wal offset (frame (encodeBatch mutations) ++ more) contents =
      replayFrom config .wal (offset + (frame (encodeBatch mutations)).length) more
        { mutations.foldl Contents.applyMutation contents with
          nextSeq := contents.nextSeq + mutations.length } := by
  have hlimit : config.maxRecordBytes ≤ maxU64 := Nat.le_trans config.recordFits (by decide)
  have hnext : checkedAdd contents.nextSeq mutations.length =
      some (contents.nextSeq + mutations.length) :=
    checkedAdd_some (by simp only [maxU64, usizeLimit] at hseq ⊢; omega)
  have hmeta : replayMeta .wal offset contents (encodeBatch mutations) =
      some (.ok { mutations.foldl Contents.applyMutation contents with
        nextSeq := contents.nextSeq + mutations.length }) := by
    have hkind : (encodeBatch mutations).getD 0 0 = metaKindBatch := rfl
    rw [replayMeta, hkind, if_neg (by decide), if_neg (by decide), if_neg (by decide), if_pos rfl,
      if_neg (by simp [hrequired]), h.decode hlimit]
    simp only [hnext]
  rw [replayFrom_frame (readable_encodeBatch h), hmeta]

end

theorem readable_walEpoch (epoch : Epoch) : Readable config (walEpochPayload epoch) := by
  constructor
  · simp [walEpochPayload]
  · rw [walEpochPayload_length]; decide
  · rw [walEpochPayload_length]; exact Or.inr rfl

theorem replayFrom_epoch (epoch : Epoch) (more : Bytes) :
    replayFrom config .wal 0 (coldEpoch epoch ++ more) contents =
      replayFrom config .wal coldEpochRecordLen more
        { contents with walEpoch := epoch, walEpochKnown := true } := by
  have hmeta : replayMeta .wal 0 contents (walEpochPayload epoch) =
      some (.ok { contents with walEpoch := epoch, walEpochKnown := true }) := by
    have hkind : (walEpochPayload epoch).getD 0 0 = metaKindWalEpoch := rfl
    rw [replayMeta, hkind, if_neg (by decide), if_pos rfl, if_neg (by simp), parseWalEpoch_payload]
  rw [coldEpoch, replayFrom_frame (readable_walEpoch epoch), hmeta]
  simp only
  rw [← coldEpoch, coldEpoch_length, Nat.zero_add]

theorem replayFrom_nextSeq {nextSeq : Nat} (h : nextSeq ≤ maxU64) (more : Bytes) (offset : Nat) :
    replayFrom config .snapshot offset (frame (nextSeqPayload nextSeq) ++ more) contents =
      replayFrom config .snapshot (offset + (frame (nextSeqPayload nextSeq)).length) more
        { contents with nextSeq := nextSeq } := by
  have hread : Readable config (nextSeqPayload nextSeq) := by
    constructor
    · simp [nextSeqPayload]
    · rw [nextSeqPayload_length]; decide
    · rw [nextSeqPayload_length]; exact Or.inr rfl
  have hkind : (nextSeqPayload nextSeq).getD 0 0 = metaKindNextSeq := rfl
  have hmeta : replayMeta .snapshot offset contents (nextSeqPayload nextSeq) = none := by
    rw [replayMeta, hkind]
    rfl
  have hword : slice (nextSeqPayload nextSeq) 1 9 = leBytes 8 nextSeq :=
    slice_field (l := [metaKindNextSeq]) (r := []) (by simp [nextSeqPayload]) rfl
      (by rw [leBytes_length])
  have hvalue : leNat (leBytes 8 nextSeq) = nextSeq :=
    leNat_leBytes (by simp only [maxU64] at h; omega)
  have happly : applyPayload contents (nextSeqPayload nextSeq) =
      .ok { contents with nextSeq := nextSeq } := by
    rw [applyPayload, nextSeqPayload_length, hkind, if_neg (by decide), if_pos rfl,
      if_neg (by simp), hword, hvalue]
  rw [replayFrom_frame hread, hmeta]
  simp only [happly]
  rw [if_neg (by simp)]

theorem replayFrom_coverage {first second : CoverageSlot} (hfirst : first.coveredLen ≤ maxU64)
    (hsecond : second.coveredLen ≤ maxU64) (more : Bytes) (offset : Nat) :
    replayFrom config .snapshot offset (frame (snapshotCoveragePayload ⟨[first, second]⟩) ++ more)
      contents =
      replayFrom config .snapshot
        (offset + (frame (snapshotCoveragePayload ⟨[first, second]⟩)).length) more
        { contents with snapshotCoverage := some ⟨[first, second]⟩ } := by
  have hlength := snapshotCoveragePayload_pair_length first second
  have hread : Readable config (snapshotCoveragePayload ⟨[first, second]⟩) := by
    constructor
    · intro hnil
      rw [hnil] at hlength
      cases hlength
    · rw [hlength]; decide
    · rw [hlength]; exact Or.inr rfl
  have hmeta : replayMeta .snapshot offset contents (snapshotCoveragePayload ⟨[first, second]⟩) =
      some (.ok { contents with snapshotCoverage := some ⟨[first, second]⟩ }) := by
    have hkind : (snapshotCoveragePayload ⟨[first, second]⟩).getD 0 0 =
        metaKindSnapshotCoverage := by
      rw [snapshotCoveragePayload_pair]; rfl
    rw [replayMeta, hkind, if_pos rfl, if_neg (by simp), parseSnapshotCoverage_pair hfirst hsecond]
  rw [replayFrom_frame hread, hmeta]

end Records

end OnyxServer.Store
