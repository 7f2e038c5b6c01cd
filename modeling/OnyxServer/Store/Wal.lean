import OnyxServer.Lib.Wire

/-!
# Records of the write-ahead log and the snapshot

Every record is a frame: the length of its payload, a checksum and the payload, with
all integers little-endian. The first octet of a payload is its kind. The codecs
follow `wal.zig` and `contracts.zig`.
-/
namespace OnyxServer.Store

open Lib List Option

def recordHeaderLen : Nat := 8
def payloadHeaderLen : Nat := 10
def maxU32 : Nat := 2 ^ 32 - 1
def maxU64 : Nat := 2 ^ 64 - 1
def tombstoneLen : Nat := maxU32
def maxBatchMutations : Nat := 42

def metaKindNextSeq : UInt8 := 0xFE
def metaKindSnapshotCoverage : UInt8 := 0xFD
def metaKindWalEpoch : UInt8 := 0xFC
def metaKindBatch : UInt8 := 0xFB
def metaKindBatchFormat : UInt8 := 0xFA

def batchFormatVersion : UInt8 := 1
def snapshotCoverageVersion : UInt8 := 2
def metaNextSeqPayloadLen : Nat := 9
def walEpochPayloadLen : Nat := 17
def snapshotCoverageSlotLen : Nat := 56
def snapshotCoveragePayloadLen : Nat := 115
def snapshotCoverageV1PayloadLen : Nat := 59
def coldEpochRecordLen : Nat := recordHeaderLen + walEpochPayloadLen

inductive StoreError where
  | badRecord
  | checksumMismatch
  | unknownFamily
  | unknownRecordKind
  | recordTooLarge
  | preparedMutationActive
  | preparedAlreadyConsumed
  | storePoisoned
  | ioAmbiguous
  | snapshotSyncFailed
  | sequenceExhausted
  | snapshotCoverageMismatch
  | readOnlyStore
  | invalidTablePlan
  | tableWorkExceeded
  | outOfMemory
  /-- An error of the file system, passed on as it is. -/
  | io
  deriving DecidableEq

/-- Storage limits. The configuration loader keeps record sizes within the 32-bit length
field and log sizes between one mebibyte and four gibibytes. What is used of this is
that a log has room for its epoch record. -/
structure Config where
  maxRecordBytes : Nat
  maxWalBytes : Nat
  changefeedCapacity : Nat
  recordFits : maxRecordBytes ≤ maxU32
  walFits : maxWalBytes ≤ maxU64
  epochFits : coldEpochRecordLen ≤ maxWalBytes
  deriving DecidableEq

inductive Family where
  | accounts
  | nicks
  | chanregs
  | bans
  | memos
  | vhosts
  | props
  | history
  deriving DecidableEq

def families : List Family :=
  [.accounts, .nicks, .chanregs, .bans, .memos, .vhosts, .props, .history]

def Family.code : Family → UInt8
  | .accounts => 0
  | .nicks => 1
  | .chanregs => 2
  | .bans => 3
  | .memos => 4
  | .vhosts => 5
  | .props => 6
  | .history => 7

def decodeFamily (value : UInt8) : Option Family :=
  families.find? fun family => family.code == value

inductive MutationKind where
  | put
  | delete
  deriving DecidableEq

def MutationKind.code : MutationKind → UInt8
  | .put => 0
  | .delete => 1

def decodeKind (value : UInt8) : Option MutationKind :=
  if value = 0 then some .put else if value = 1 then some .delete else none

structure BatchMutation where
  family : Family
  kind : MutationKind
  key : Bytes
  value : Option Bytes
  deriving DecidableEq

/-- Two mutations of one row. -/
def BatchMutation.SameRow (a b : BatchMutation) : Prop := a.family = b.family ∧ a.key = b.key

theorem decodeFamily_code (family : Family) : decodeFamily family.code = some family := by
  cases family <;> rfl

theorem decodeKind_code (kind : MutationKind) : decodeKind kind.code = some kind := by
  cases kind <;> rfl

/-- A put has a value and a delete has none. -/
def BatchMutation.Shaped (mutation : BatchMutation) : Prop :=
  mutation.kind = .put ↔ mutation.value.isSome

instance (mutation : BatchMutation) : Decidable mutation.Shaped :=
  inferInstanceAs (Decidable (_ ↔ _))

/-- FNV-1a over 32 bits. -/
def checksum (payload : Bytes) : UInt32 :=
  payload.foldl (fun hash byte => (hash ^^^ byte.toUInt32) * 16777619) 2166136261

def frame (payload : Bytes) : Bytes :=
  leBytes 4 payload.length ++ (leBytes 4 (checksum payload).toNat ++ payload)

theorem frame_length (payload : Bytes) :
    (frame payload).length = recordHeaderLen + payload.length := by
  simp only [frame, length_append, leBytes_length, recordHeaderLen]
  omega

def isAllowedMetaPayloadLen (payloadLen : Nat) : Bool :=
  payloadLen == metaNextSeqPayloadLen || payloadLen == walEpochPayloadLen ||
    payloadLen == snapshotCoveragePayloadLen || payloadLen == snapshotCoverageV1PayloadLen

def checkedPayloadLen (kind : MutationKind) (key value : Bytes) (maxRecordBytes : Nat) :
    Except StoreError Nat :=
  if maxU32 < key.length ∨ (kind = .put ∧ maxU32 < value.length) then .error .recordTooLarge
  else
    match checkedAdd payloadHeaderLen key.length with
    | none => .error .recordTooLarge
    | some payloadLen =>
      match (if kind = .put then checkedAdd payloadLen value.length else some payloadLen) with
      | none => .error .recordTooLarge
      | some payloadLen =>
        if maxRecordBytes < payloadLen then .error .recordTooLarge else .ok payloadLen

def encodeMutation (mutation : BatchMutation) : Bytes :=
  mutation.kind.code :: mutation.family.code ::
    (leBytes 4 mutation.key.length ++
      (leBytes 4 ((mutation.value.map List.length).getD tombstoneLen) ++
        (mutation.key ++ mutation.value.getD [])))

section Mutation

variable {mutation : BatchMutation} {limit : Nat}

theorem encodeMutation_length (mutation : BatchMutation) :
    (encodeMutation mutation).length =
      payloadHeaderLen + mutation.key.length + (mutation.value.getD []).length := by
  simp only [encodeMutation, length_cons, length_append, leBytes_length, payloadHeaderLen]
  omega

theorem BatchMutation.Shaped.cases (h : mutation.Shaped) :
    (mutation.kind = .put ∧ ∃ value, mutation.value = some value) ∨
    (mutation.kind = .delete ∧ mutation.value = none) := by
  unfold BatchMutation.Shaped at h
  cases hkind : mutation.kind with
  | put => exact Or.inl ⟨rfl, isSome_iff_exists.mp (h.mp hkind)⟩
  | delete =>
    refine Or.inr ⟨rfl, ?_⟩
    cases hvalue : mutation.value with
    | none => rfl
    | some value =>
      have hput := h.mpr (by rw [hvalue]; rfl)
      rw [hkind] at hput
      cases hput

theorem checkedPayloadLen_ok (h : mutation.Shaped) {size : Nat}
    (hsize : checkedPayloadLen mutation.kind mutation.key (mutation.value.getD []) limit =
      .ok size) :
    size = (encodeMutation mutation).length ∧ size ≤ limit := by
  rw [encodeMutation_length]
  unfold checkedPayloadLen at hsize
  split at hsize
  · cases hsize
  cases hkey : checkedAdd payloadHeaderLen mutation.key.length with
  | none => rw [hkey] at hsize; cases hsize
  | some base =>
    rw [hkey] at hsize
    have hbase := checkedAdd_eq hkey
    rcases h.cases with ⟨hkind, value, hvalue⟩ | ⟨hkind, hvalue⟩
    · simp only [hkind, hvalue, getD_some, ↓reduceIte] at hsize ⊢
      cases htotal : checkedAdd base value.length with
      | none => rw [htotal] at hsize; cases hsize
      | some total =>
        rw [htotal] at hsize
        have htotal := checkedAdd_eq htotal
        simp only at hsize
        split_ifs at hsize
        · cases hsize
          omega
    · simp only [hkind, hvalue, getD_none, reduceCtorEq, ↓reduceIte] at hsize ⊢
      split_ifs at hsize
      · cases hsize
        rw [length_nil]
        omega

theorem checkedPayloadLen_of (h : mutation.Shaped)
    (hlimit : (encodeMutation mutation).length ≤ limit)
    (hfits : (encodeMutation mutation).length ≤ maxU32) :
    checkedPayloadLen mutation.kind mutation.key (mutation.value.getD []) limit =
      .ok (encodeMutation mutation).length := by
  rw [encodeMutation_length] at hlimit hfits ⊢
  have hroom : maxU32 < usizeLimit := by decide
  have hlens : ¬ (maxU32 < mutation.key.length ∨
      (mutation.kind = .put ∧ maxU32 < (mutation.value.getD []).length)) := by omega
  unfold checkedPayloadLen
  rw [if_neg hlens, checkedAdd_some (by omega)]
  rcases h.cases with ⟨hkind, value, hvalue⟩ | ⟨hkind, hvalue⟩
  · simp only [hkind, hvalue, getD_some, ↓reduceIte] at hlimit hfits ⊢
    rw [checkedAdd_some (by omega)]
    simp only
    rw [if_neg (by omega)]
  · simp only [hkind, hvalue, getD_none, length_nil, reduceCtorEq, ↓reduceIte] at hlimit hfits ⊢
    rw [if_neg (by omega)]
    rfl

end Mutation

def isMutationPayload (payload : Bytes) : Bool :=
  match payload with
  | [] => false
  | kind :: _ => kind == MutationKind.put.code || kind == MutationKind.delete.code

def batchPayloadLoop (limit : Nat) :
    List BatchMutation → Nat → List BatchMutation → Except StoreError Nat
  | _, size, [] => if limit < size ∨ maxU32 < size then .error .recordTooLarge else .ok size
  | prior, size, mutation :: rest =>
    if ¬ mutation.Shaped then .error .badRecord
    else if prior.any fun earlier =>
        mutation.family == earlier.family && mutation.key == earlier.key then .error .badRecord
    else
      match checkedPayloadLen mutation.kind mutation.key (mutation.value.getD []) limit with
      | .error e => .error e
      | .ok part =>
        match checkedAdd size 4 with
        | none => .error .recordTooLarge
        | some size =>
          match checkedAdd size part with
          | none => .error .recordTooLarge
          | some size => batchPayloadLoop limit (prior ++ [mutation]) size rest

def batchPayloadLen (mutations : List BatchMutation) (limit : Nat) : Except StoreError Nat :=
  if mutations.length = 0 ∨ maxBatchMutations < mutations.length then .error .badRecord
  else batchPayloadLoop limit [] 3 mutations

def batchGuardPayload : Bytes := [metaKindBatchFormat, batchFormatVersion]

def encodeBatchGuard : Bytes := frame batchGuardPayload

/-- The parts of a batch. The length before a part is the one `checkedPayloadLen` gives
it, `checkedPayloadLen_ok` below. -/
def encodeParts (mutations : List BatchMutation) : Bytes :=
  mutations.flatMap fun mutation =>
    leBytes 4 (encodeMutation mutation).length ++ encodeMutation mutation

def encodeBatch (mutations : List BatchMutation) : Bytes :=
  metaKindBatch :: batchFormatVersion :: UInt8.ofNat mutations.length :: encodeParts mutations

def decodePart (part : Bytes) : Except StoreError BatchMutation :=
  match decodeKind (part.getD 0 0) with
  | none => .error .unknownRecordKind
  | some kind =>
    match decodeFamily (part.getD 1 0) with
    | none => .error .unknownFamily
    | some family =>
      let keyLen := leNat (slice part 2 6)
      let valueLen := leNat (slice part 6 10)
      if ¬ (kind = .delete ↔ valueLen = tombstoneLen) then .error .badRecord
      else if part.length - payloadHeaderLen < keyLen then .error .badRecord
      else if part.length - payloadHeaderLen - keyLen ≠
        (if kind = .delete then 0 else valueLen) then
        .error .badRecord
      else
        .ok {
          family, kind
          key := (part.drop payloadHeaderLen).take keyLen
          value := if kind = .put then some (part.drop (payloadHeaderLen + keyLen)) else none }

/-- The parts of a batch and what follows them. -/
def decodeParts : Nat → Bytes → Except StoreError (List BatchMutation × Bytes)
  | 0, rest => .ok ([], rest)
  | count + 1, rest =>
    if rest.length < 4 then .error .badRecord
    else
      let len := leNat (rest.take 4)
      let rest := rest.drop 4
      if len < payloadHeaderLen ∨ rest.length < len then .error .badRecord
      else
        match decodePart (rest.take len) with
        | .error e => .error e
        | .ok mutation =>
          match decodeParts count (rest.drop len) with
          | .error e => .error e
          | .ok (mutations, rest) => .ok (mutation :: mutations, rest)

def decodeBatch (payload : Bytes) : Except StoreError (List BatchMutation) :=
  if payload.length < 3 ∨ payload.getD 0 0 ≠ metaKindBatch ∨ payload.getD 1 0 ≠ batchFormatVersion ∨
      payload.getD 2 0 = 0 ∨ maxBatchMutations < (payload.getD 2 0).toNat then .error .badRecord
  else
    match decodeParts (payload.getD 2 0).toNat (payload.drop 3) with
    | .error e => .error e
    | .ok (mutations, rest) =>
      if rest ≠ [] then .error .badRecord
      else
        match batchPayloadLen mutations maxU64 with
        | .error e => .error e
        | .ok _ => .ok mutations

section Mutation

variable {mutation : BatchMutation}

theorem encodeMutation_keyLen (hfits : (encodeMutation mutation).length ≤ maxU32) :
    leNat (slice (encodeMutation mutation) 2 6) = mutation.key.length := by
  rw [encodeMutation_length] at hfits
  have hfield : slice (encodeMutation mutation) 2 6 = leBytes 4 mutation.key.length :=
    slice_field (l := [mutation.kind.code, mutation.family.code]) rfl rfl (by rw [leBytes_length])
  rw [hfield, leNat_leBytes]
  simp only [maxU32] at hfits
  omega

theorem encodeMutation_valueLen (hfits : (encodeMutation mutation).length ≤ maxU32) :
    leNat (slice (encodeMutation mutation) 6 10) =
      (mutation.value.map List.length).getD tombstoneLen := by
  rw [encodeMutation_length] at hfits
  have hfield : slice (encodeMutation mutation) 6 10 =
      leBytes 4 ((mutation.value.map List.length).getD tombstoneLen) := by
    refine slice_field
      (l := mutation.kind.code :: mutation.family.code :: leBytes 4 mutation.key.length) rfl ?_ ?_
    · simp
    · rw [leBytes_length]
  rw [hfield, leNat_leBytes]
  cases hvalue : mutation.value with
  | none => decide
  | some value =>
    simp only [hvalue, getD_some, maxU32] at hfits
    simp only [map_some, getD_some]
    omega

theorem encodeMutation_key (mutation : BatchMutation) :
    ((encodeMutation mutation).drop payloadHeaderLen).take mutation.key.length = mutation.key := by
  have hsplit : encodeMutation mutation =
      (mutation.kind.code :: mutation.family.code :: (leBytes 4 mutation.key.length ++
        leBytes 4 ((mutation.value.map List.length).getD tombstoneLen))) ++
      (mutation.key ++ mutation.value.getD []) := by
    simp [encodeMutation]
  rw [hsplit, drop_left' (by simp [payloadHeaderLen]), take_left]

theorem encodeMutation_value (mutation : BatchMutation) :
    (encodeMutation mutation).drop (payloadHeaderLen + mutation.key.length) =
      mutation.value.getD [] := by
  have hsplit : encodeMutation mutation =
      (mutation.kind.code :: mutation.family.code :: (leBytes 4 mutation.key.length ++
        (leBytes 4 ((mutation.value.map List.length).getD tombstoneLen) ++ mutation.key))) ++
      mutation.value.getD [] := by
    simp [encodeMutation]
  rw [hsplit, drop_left']
  simp only [length_cons, length_append, leBytes_length, payloadHeaderLen]
  omega

/-- The length of a stored value never reads as the mark of a deletion. -/
theorem valueLen_ne_tombstone {value : Bytes} (hvalue : mutation.value = some value)
    (hfits : (encodeMutation mutation).length ≤ maxU32) : value.length ≠ tombstoneLen := by
  rw [encodeMutation_length, hvalue, getD_some] at hfits
  simp only [payloadHeaderLen, tombstoneLen] at hfits ⊢
  omega

theorem decodePart_encode (h : mutation.Shaped)
    (hfits : (encodeMutation mutation).length ≤ maxU32) :
    decodePart (encodeMutation mutation) = .ok mutation := by
  have hkind : decodeKind ((encodeMutation mutation).getD 0 0) = some mutation.kind :=
    decodeKind_code _
  have hfamily : decodeFamily ((encodeMutation mutation).getD 1 0) = some mutation.family :=
    decodeFamily_code _
  have hlength := encodeMutation_length mutation
  simp only [decodePart, hkind, hfamily, encodeMutation_keyLen hfits, encodeMutation_valueLen hfits,
    encodeMutation_key, encodeMutation_value]
  obtain ⟨family, kind, key, value⟩ := mutation
  rcases h.cases with ⟨rfl, value, rfl⟩ | ⟨rfl, rfl⟩
  · have htombstone := valueLen_ne_tombstone rfl hfits
    simp only [getD_some, map_some] at hlength ⊢
    rw [if_neg (by simpa using htombstone), if_neg (by omega), if_neg (by simp; omega)]
    rfl
  · simp only [getD_none, length_nil, map_none] at hlength ⊢
    rw [if_neg (by simp), if_neg (by omega), if_neg (by simp; omega)]
    rfl

end Mutation

section Batch

variable {mutations : List BatchMutation} {limit : Nat}

/-- The admissible batches: what `batchPayloadLen` lets through. -/
structure BatchFits (limit : Nat) (mutations : List BatchMutation) : Prop where
  nonempty : mutations ≠ []
  count : mutations.length ≤ maxBatchMutations
  shaped : ∀ mutation ∈ mutations, mutation.Shaped
  distinct : mutations.Pairwise fun earlier later => ¬ later.SameRow earlier
  parts : ∀ mutation ∈ mutations, (encodeMutation mutation).length ≤ limit
  size : (encodeBatch mutations).length ≤ limit
  sizeFits : (encodeBatch mutations).length ≤ maxU32

theorem encodeParts_cons (mutation : BatchMutation) (mutations : List BatchMutation) :
    encodeParts (mutation :: mutations) =
      leBytes 4 (encodeMutation mutation).length ++
        (encodeMutation mutation ++ encodeParts mutations) := by
  rw [encodeParts, flatMap_cons, append_assoc]
  rfl

theorem encodeParts_cons_length (mutation : BatchMutation) (mutations : List BatchMutation) :
    (encodeParts (mutation :: mutations)).length =
      4 + (encodeMutation mutation).length + (encodeParts mutations).length := by
  rw [encodeParts_cons, length_append, length_append, leBytes_length]
  omega

theorem encodeMutation_le_encodeParts {mutation : BatchMutation} (h : mutation ∈ mutations) :
    (encodeMutation mutation).length ≤ (encodeParts mutations).length := by
  induction mutations with
  | nil => cases h
  | cons first rest ih =>
    rw [encodeParts_cons_length]
    rcases mem_cons.mp h with rfl | h
    · omega
    · have := ih h
      omega

theorem encodeBatch_length (mutations : List BatchMutation) :
    (encodeBatch mutations).length = 3 + (encodeParts mutations).length := by
  simp only [encodeBatch, length_cons]
  omega

theorem batchPayloadLoop_ok {prior : List BatchMutation} {size total : Nat}
    (h : batchPayloadLoop limit prior size mutations = .ok total) :
    total = size + (encodeParts mutations).length ∧ total ≤ limit ∧ total ≤ maxU32 ∧
    (∀ mutation ∈ mutations, mutation.Shaped ∧ (encodeMutation mutation).length ≤ limit) ∧
    (prior.Pairwise (fun earlier later => ¬ later.SameRow earlier) →
      (prior ++ mutations).Pairwise fun earlier later => ¬ later.SameRow earlier) := by
  induction mutations generalizing prior size with
  | nil =>
    simp only [batchPayloadLoop] at h
    split_ifs at h
    · cases h
      refine ⟨by simp [encodeParts], by omega, by omega, by simp, by simp⟩
  | cons mutation rest ih =>
    simp only [batchPayloadLoop] at h
    by_cases hshaped : mutation.Shaped
    swap
    · rw [if_pos hshaped] at h; cases h
    · rw [if_neg (not_not.mpr hshaped)] at h
      by_cases hprior : prior.any (fun earlier =>
          mutation.family == earlier.family && mutation.key == earlier.key) = true
      · rw [if_pos hprior] at h; cases h
      rw [if_neg hprior] at h
      cases hpart : checkedPayloadLen mutation.kind mutation.key
        (mutation.value.getD []) limit with
      | error e => rw [hpart] at h; cases h
      | ok part =>
        obtain ⟨rfl, hlimit⟩ := checkedPayloadLen_ok hshaped hpart
        cases hfour : checkedAdd size 4 with
        | none => rw [hpart, hfour] at h; cases h
        | some base =>
          cases hsum : checkedAdd base (encodeMutation mutation).length with
          | none => simp only [hpart, hfour, hsum] at h; cases h
          | some next =>
            simp only [hpart, hfour, hsum] at h
            obtain rfl := checkedAdd_eq hfour
            obtain rfl := checkedAdd_eq hsum
            obtain ⟨htotal, hle, hfits, hall, hdistinct⟩ := ih h
            refine ⟨?_, hle, hfits, forall_mem_cons.mpr ⟨⟨hshaped, hlimit⟩, hall⟩, ?_⟩
            · rw [htotal, encodeParts_cons_length]
              omega
            · intro hpair
              rw [append_cons]
              refine hdistinct (pairwise_append.mpr ⟨hpair, by simp, ?_⟩)
              intro earlier hearlier later hlater
              obtain rfl := mem_singleton.mp hlater
              rintro ⟨hfamily, hkey⟩
              refine hprior (any_eq_true.mpr ⟨earlier, hearlier, ?_⟩)
              simp [hfamily, hkey]

theorem batchPayloadLoop_of {prior : List BatchMutation} {size : Nat}
    (hshaped : ∀ mutation ∈ mutations, mutation.Shaped)
    (hparts : ∀ mutation ∈ mutations, (encodeMutation mutation).length ≤ limit)
    (hdistinct : (prior ++ mutations).Pairwise fun earlier later => ¬ later.SameRow earlier)
    (hlimit : size + (encodeParts mutations).length ≤ limit)
    (hfits : size + (encodeParts mutations).length ≤ maxU32) :
    batchPayloadLoop limit prior size mutations = .ok (size + (encodeParts mutations).length) := by
  have hroom : maxU32 < usizeLimit := by decide
  induction mutations generalizing prior size with
  | nil =>
    simp only [encodeParts, flatMap_nil, length_nil, Nat.add_zero] at hlimit hfits ⊢
    rw [batchPayloadLoop, if_neg (by omega)]
  | cons mutation rest ih =>
    rw [encodeParts_cons_length] at hlimit hfits ⊢
    have hfirst := hshaped mutation mem_cons_self
    have hlen := checkedPayloadLen_of hfirst (hparts mutation mem_cons_self) (by omega)
    have hnone : ¬ prior.any (fun earlier =>
        mutation.family == earlier.family && mutation.key == earlier.key) = true := by
      intro hany
      obtain ⟨earlier, hearlier, hsame⟩ := any_eq_true.mp hany
      rw [Bool.and_eq_true, beq_iff_eq, beq_iff_eq] at hsame
      exact (pairwise_append.mp hdistinct).2.2 earlier hearlier mutation mem_cons_self hsame
    rw [append_cons] at hdistinct
    have hnext := @ih (prior ++ [mutation]) (size + 4 + (encodeMutation mutation).length)
      (fun m hm => hshaped m (mem_cons_of_mem _ hm))
      (fun m hm => hparts m (mem_cons_of_mem _ hm)) hdistinct (by omega) (by omega)
    rw [batchPayloadLoop, if_neg (not_not.mpr hfirst), if_neg hnone, hlen]
    simp only
    rw [checkedAdd_some (by omega)]
    simp only
    rw [checkedAdd_some (by omega)]
    simp only
    rw [hnext]
    congr 1
    omega

theorem batchPayloadLen_ok {size : Nat} (h : batchPayloadLen mutations limit = .ok size) :
    size = (encodeBatch mutations).length ∧ BatchFits limit mutations := by
  unfold batchPayloadLen at h
  by_cases hcount : mutations.length = 0 ∨ maxBatchMutations < mutations.length
  · rw [if_pos hcount] at h; cases h
  rw [if_neg hcount] at h
  obtain ⟨hsize, hlimit, hfits, hall, hdistinct⟩ := batchPayloadLoop_ok h
  rw [← encodeBatch_length] at hsize
  rw [hsize] at hlimit hfits
  refine ⟨hsize, ?_, by
    omega, fun m hm => (hall m hm).1, ?_, fun m hm => (hall m hm).2, hlimit, hfits⟩
  · rintro rfl
    exact hcount (Or.inl rfl)
  · simpa using hdistinct List.Pairwise.nil

theorem BatchFits.payloadLen (h : BatchFits limit mutations) {limit' : Nat} (hle : limit ≤ limit') :
    batchPayloadLen mutations limit' = .ok (encodeBatch mutations).length := by
  have hsize := h.size
  have hfits := h.sizeFits
  rw [encodeBatch_length] at hsize hfits ⊢
  have hcount : ¬ (mutations.length = 0 ∨ maxBatchMutations < mutations.length) := by
    have := length_pos_iff.mpr h.nonempty
    have := h.count
    omega
  rw [batchPayloadLen, if_neg hcount]
  exact batchPayloadLoop_of h.shaped (fun m hm => Nat.le_trans (h.parts m hm) hle)
    (by simpa using h.distinct) (Nat.le_trans hsize hle) hfits

theorem decodeParts_encode (hshaped : ∀ mutation ∈ mutations, mutation.Shaped)
    (hfits : ∀ mutation ∈ mutations, (encodeMutation mutation).length ≤ maxU32) (tail : Bytes) :
    decodeParts mutations.length (encodeParts mutations ++ tail) = .ok (mutations, tail) := by
  induction mutations with
  | nil => rfl
  | cons mutation rest ih =>
    have hlen := hfits mutation mem_cons_self
    have hpart := decodePart_encode (hshaped mutation mem_cons_self) hlen
    have hrest := ih (fun m hm => hshaped m (mem_cons_of_mem _ hm))
      (fun m hm => hfits m (mem_cons_of_mem _ hm))
    have hheader : payloadHeaderLen ≤ (encodeMutation mutation).length := by
      rw [encodeMutation_length]; omega
    have hword : leNat (leBytes 4 (encodeMutation mutation).length) =
        (encodeMutation mutation).length :=
      leNat_leBytes (by simp only [maxU32] at hlen; omega)
    simp only [length_cons, decodeParts, encodeParts_cons, append_assoc]
    rw [if_neg (by simp), take_left' (leBytes_length _ _), drop_left' (leBytes_length _ _),
      hword, if_neg (by simp; omega), take_left, drop_left, hpart]
    simp only
    rw [hrest]

theorem BatchFits.decode (h : BatchFits limit mutations) (hlimit : limit ≤ maxU64) :
    decodeBatch (encodeBatch mutations) = .ok mutations := by
  have hcount : (UInt8.ofNat mutations.length).toNat = mutations.length := by
    have := h.count
    simp only [maxBatchMutations] at this
    simp only [UInt8.toNat_ofNat']
    omega
  have hpos := length_pos_iff.mpr h.nonempty
  have hparts := decodeParts_encode h.shaped (fun m hm => by
    have := encodeMutation_le_encodeParts hm
    have := h.sizeFits
    rw [encodeBatch_length] at this
    omega) []
  have hhead :
      ¬ ((encodeBatch mutations).length < 3 ∨ (encodeBatch mutations).getD 0 0 ≠ metaKindBatch ∨
      (encodeBatch mutations).getD 1 0 ≠ batchFormatVersion ∨ (encodeBatch mutations).getD 2 0 = 0 ∨
      maxBatchMutations < ((encodeBatch mutations).getD 2 0).toNat) := by
    have hthird : (encodeBatch mutations).getD 2 0 = UInt8.ofNat mutations.length := rfl
    have hlen := encodeBatch_length mutations
    have hmax := h.count
    rw [hthird]
    rintro (hshort | hkind | hversion | hzero | hmany)
    · omega
    · exact hkind rfl
    · exact hversion rfl
    · rw [hzero] at hcount
      simp only [UInt8.toNat_zero] at hcount
      omega
    · omega
  have hcount' : ((encodeBatch mutations).getD 2 0).toNat = mutations.length := hcount
  have hdrop : (encodeBatch mutations).drop 3 = encodeParts mutations ++ [] := by
    rw [append_nil]; rfl
  rw [decodeBatch, if_neg hhead, hcount', hdrop, hparts]
  simp only
  rw [if_neg (by simp), h.payloadLen hlimit]

end Batch

/-! ## Epochs, coverage and the sequence number -/

abbrev Epoch := FixedBytes 16
abbrev Digest := FixedBytes 32

def legacyWalEpoch : Epoch := FixedBytes.splat 16 0

def walEpochPayload (epoch : Epoch) : Bytes := metaKindWalEpoch :: epoch.val

def coldEpoch (epoch : Epoch) : Bytes := frame (walEpochPayload epoch)

def parseWalEpoch (payload : Bytes) : Except StoreError Epoch :=
  if payload.length ≠ walEpochPayloadLen ∨
    payload.getD 0 0 ≠ metaKindWalEpoch then .error .badRecord
  else .ok (FixedBytes.ofSlice 16 (payload.drop 1))

structure CoverageSlot where
  coveredLen : Nat
  epoch : Epoch
  digest : Digest
  deriving DecidableEq

/-- The slots in use, at most two. -/
structure SnapshotCoverage where
  slots : List CoverageSlot
  deriving DecidableEq

def encodeSlot (slot : CoverageSlot) : Bytes :=
  leBytes 8 slot.coveredLen ++ (slot.epoch.val ++ slot.digest.val)

def parseSlot (bytes : Bytes) : CoverageSlot where
  coveredLen := leNat (slice bytes 0 8)
  epoch := FixedBytes.ofSlice 16 (slice bytes 8 24)
  digest := FixedBytes.ofSlice 32 (slice bytes 24 56)

/-- Unused slots are zero. -/
def snapshotCoveragePayload (coverage : SnapshotCoverage) : Bytes :=
  let used := metaKindSnapshotCoverage :: snapshotCoverageVersion ::
    UInt8.ofNat coverage.slots.length :: coverage.slots.flatMap encodeSlot
  used ++ List.replicate (snapshotCoveragePayloadLen - used.length) 0

def parseSnapshotCoverage (payload : Bytes) : Except StoreError SnapshotCoverage :=
  if (payload.length ≠ snapshotCoveragePayloadLen ∧ payload.length ≠ snapshotCoverageV1PayloadLen) ∨
      payload.getD 0 0 ≠ metaKindSnapshotCoverage then .error .badRecord
  else if payload.length = snapshotCoverageV1PayloadLen then
    if payload.getD 1 0 ≠ 1 ∨ payload.getD 2 0 ≠ 1 then .error .snapshotCoverageMismatch
    else .ok ⟨[parseSlot (payload.drop 3)]⟩
  else if payload.getD 1 0 ≠ snapshotCoverageVersion ∨ payload.getD 2 0 = 0 ∨
      2 < (payload.getD 2 0).toNat then .error .snapshotCoverageMismatch
  else
    .ok ⟨(List.range (payload.getD 2 0).toNat).map fun i =>
      parseSlot (payload.drop (3 + i * snapshotCoverageSlotLen))⟩

def nextSeqPayload (nextSeq : Nat) : Bytes := metaKindNextSeq :: leBytes 8 nextSeq

theorem walEpochPayload_length (epoch : Epoch) :
    (walEpochPayload epoch).length = walEpochPayloadLen := by
  rw [walEpochPayload, length_cons, epoch.property]
  rfl

theorem coldEpoch_length (epoch : Epoch) : (coldEpoch epoch).length = coldEpochRecordLen := by
  rw [coldEpoch, frame_length, walEpochPayload_length, coldEpochRecordLen]

theorem parseWalEpoch_payload (epoch : Epoch) :
    parseWalEpoch (walEpochPayload epoch) = .ok epoch := by
  have hkind : (walEpochPayload epoch).getD 0 0 = metaKindWalEpoch := rfl
  have hrest : (walEpochPayload epoch).drop 1 = epoch.val := rfl
  rw [parseWalEpoch, if_neg (by rw [walEpochPayload_length, hkind]; simp), hrest,
    FixedBytes.ofSlice_val]

theorem encodeSlot_length (slot : CoverageSlot) :
    (encodeSlot slot).length = snapshotCoverageSlotLen := by
  rw [encodeSlot, length_append, length_append, leBytes_length, slot.epoch.property,
    slot.digest.property]
  rfl

theorem parseSlot_encode {slot : CoverageSlot} (hlen : slot.coveredLen ≤ maxU64) (tail : Bytes) :
    parseSlot (encodeSlot slot ++ tail) = slot := by
  have hbytes : encodeSlot slot ++ tail =
      leBytes 8 slot.coveredLen ++ (slot.epoch.val ++ (slot.digest.val ++ tail)) := by
    simp only [encodeSlot, append_assoc]
  have hepoch := slot.epoch.property
  have hdigest := slot.digest.property
  have hcovered : slice (encodeSlot slot ++ tail) 0 8 = leBytes 8 slot.coveredLen :=
    slice_field (l := []) hbytes rfl (by rw [leBytes_length])
  have hepochs : slice (encodeSlot slot ++ tail) 8 24 = slot.epoch.val :=
    slice_field hbytes (leBytes_length _ _) (by rw [hepoch])
  have hdigests : slice (encodeSlot slot ++ tail) 24 56 = slot.digest.val := by
    refine slice_field (l := leBytes 8 slot.coveredLen ++ slot.epoch.val) (r := tail) ?_ ?_ ?_
    · rw [hbytes, append_assoc]
    · rw [length_append, leBytes_length, hepoch]
    · rw [hdigest]
  have hword : leNat (leBytes 8 slot.coveredLen) = slot.coveredLen :=
    leNat_leBytes (by simp only [maxU64] at hlen; omega)
  rw [parseSlot, hcovered, hepochs, hdigests, hword, FixedBytes.ofSlice_val, FixedBytes.ofSlice_val]

theorem snapshotCoveragePayload_pair (first second : CoverageSlot) :
    snapshotCoveragePayload ⟨[first, second]⟩ =
      metaKindSnapshotCoverage :: snapshotCoverageVersion :: 2 ::
        (encodeSlot first ++ encodeSlot second) := by
  have hfirst := encodeSlot_length first
  have hsecond := encodeSlot_length second
  simp only [snapshotCoverageSlotLen] at hfirst hsecond
  simp [snapshotCoveragePayload, snapshotCoveragePayloadLen, hfirst, hsecond]

theorem snapshotCoveragePayload_pair_length (first second : CoverageSlot) :
    (snapshotCoveragePayload ⟨[first, second]⟩).length = snapshotCoveragePayloadLen := by
  simp [snapshotCoveragePayload_pair, encodeSlot_length, snapshotCoverageSlotLen,
    snapshotCoveragePayloadLen]

theorem parseSnapshotCoverage_pair {first second : CoverageSlot}
    (hfirst : first.coveredLen ≤ maxU64) (hsecond : second.coveredLen ≤ maxU64) :
    parseSnapshotCoverage (snapshotCoveragePayload ⟨[first, second]⟩) = .ok ⟨[first, second]⟩ := by
  have hlength := snapshotCoveragePayload_pair_length first second
  have hbytes := snapshotCoveragePayload_pair first second
  have hdrop : (snapshotCoveragePayload ⟨[first, second]⟩).drop 3 =
      encodeSlot first ++ encodeSlot second := by
    rw [hbytes]; rfl
  have hdrop' : (snapshotCoveragePayload ⟨[first, second]⟩).drop 59 = encodeSlot second ++ [] := by
    have hskip : (snapshotCoveragePayload ⟨[first, second]⟩).drop 59 =
        ((snapshotCoveragePayload ⟨[first, second]⟩).drop 3).drop snapshotCoverageSlotLen := by
      rw [drop_drop]; rfl
    rw [hskip, hdrop, drop_left' (encodeSlot_length first), append_nil]
  have hkind : (snapshotCoveragePayload ⟨[first, second]⟩).getD 0 0 = metaKindSnapshotCoverage := by
    rw [hbytes]; rfl
  have hversion : (snapshotCoveragePayload ⟨[first, second]⟩).getD 1 0 =
      snapshotCoverageVersion := by
    rw [hbytes]; rfl
  have hcount : (snapshotCoveragePayload ⟨[first, second]⟩).getD 2 0 = 2 := by rw [hbytes]; rfl
  rw [parseSnapshotCoverage, hlength, hkind, hversion, hcount, if_neg (by simp), if_neg (by decide),
    if_neg (by decide)]
  have htwo : List.range (2 : UInt8).toNat = [0, 1] := by decide
  simp only [htwo, map_cons, map_nil, snapshotCoverageSlotLen, Nat.zero_mul, Nat.one_mul,
    Nat.add_zero, Nat.reduceAdd, hdrop, hdrop', parseSlot_encode hfirst, parseSlot_encode hsecond]

theorem nextSeqPayload_length (nextSeq : Nat) :
    (nextSeqPayload nextSeq).length = metaNextSeqPayloadLen := by
  rw [nextSeqPayload, length_cons, leBytes_length]
  rfl

end OnyxServer.Store
