import OnyxServer.Store.Engine

/-!
# The payload of a batch record

The writer and the reader of a batch are two routines over nested length prefixes. What
the one writes the other reads back, and what the other accepts is what the one would
have written.
-/
namespace OnyxServer.Store

open Lib List Except

/-! ## What is accepted is what would be written -/

section Part

variable {part : Bytes} {mutation : BatchMutation}

theorem decodeKind_eq {value : UInt8} {kind : MutationKind} (h : decodeKind value = some kind) :
    kind.code = value := by
  unfold decodeKind at h
  split at h
  · rename_i hput
    cases h
    exact hput.symm
  · split at h
    · rename_i hdelete
      cases h
      exact hdelete.symm
    · cases h

theorem decodeFamily_eq {value : UInt8} {family : Family} (h : decodeFamily value = some family) :
    family.code = value := by
  rw [decodeFamily] at h
  have hfound := List.find?_some h
  exact beq_iff_eq.mp hfound

/-- A part is its two codes, its two lengths and what follows them. -/
theorem part_fields (hlen : payloadHeaderLen ≤ part.length) :
    part.getD 0 0 :: part.getD 1 0 ::
      (slice part 2 6 ++ (slice part 6 10 ++ part.drop payloadHeaderLen)) = part := by
  match part, hlen with
  | kind :: family :: rest, hlen =>
    have hrest : slice (kind :: family :: rest) 2 6 = rest.take 4 := rfl
    have hrest' : slice (kind :: family :: rest) 6 10 = (rest.drop 4).take 4 := rfl
    have hdrop : (kind :: family :: rest).drop payloadHeaderLen = (rest.drop 4).drop 4 := by
      rw [drop_drop]
      rfl
    rw [hrest, hrest', hdrop, take_append_drop, take_append_drop]
    rfl

theorem slice_word (hlen : payloadHeaderLen ≤ part.length) (start stop : Nat)
    (hwidth : stop = start + 4) (hstop : stop ≤ payloadHeaderLen) :
    leBytes 4 (leNat (slice part start stop)) = slice part start stop := by
  have hword : (slice part start stop).length = 4 := by
    rw [slice, length_take, length_drop]
    omega
  have hread := leBytes_leNat (slice part start stop)
  rwa [hword] at hread

/-- What the reader checks of a part, and what it makes of it. -/
structure ReadPart (part : Bytes) (kind : MutationKind) (family : Family)
    (mutation : BatchMutation) : Prop where
  kindCode : kind.code = part.getD 0 0
  familyCode : family.code = part.getD 1 0
  tombstone : kind = .delete ↔ leNat (slice part 6 10) = tombstoneLen
  key : leNat (slice part 2 6) ≤ part.length - payloadHeaderLen
  remainder : part.length - payloadHeaderLen - leNat (slice part 2 6) =
    if kind = .delete then 0 else leNat (slice part 6 10)
  mutation : mutation =
    { family, kind
      key := (part.drop payloadHeaderLen).take (leNat (slice part 2 6))
      value := if kind = .put then some (part.drop (payloadHeaderLen + leNat (slice part 2 6)))
        else none }

theorem decodePart_read (h : decodePart part = .ok mutation) :
    ∃ kind family, ReadPart part kind family mutation := by
  unfold decodePart at h
  cases hkind : decodeKind (part.getD 0 0) with
  | none =>
    rw [hkind] at h
    cases h
  | some kind =>
    cases hfamily : decodeFamily (part.getD 1 0) with
    | none =>
      rw [hkind, hfamily] at h
      cases h
    | some family =>
      simp only [hkind, hfamily] at h
      by_cases htombstone : kind = .delete ↔ leNat (slice part 6 10) = tombstoneLen
      swap
      · rw [if_pos htombstone] at h
        cases h
      · rw [if_neg (not_not.mpr htombstone)] at h
        by_cases hkey : part.length - payloadHeaderLen < leNat (slice part 2 6)
        · rw [if_pos hkey] at h
          cases h
        rw [if_neg hkey] at h
        by_cases hremainder : part.length - payloadHeaderLen - leNat (slice part 2 6) =
            if kind = .delete then 0 else leNat (slice part 6 10)
        · rw [if_neg (not_not.mpr hremainder)] at h
          exact ⟨kind, family, decodeKind_eq hkind, decodeFamily_eq hfamily, htombstone,
            Nat.not_lt.mp hkey, hremainder, (ok.inj h).symm⟩
        · rw [if_pos hremainder] at h
          cases h

/-- An accepted part is the image of its mutation. -/
theorem decodePart_ok (hlen : payloadHeaderLen ≤ part.length) (h : decodePart part = .ok mutation) :
    encodeMutation mutation = part := by
  obtain ⟨kind, family, hread⟩ := decodePart_read h
  have hfields := part_fields hlen
  have hbody : (part.drop payloadHeaderLen).length = part.length - payloadHeaderLen :=
    length_drop
  have hkeyLen : ((part.drop payloadHeaderLen).take (leNat (slice part 2 6))).length =
      leNat (slice part 2 6) := by
    rw [length_take, hbody]
    exact Nat.min_eq_left hread.key
  have hremainder := hread.remainder
  rw [hread.mutation]
  cases kind with
  | put =>
    simp only [reduceCtorEq, ↓reduceIte] at hremainder
    have hvalueLen : (part.drop (payloadHeaderLen + leNat (slice part 2 6))).length =
        leNat (slice part 6 10) := by
      rw [length_drop]
      omega
    simp only [encodeMutation, ↓reduceIte, Option.map_some, Option.getD_some, hkeyLen, hvalueLen,
      slice_word hlen 2 6 rfl (by decide), slice_word hlen 6 10 rfl (by decide), hread.kindCode,
      hread.familyCode]
    rw [← drop_drop, take_append_drop, hfields]
  | delete =>
    have hvalueLen : tombstoneLen = leNat (slice part 6 10) := (hread.tombstone.mp rfl).symm
    have hwhole : (part.drop payloadHeaderLen).take (leNat (slice part 2 6)) =
        part.drop payloadHeaderLen := by
      simp only [↓reduceIte] at hremainder
      exact take_of_length_le (by omega)
    simp only [encodeMutation, reduceCtorEq, ↓reduceIte, Option.map_none, Option.getD_none, hkeyLen,
      hvalueLen, slice_word hlen 2 6 rfl (by decide), slice_word hlen 6 10 rfl (by decide),
      hread.kindCode, hread.familyCode, append_nil]
    rw [hwhole, hfields]

end Part

theorem decodeParts_ok {count : Nat} {bytes tail : Bytes} {mutations : List BatchMutation}
    (h : decodeParts count bytes = .ok (mutations, tail)) :
    mutations.length = count ∧ encodeParts mutations ++ tail = bytes := by
  induction count generalizing bytes mutations with
  | zero =>
    cases h
    exact ⟨rfl, rfl⟩
  | succ count ih =>
    unfold decodeParts at h
    dsimp only at h
    split_ifs at h with hprefix hroom
    simp only [not_or, Nat.not_lt] at hroom hprefix
    obtain ⟨hheader, hroom⟩ := hroom
    split at h
    · cases h
    rename_i mutation hpart
    split at h
    · cases h
    rename_i rest tail' hrest
    cases h
    have hlen : ((bytes.drop 4).take (leNat (bytes.take 4))).length = leNat (bytes.take 4) :=
      length_take_of_le hroom
    have himage := decodePart_ok (hheader.trans_eq hlen.symm) hpart
    obtain ⟨hcount, hparts⟩ := ih hrest
    have hword : leBytes 4 (leNat (bytes.take 4)) = bytes.take 4 := by
      have hread := leBytes_leNat (bytes.take 4)
      rwa [length_take_of_le hprefix] at hread
    refine ⟨by rw [length_cons, hcount], ?_⟩
    rw [encodeParts_cons, himage, hlen, hword, append_assoc, append_assoc, hparts,
      take_append_drop, take_append_drop]

/-- The lists that a batch can carry, whatever their size. -/
structure Batchable (mutations : List BatchMutation) : Prop where
  nonempty : mutations ≠ []
  count : mutations.length ≤ maxBatchMutations
  shaped : ∀ mutation ∈ mutations, mutation.Shaped
  distinct : mutations.Pairwise fun earlier later => ¬ later.SameRow earlier

theorem BatchFits.batchable {mutations : List BatchMutation} {limit : Nat}
    (h : BatchFits limit mutations) : Batchable mutations :=
  ⟨h.nonempty, h.count, h.shaped, h.distinct⟩

theorem decodeBatch_ok {payload : Bytes} {mutations : List BatchMutation}
    (h : decodeBatch payload = .ok mutations) :
    Batchable mutations ∧ encodeBatch mutations = payload := by
  unfold decodeBatch at h
  split_ifs at h with hhead
  simp only [not_or, Nat.not_lt, ne_eq, not_not] at hhead
  obtain ⟨hlen, hkind, hversion, -, -⟩ := hhead
  split at h
  · cases h
  rename_i parsed rest hparts
  split at h
  · cases h
  rename_i hrest
  split at h
  · cases h
  rename_i size hsize
  cases h
  obtain ⟨-, hfits⟩ := batchPayloadLen_ok hsize
  obtain ⟨hcount, himage⟩ := decodeParts_ok hparts
  refine ⟨hfits.batchable, ?_⟩
  rw [not_not.mp hrest, append_nil] at himage
  rw [encodeBatch, himage, hcount, UInt8.ofNat_toNat, ← hkind, ← hversion]
  rcases payload with _ | ⟨_, _ | ⟨_, _ | ⟨_, _⟩⟩⟩ <;> first | rfl | simp at hlen

section Size

variable {mutations : List BatchMutation} {limit : Nat}

theorem checkedPayloadLen_error {kind : MutationKind} {key value : Bytes} {e : StoreError}
    (h : checkedPayloadLen kind key value limit = .error e) : e = .recordTooLarge := by
  unfold checkedPayloadLen at h
  split at h
  · exact (Except.error.inj h).symm
  split at h
  · exact (Except.error.inj h).symm
  split at h
  · exact (Except.error.inj h).symm
  · split at h
    · exact (Except.error.inj h).symm
    · cases h

theorem batchPayloadLoop_error {prior : List BatchMutation} {size : Nat} {e : StoreError}
    (hshaped : ∀ mutation ∈ mutations, mutation.Shaped)
    (hdistinct : (prior ++ mutations).Pairwise fun earlier later => ¬ later.SameRow earlier)
    (h : batchPayloadLoop limit prior size mutations = .error e) : e = .recordTooLarge := by
  induction mutations generalizing prior size with
  | nil =>
    rw [batchPayloadLoop] at h
    split at h
    · exact (Except.error.inj h).symm
    · cases h
  | cons mutation rest ih =>
    obtain ⟨hfirst, hrest⟩ := forall_mem_cons.mp hshaped
    have hnone : ¬ prior.any (fun earlier =>
        mutation.family == earlier.family && mutation.key == earlier.key) = true := by
      intro hany
      obtain ⟨earlier, hearlier, hsame⟩ := any_eq_true.mp hany
      rw [Bool.and_eq_true, beq_iff_eq, beq_iff_eq] at hsame
      exact (pairwise_append.mp hdistinct).2.2 earlier hearlier mutation mem_cons_self hsame
    rw [batchPayloadLoop, if_neg (not_not.mpr hfirst), if_neg hnone] at h
    split at h
    · rename_i e' hpart
      cases h
      exact checkedPayloadLen_error hpart
    split at h
    · exact (Except.error.inj h).symm
    split at h
    · exact (Except.error.inj h).symm
    · rw [append_cons] at hdistinct
      exact ih hrest hdistinct h

theorem Batchable.payloadLen (h : Batchable mutations) (limit : Nat) :
    batchPayloadLen mutations limit =
      if (encodeBatch mutations).length ≤ min limit maxU32 then .ok (encodeBatch mutations).length
      else .error .recordTooLarge := by
  have hcount : ¬ (mutations.length = 0 ∨ maxBatchMutations < mutations.length) := by
    have hpos := length_pos_iff.mpr h.nonempty
    have hmax := h.count
    omega
  split
  · rename_i hsize
    obtain ⟨hlimit, hfits⟩ := Nat.le_min.mp hsize
    have hparts : ∀ mutation ∈ mutations, (encodeMutation mutation).length ≤ limit := by
      intro mutation hmem
      have hpart := encodeMutation_le_encodeParts hmem
      rw [encodeBatch_length] at hlimit
      omega
    exact BatchFits.payloadLen ⟨h.nonempty, h.count, h.shaped, h.distinct, hparts, hlimit, hfits⟩
      (Nat.le_refl limit)
  · rename_i hsize
    cases hloop : batchPayloadLen mutations limit with
    | error e =>
      rw [batchPayloadLen, if_neg hcount] at hloop
      rw [batchPayloadLoop_error h.shaped ((nil_append mutations).symm ▸ h.distinct) hloop]
    | ok size =>
      obtain ⟨-, hfits⟩ := batchPayloadLen_ok hloop
      exact absurd (Nat.le_min.mpr ⟨hfits.size, hfits.sizeFits⟩) hsize

end Size

/-- The payload of a batch record: what follows the guard and the header of the frame. -/
def payloadOf (record : Bytes) : Bytes := record.drop (encodeBatchGuard.length + recordHeaderLen)

theorem payloadOf_record (payload : Bytes) :
    payloadOf (encodeBatchGuard ++ frame payload) = payload := by
  rw [payloadOf, frame, ← append_assoc, ← append_assoc, append_assoc encodeBatchGuard]
  exact drop_left' (by simp [recordHeaderLen])

/-- The codec of batch payloads is a bijection onto its image. A list that a batch can carry
has a size, or is too large for the record limit; the payload written for it reads back as
the list; and a payload that is accepted carries such a list and is its image, to the last
octet. -/
theorem batchPayload_bijection :
    (∀ mutations limit, Batchable mutations →
      batchPayloadLen mutations limit =
        if (encodeBatch mutations).length ≤ min limit maxU32 then
          .ok (encodeBatch mutations).length
        else .error .recordTooLarge) ∧
    (∀ env mutations finalWalOffset nextSeqAfter (engine : Engine) token, Batchable mutations →
      (encodeBatch mutations).length ≤ engine.store.config.maxRecordBytes →
      (prepareBatchAt env mutations finalWalOffset nextSeqAfter engine).1 = .ok token →
      ∃ active,
        (prepareBatchAt env mutations finalWalOffset nextSeqAfter engine).2.store.activeBatch =
          some active ∧
        (payloadOf active.record).length = (encodeBatch mutations).length ∧
        decodeBatch (payloadOf active.record) = .ok mutations) ∧
    ∀ payload mutations, decodeBatch payload = .ok mutations →
      Batchable mutations ∧ encodeBatch mutations = payload := by
  refine ⟨fun mutations limit h => h.payloadLen limit, ?_, fun payload mutations => decodeBatch_ok⟩
  intro env mutations finalWalOffset nextSeqAfter engine token hbatch hsize hok
  unfold prepareBatchAt at hok ⊢
  dsimp only at hok ⊢
  split at hok
  · cases hok
  rename_i halloc
  rw [if_neg halloc]
  have hrecord : payloadOf (batchFor engine.store engine.store.nextPreparedGeneration mutations
      finalWalOffset nextSeqAfter).record = encodeBatch mutations := payloadOf_record _
  have hfits : BatchFits engine.store.config.maxRecordBytes mutations := by
    have hlen := hbatch.payloadLen engine.store.config.maxRecordBytes
    have hmax := engine.store.config.recordFits
    rw [if_pos (Nat.le_min.mpr ⟨hsize, hsize.trans hmax⟩)] at hlen
    exact (batchPayloadLen_ok hlen).2
  refine ⟨_, rfl, by rw [hrecord], ?_⟩
  rw [hrecord]
  exact hfits.decode (engine.store.config.recordFits.trans (by decide))

def sampleConfig : Config := ⟨1024, 4096, 4, by decide, by decide, by decide⟩

/-- A call in which nothing fails, with the epochs it draws. -/
def sampleEnv (empty next : UInt8) : Env where
  emptyEpoch := .splat 16 empty
  nextEpoch := .splat 16 next
  ensureWalFails := false
  revisionExhausted := fun _ => false
  compaction := .none
  allocates := fun _ => true
  write := .none
  syncFails := false

def emptyEngine : Engine where
  store := {
    Contents.init with
    config := sampleConfig
    changefeed := .init 4
    walOffset := 0
    activePrepared := none
    activeBatch := none
    nextPreparedGeneration := 1
    preparedPoisoned := false
    stagedReadOnly := false }
  disk := ⟨none, none⟩

/-- One row written and another removed. -/
def sampleBatch : List BatchMutation :=
  [⟨.accounts, .put, [0x61], some [0x62, 0x63]⟩, ⟨.bans, .delete, [0x64], none⟩]

theorem batchPayload_bijection_sample :
    Batchable sampleBatch ∧ batchPayloadLen sampleBatch 1024 = .ok 35 ∧
    ∃ active, (prepareBatchAt (sampleEnv 1 2) sampleBatch 100 3 emptyEngine).2.store.activeBatch =
        some active ∧
      (payloadOf active.record).length = 35 ∧
      decodeBatch (payloadOf active.record) = .ok sampleBatch := by
  obtain ⟨hlen, hprepare, hdecode⟩ := batchPayload_bijection
  have hbatch := (hdecode (encodeBatch sampleBatch) sampleBatch rfl).1
  exact ⟨hbatch, hlen _ 1024 hbatch, hprepare _ _ _ _ emptyEngine _ hbatch (by decide) rfl⟩

end OnyxServer.Store
