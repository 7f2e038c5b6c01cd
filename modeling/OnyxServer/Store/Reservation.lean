import OnyxServer.Store.Compaction

/-!
# Prepared mutations

A reservation holds everything its commit needs: the record, the log offset, the table
plans and the feed entry. Nothing changes the store while it is held, so the checks of the
commit pass, and what is left to go wrong is the append.
-/
namespace OnyxServer.Store

open Lib List

/-- The reservation of `call` under `token`. -/
inductive Reserves (config : Config) (store : OroStore) : Token → Call → Prop where
  | single {generation : Nat} {mutation : BatchMutation} {shaped : mutation.Shaped}
      (active : store.activePrepared = some (preparedFor store generation mutation
        (store.walOffset + (frame (encodeMutation mutation)).length)))
      (other : store.activeBatch = none) :
      Reserves config store ⟨false, generation⟩ (.single mutation shaped)
  | batch {generation : Nat} {mutations : List BatchMutation}
      (active : store.activeBatch = some (batchFor store generation mutations
        (store.walOffset + (encodeBatchGuard ++ frame (encodeBatch mutations)).length)
        (store.nextSeq + mutations.length)))
      (other : store.activePrepared = none) :
      Reserves config store ⟨true, generation⟩ (.batch mutations)

/-- A reservation together with the bounds that were checked for it. -/
structure Holds (config : Config) (store : OroStore) (token : Token) (call : Call) : Prop where
  reserves : Reserves config store token call
  fits : call.Fits config
  room : store.walOffset + call.record.length ≤ config.maxWalBytes
  seq : store.nextSeq + call.mutations.length ≤ maxU64
  issued : token.generation < store.nextPreparedGeneration

section Append

variable {blake3 : Bytes → Digest} {config : Config} {epochs : List Epoch} {disk : Disk}
    {head : Head}
  {view : View} {wal : Bytes}

/-- Chunks and a torn frame behind a log. -/
theorem Laid.append (h : Laid blake3 config disk head [] view) (hwal : disk.wal = some wal)
    (chunks : List Chunk) (torn : Bytes) (hchunks : ∀ chunk ∈ chunks, chunk.Fits config)
    (hroom : (wal ++ (chunkBytes chunks ++ torn)).length ≤ config.maxWalBytes)
    (hseq : (chunks.foldl Chunk.apply view).nextSeq ≤ maxU64) :
    Laid blake3 config { disk with wal := some (wal ++ (chunkBytes chunks ++ torn)) } head torn
      (chunks.foldl Chunk.apply view) := by
  obtain ⟨covered, live, base, anchor, hsome, hcovered, hlive, -, hmeaning, -⟩ := h
  rw [append_nil] at hsome
  obtain rfl := Option.some.inj (hwal.symm.trans hsome)
  have hbytes :
      (head.bytes ++ (chunkBytes covered ++ chunkBytes live)) ++ (chunkBytes chunks ++ torn) =
      head.bytes ++ (chunkBytes covered ++ (chunkBytes (live ++ chunks) ++ torn)) := by
    simp only [chunkBytes_append, append_assoc]
  refine ⟨covered, live ++ chunks, base, anchor, by rw [hbytes], hcovered, ?_, ?_, ?_, hseq⟩
  · intro chunk hchunk
    rcases mem_append.mp hchunk with hchunk | hchunk
    · exact hlive chunk hchunk
    · exact hchunks chunk hchunk
  · rw [← hbytes]
    exact hroom
  · rw [foldl_append, hmeaning]

/-- A record that reached the log in part is forgotten, one that reached it whole counts. -/
theorem Laid.cut (h : Laid blake3 config disk head [] view) (hwal : disk.wal = some wal)
    {call : Call}
    (hfits : call.Fits config) (hroom : wal.length + call.record.length ≤ config.maxWalBytes)
    (hseq : view.nextSeq + call.mutations.length ≤ maxU64) (hknown : head.walEpoch ∈ epochs)
    (n : Nat) :
    Durable blake3 config epochs { disk with wal := some (wal ++ call.record.take n) }
      (if n < call.record.length then view else view.apply call) := by
  have hbefore : view.nextSeq ≤ maxU64 := Nat.le_trans (Nat.le_add_right _ _) hseq
  have hlen : (call.record.take n).length ≤ call.record.length := (take_sublist _ _).length_le
  have hshort : ∀ (chunks : List Chunk) (torn : Bytes), call.record.take n =
      chunkBytes chunks ++ torn →
      (∀ chunk ∈ chunks, chunk.Fits config) → Torn config torn →
      (chunks.foldl Chunk.apply view).nextSeq ≤ maxU64 →
      Durable blake3 config epochs { disk with wal := some (wal ++ call.record.take n) }
        (chunks.foldl Chunk.apply view) := by
    intro chunks torn hbytes hchunks htorn hnext
    rw [hbytes] at hlen ⊢
    refine .laid (h.append hwal chunks torn hchunks ?_ hnext) htorn hknown
    rw [length_append]
    omega
  by_cases hn : n < call.record.length
  · rw [if_pos hn]
    cases call with
    | single mutation shaped =>
      exact hshort [] _ rfl (by simp)
        ⟨encodeMutation mutation, n, readable_encodeMutation hfits, hn, rfl⟩
        hbefore
    | batch mutations =>
      have hbatch : BatchFits config.maxRecordBytes mutations := hfits
      by_cases hguard : n < encodeBatchGuard.length
      · refine hshort [] (encodeBatchGuard.take n) ?_ (by simp)
          ⟨batchGuardPayload, n, readable_guard hbatch.guard, hguard, rfl⟩ hbefore
        rw [Call.record, take_append_of_le_length (Nat.le_of_lt hguard)]
        rfl
      refine hshort [.guard]
        ((frame (encodeBatch mutations)).take (n - encodeBatchGuard.length)) ?_ ?_ ?_
        hbefore
      · rw [Call.record, take_append, take_of_length_le (Nat.not_lt.mp hguard)]
        simp [chunkBytes, Chunk.bytes]
      · intro chunk hchunk
        rw [mem_singleton.mp hchunk]
        exact hbatch.guard
      · refine ⟨encodeBatch mutations, _, readable_encodeBatch hbatch, ?_, rfl⟩
        rw [Call.record, length_append] at hn
        omega
  · rw [if_neg hn]
    refine hshort [.committed call] [] ?_ ?_ torn_nil hseq
    · rw [take_of_length_le (Nat.not_lt.mp hn)]
      simp [chunkBytes, Chunk.bytes]
    · intro chunk hchunk
      rw [mem_singleton.mp hchunk]
      exact hfits

/-- The disk with octets behind its log. -/
def Disk.append (disk : Disk) (bytes : Bytes) : Disk :=
  ⟨some (disk.wal.getD [] ++ bytes), disk.snapshot⟩

theorem writeAt_end (wal bytes : Bytes) : writeAt wal wal.length bytes = wal ++ bytes := by
  simp [writeAt]

end Append

section Commit

variable {blake3 : Bytes → Digest} {config : Config} {epochs : List Epoch} {engine : Engine}
    {view : View}
  {store : OroStore} {token : Token} {call : Call}

/-- What publication does to a store. -/
structure Published (store : OroStore) (call : Call) (after : OroStore) : Prop where
  shows : after.view = store.view.apply call
  walOffset : after.walOffset = store.walOffset + call.record.length
  required : after.batchFormatRequired = (store.batchFormatRequired || call.isBatch)
  idle : after.Idle
  config_eq : after.config = store.config
  readOnly : after.stagedReadOnly = store.stagedReadOnly
  poisoned : after.preparedPoisoned = store.preparedPoisoned
  epoch : after.walEpoch = store.walEpoch
  generation : after.nextPreparedGeneration = store.nextPreparedGeneration

@[simp] theorem batchFor_generation (store : OroStore) (generation : Nat)
    (mutations : List BatchMutation)
    (offset next : Nat) : (batchFor store generation mutations offset next).generation =
      generation := rfl

theorem preparedFor_valid {generation finalWalOffset : Nat} {mutation : BatchMutation}
    (shaped : mutation.Shaped) :
    store.validPrepared (preparedFor store generation mutation finalWalOffset) := by
  refine ⟨shaped, ?_, rfl⟩
  simp only [preparedFor]
  by_cases hplan : mutation.kind = .put ∨ ((store.maps mutation.family).lookup mutation.key).isSome
  · rw [if_pos hplan]
    exact ⟨mem_singleton_self _, rfl⟩
  rw [if_neg hplan]
  rcases shaped.cases with ⟨hkind, -⟩ | ⟨hkind, -⟩
  · exact absurd (Or.inl hkind) hplan
  · exact ⟨hkind, by simpa using fun h => hplan (Or.inr h)⟩

theorem publishPrepared_published (generation : Nat) {mutation : BatchMutation}
    {shaped : mutation.Shaped} (hother : store.activeBatch = none) :
    Published store (.single mutation shaped)
    (store.publishPrepared (preparedFor store generation mutation
      (store.walOffset + (frame (encodeMutation mutation)).length))) := by
  refine ⟨?_, rfl, (Bool.or_false _).symm, ⟨rfl, hother⟩, rfl, rfl, rfl, rfl, rfl⟩
  have happly : store.view.apply (.single mutation shaped) =
      { store.view.write mutation with nextSeq := store.nextSeq + 1 } := rfl
  rw [happly]
  by_cases hplan : mutation.kind = .put ∨ ((store.maps mutation.family).lookup mutation.key).isSome
  · have hmaps : (store.publishPrepared (preparedFor store generation mutation
        (store.walOffset + (frame (encodeMutation mutation)).length))).maps =
          editMaps store.maps mutation := by
      simp only [OroStore.publishPrepared, preparedFor, if_pos hplan]
      rfl
    have hwrite := congrArg View.get (view_applyMutation shaped store.toContents)
    rw [Contents.applyMutation_eq shaped] at hwrite
    ext family key : 3
    · simp only [Contents.view, hmaps]
      exact congrFun (congrFun hwrite family) key
    · rfl
  · have hmaps : (store.publishPrepared (preparedFor store generation mutation
        (store.walOffset + (frame (encodeMutation mutation)).length))).maps = store.maps := by
      simp only [OroStore.publishPrepared, preparedFor, if_neg hplan]
    ext family key : 3
    · simp only [Contents.view, hmaps, View.write]
      split
      · next hrow =>
        obtain ⟨rfl, rfl⟩ := hrow
        rcases shaped.cases with ⟨hkind, -⟩ | ⟨-, hvalue⟩
        · exact absurd (Or.inl hkind) hplan
        · rw [hvalue]
          simpa using fun h => hplan (Or.inr h)
      · rfl
    · rfl

theorem foldl_editMaps (mutations : List BatchMutation) (maps : Family → Table) (family : Family) :
    mutations.foldl editMaps maps family =
      (familyEdits family mutations).foldl (fun table change => edit table change.1 change.2)
        (maps family) := by
  induction mutations generalizing maps with
  | nil => rfl
  | cons mutation rest ih =>
    rw [foldl_cons, ih]
    by_cases hfamily : mutation.family = family
    · subst hfamily
      simp [familyEdits, editMaps]
    · have hne : family ≠ mutation.family := fun h => hfamily h.symm
      simp [familyEdits, editMaps, hfamily, Function.update_of_ne hne]

theorem batchEntries_mutations (store : OroStore) (mutations : List BatchMutation) :
    (batchEntries store mutations).map BatchEntry.mutation = mutations := by
  rw [batchEntries, map_map]
  exact zipIdx_map_fst 0 mutations

theorem batchFor_valid {generation finalWalOffset nextSeqAfter : Nat}
    {mutations : List BatchMutation} (h : BatchFits config.maxRecordBytes mutations) :
    store.validateBatchTables
      (batchFor store generation mutations finalWalOffset nextSeqAfter) := by
  have hlength : (batchEntries store mutations).length = mutations.length := by
    simp [batchEntries]
  refine ⟨?_, ?_, ?_, ?_⟩
  · intro hnil
    rw [batchFor] at hnil
    simp only at hnil
    rw [hnil] at hlength
    exact h.nonempty (length_eq_zero_iff.mp hlength.symm)
  · rw [batchFor]
    simp only
    rw [hlength]
    exact h.count
  · intro family _
    simp only [batchFor, batchEntries_mutations, batchPlan]
    split
    · next hnil => exact hnil
    · next hedits => exact ⟨hedits, rfl, List.Perm.refl _⟩
  · intro entry hentry
    obtain ⟨⟨mutation, index⟩, hindexed, rfl⟩ := mem_map.mp hentry
    have hmem : mutation ∈ mutations := (mem_zipIdx' hindexed).2 ▸ getElem_mem _
    exact ⟨h.shaped mutation hmem, rfl⟩

theorem publishBatch_published (generation : Nat) {mutations : List BatchMutation}
    (h : BatchFits config.maxRecordBytes mutations) (hother : store.activePrepared = none) :
    Published store (.batch mutations) (store.publishBatch (batchFor store generation mutations
      (store.walOffset + (encodeBatchGuard ++ frame (encodeBatch mutations)).length)
      (store.nextSeq + mutations.length))) := by
  refine ⟨?_, rfl, (Bool.or_true _).symm, ⟨hother, rfl⟩, rfl, rfl, rfl, rfl, rfl⟩
  have hmaps : (store.publishBatch (batchFor store generation mutations
      (store.walOffset + (encodeBatchGuard ++ frame (encodeBatch mutations)).length)
      (store.nextSeq + mutations.length))).maps = mutations.foldl editMaps store.maps := by
    funext family
    rw [foldl_editMaps]
    simp only [OroStore.publishBatch, batchFor, batchPlan]
    split
    · next hplan =>
      split_ifs at hplan
      · cases hplan
        rfl
    · next hplan =>
      split at hplan
      · next hnil => rw [hnil]; rfl
      · cases hplan
  have hcall : Call.Fits config (.batch mutations) := h
  have hreplay := view_replayCall hcall store.toContents
  rw [← hreplay]
  ext family key : 3
  · simp only [Contents.view, hmaps]
    rfl
  · rfl

/-- A commit of the held reservation gets to its append. -/
theorem Holds.commit (h : Holds config engine.store token call)
    (hs : Settled blake3 config epochs engine view) (env : Env) :
    ∃ after, Published engine.store call after ∧
      token.commit env engine =
        match env.write with
        | .short n =>
          (.error .ioAmbiguous,
            ⟨engine.store.poisonPreparedStore, engine.disk.append (call.record.take n)⟩)
        | .none =>
          if env.syncFails then
            (.error .ioAmbiguous,
              ⟨engine.store.poisonPreparedStore, engine.disk.append call.record⟩)
          else (.ok (), ⟨after, engine.disk.append call.record⟩) := by
  have hsound := hs.sound
  have hoffset := hs.offset
  obtain ⟨hreserves, hfits, -, -, -⟩ := h
  cases hreserves with
  | @single generation mutation shaped active other =>
    refine ⟨_, publishPrepared_published generation other, ?_⟩
    have hvalid := @preparedFor_valid engine.store generation
      (engine.store.walOffset + (frame (encodeMutation mutation)).length) mutation shaped
    have hrecord : ∀ offset, (preparedFor engine.store generation mutation offset).record =
        (Call.single mutation shaped).record := fun _ => rfl
    have hfinal :
        ∀ offset, (preparedFor engine.store generation mutation offset).finalWalOffset = offset :=
      fun _ => rfl
    have hstart : engine.store.walOffset + (frame (encodeMutation mutation)).length -
        (Call.single mutation shaped).record.length = (engine.disk.wal.getD []).length := by
      rw [hoffset, Call.record]
      omega
    rw [Token.commit, if_neg (by simp), commitPrepared, active]
    simp only
    rw [if_neg (by simp [preparedFor]), if_neg (by simp [hsound]), if_neg (not_not.mpr hvalid)]
    simp only [writePreparedBytes, hrecord, hfinal, hstart, writeAt_end]
    cases env.write with
    | short n => rfl
    | none => cases env.syncFails <;> rfl
  | @batch generation mutations active other =>
    refine ⟨_, publishBatch_published generation hfits other, ?_⟩
    have hvalid := @batchFor_valid config engine.store generation
      (engine.store.walOffset + (encodeBatchGuard ++ frame (encodeBatch mutations)).length)
      (engine.store.nextSeq + mutations.length) mutations hfits
    have hrecord : ∀ offset next, (batchFor engine.store generation mutations offset next).record =
        (Call.batch mutations).record := fun _ _ => rfl
    have hfinal :
        ∀ offset next, (batchFor engine.store generation mutations offset next).finalWalOffset =
        offset := fun _ _ => rfl
    have hstart :
        engine.store.walOffset + (encodeBatchGuard ++ frame (encodeBatch mutations)).length -
        (Call.batch mutations).record.length = (engine.disk.wal.getD []).length := by
      rw [hoffset, Call.record]
      omega
    rw [Token.commit, if_pos rfl, commitBatch, active]
    simp only
    rw [if_neg (by simp [batchFor]), if_neg (by simp [hsound]), if_neg (not_not.mpr hvalid)]
    simp only [writePreparedBytes, hrecord, hfinal, hstart, writeAt_end]
    cases env.write with
    | short n => rfl
    | none => cases env.syncFails <;> rfl

/-- A token that is not the held one commits nothing. -/
theorem Holds.stale (h : Holds config engine.store token call) {other : Token} (hne : other ≠ token)
    (env : Env) : other.commit env engine = (.error .preparedAlreadyConsumed, engine) := by
  obtain ⟨batch, generation⟩ := other
  obtain ⟨hreserves, -, -, -, -⟩ := h
  cases hreserves with
  | @single held mutation shaped active hother =>
    cases batch with
    | true => rw [Token.commit, if_pos rfl, commitBatch, hother]
    | false =>
      have hgeneration : held ≠ generation := fun heq => hne (by rw [heq])
      rw [Token.commit, if_neg (by simp), commitPrepared, active]
      exact if_pos hgeneration
  | @batch held mutations active hother =>
    cases batch with
    | false => rw [Token.commit, if_neg (by simp), commitPrepared, hother]
    | true =>
      have hgeneration : held ≠ generation := fun heq => hne (by rw [heq])
      rw [Token.commit, if_pos rfl, commitBatch, active]
      exact if_pos hgeneration

theorem OroStore.Idle.stale (h : engine.store.Idle) (token : Token) (env : Env) :
    token.commit env engine = (.error .preparedAlreadyConsumed, engine) := by
  cases hbatch : token.batch with
  | true => rw [Token.commit, if_pos hbatch, commitBatch, h.batch]
  | false => rw [Token.commit, if_neg (by simp [hbatch]), commitPrepared, h.prepared]

def OroStore.released (store : OroStore) : OroStore :=
  { store with activePrepared := none, activeBatch := none }

theorem Holds.abort (h : Holds config engine.store token call) :
    token.abort engine = { engine with store := engine.store.released } := by
  obtain ⟨hreserves, -, -, -, -⟩ := h
  cases hreserves with
  | @single held mutation shaped active hother =>
    have hdiscard : engine.store.discardActivePrepared = engine.store.released := by
      rw [OroStore.discardActivePrepared, OroStore.released, ← hother]
    rw [Token.abort, if_neg (by simp), abortPrepared, active]
    simp only
    rw [if_neg (by simp [preparedFor]), hdiscard]
  | @batch held mutations active hother =>
    have hdiscard : engine.store.discardActiveBatch = engine.store.released := by
      rw [OroStore.discardActiveBatch, OroStore.released, ← hother]
    rw [Token.abort, if_pos rfl, abortBatch, active]
    simp only
    rw [if_pos (batchFor_generation _ _ _ _ _), hdiscard]

theorem Holds.abort_stale (h : Holds config engine.store token call) {other : Token}
    (hne : other ≠ token) :
    other.abort engine = engine := by
  obtain ⟨batch, generation⟩ := other
  obtain ⟨hreserves, -, -, -, -⟩ := h
  cases hreserves with
  | @single held mutation shaped active hother =>
    cases batch with
    | true => rw [Token.abort, if_pos rfl, abortBatch, hother]
    | false =>
      have hgeneration : held ≠ generation := fun heq => hne (by rw [heq])
      rw [Token.abort, if_neg (by simp), abortPrepared, active]
      exact congrArg (fun store => (⟨store, engine.disk⟩ : Engine)) (if_pos hgeneration)
  | @batch held mutations active hother =>
    cases batch with
    | false => rw [Token.abort, if_neg (by simp), abortPrepared, hother]
    | true =>
      have hgeneration : held ≠ generation := fun heq => hne (by rw [heq])
      rw [Token.abort, if_pos rfl, abortBatch, active]
      exact congrArg (fun store => (⟨store, engine.disk⟩ : Engine)) (if_neg hgeneration)

theorem OroStore.Idle.abort (h : engine.store.Idle) (token : Token) :
    token.abort engine = engine := by
  cases hbatch : token.batch with
  | true => rw [Token.abort, if_pos hbatch, abortBatch, h.batch]
  | false => rw [Token.abort, if_neg (by simp [hbatch]), abortPrepared, h.prepared]

theorem Settled.released (h : Settled blake3 config epochs engine view) :
    Settled blake3 config epochs { engine with store := engine.store.released } view :=
  ⟨h.config_eq, h.writable, h.sound, h.shows, ⟨h.seals.fits, h.seals.seq, h.seals.guard⟩, h.offset,
    h.known, h.laid⟩

/-- Store and disk stay in step over a commit. -/
theorem Settled.published (h : Settled blake3 config epochs engine view)
    (hh : Holds config engine.store token call) {after : OroStore}
    (hp : Published engine.store call after) :
    Settled blake3 config epochs ⟨after, engine.disk.append call.record⟩ (view.apply call) := by
  obtain ⟨head, hepoch, hlaid⟩ := h.laid
  have hwal : engine.disk.wal = some (engine.disk.wal.getD []) := by
    obtain ⟨covered, live, base, anchor, hsome, -⟩ := hlaid
    rw [hsome, Option.getD_some]
  have hshows : after.view = view.apply call := by rw [hp.shows, h.shows]
  have hseq : view.nextSeq = engine.store.nextSeq := by rw [← h.shows]; rfl
  have hnext : (view.apply call).nextSeq ≤ maxU64 := by
    have hbound := hh.seq
    rw [← hseq] at hbound
    exact hbound
  have hbytes : chunkBytes [.committed call] ++ [] = call.record := by
    simp [chunkBytes, Chunk.bytes]
  refine ⟨by rw [hp.config_eq, h.config_eq], by
    rw [hp.readOnly, h.writable], by rw [hp.poisoned, h.sound],
    hshows, ⟨?_, ?_, ?_⟩, ?_, by rw [hp.epoch]; exact h.known, head, by rw [hp.epoch, hepoch], ?_⟩
  · have hfits := h.seals.fits.apply hh.fits
    rw [← hp.shows] at hfits
    exact hfits
  · have hafter : after.nextSeq = (view.apply call).nextSeq := congrArg View.nextSeq hshows
    rw [hafter]
    exact hnext
  · intro hrequired
    rw [hp.required] at hrequired
    have hfits := hh.fits
    cases call with
    | single mutation shaped => exact h.seals.guard (by simpa [Call.isBatch] using hrequired)
    | batch mutations => exact BatchFits.guard hfits
  · rw [hp.walOffset, ← h.offset, ← length_append]
    rfl
  · have hlaid' := hlaid.append hwal [.committed call] [] ?_ ?_ hnext
    · rw [hbytes] at hlaid'
      exact hlaid'
    · intro chunk hchunk
      rw [mem_singleton.mp hchunk]
      exact hh.fits
    · rw [hbytes, length_append, h.offset]
      exact hh.room

end Commit

/-- What a client sees of a store, with its change feed, is the same. -/
structure Kept (before after : OroStore) : Prop where
  maps : after.maps = before.maps
  nextSeq : after.nextSeq = before.nextSeq
  changefeed : after.changefeed = before.changefeed

theorem Kept.rfl {store : OroStore} : Kept store store := ⟨Eq.refl _, Eq.refl _, Eq.refl _⟩

theorem Kept.trans {a b c : OroStore} (h : Kept a b) (h' : Kept b c) : Kept a c :=
  ⟨h'.maps.trans h.maps, h'.nextSeq.trans h.nextSeq, h'.changefeed.trans h.changefeed⟩

section Prepare

variable {blake3 : Bytes → Digest} {config : Config} {epochs : List Epoch} {engine : Engine}
    {view : View}
  {env : Env} {call : Call}

/-- What the admission of a record can do. -/
inductive Preflighted (blake3 : Bytes → Digest) (config : Config) (epochs : List Epoch) (env : Env)
    (recordLen : Nat) (engine : Engine) (view : View) : Except StoreError Nat × Engine → Prop where
  | admitted {after : Engine} (settled : Settled blake3 config (env.nextEpoch :: epochs) after view)
      (idle : after.store.Idle) (kept : Kept engine.store after.store)
      (generation : after.store.nextPreparedGeneration = engine.store.nextPreparedGeneration)
      (room : after.store.walOffset + recordLen ≤ config.maxWalBytes) :
      Preflighted blake3 config epochs env recordLen engine view
        (.ok (after.store.walOffset + recordLen), after)
  | refused {after : Engine} (e : StoreError)
      (settled : Settled blake3 config (env.nextEpoch :: epochs) after view)
      (idle : after.store.Idle) (kept : Kept engine.store after.store)
      (generation : after.store.nextPreparedGeneration = engine.store.nextPreparedGeneration) :
      Preflighted blake3 config epochs env recordLen engine view (.error e, after)
  | ambiguous {disk : Disk} (durable : Durable blake3 config (env.nextEpoch :: epochs) disk view) :
      Preflighted blake3 config epochs env recordLen engine view
        (.error .ioAmbiguous, ⟨engine.store.poisonPreparedStore, disk⟩)

theorem Settled.preflight (h : Settled blake3 config epochs engine view) (hidle : engine.store.Idle)
    (hnext : env.nextEpoch ∉ epochs) (recordLen : Nat) :
    Preflighted blake3 config epochs env recordLen engine view
      (preflightWalForRecord blake3 env recordLen engine) := by
  have hsettled : Settled blake3 config (env.nextEpoch :: epochs) engine view :=
    h.mono fun epoch hmem => mem_cons_of_mem _ hmem
  have hrefused :
      ∀ e, Preflighted blake3 config epochs env recordLen engine view (.error e, engine) :=
    fun e => .refused e hsettled hidle .rfl rfl
  have hcompact := h.compact hidle hnext
  have hconfig := h.config_eq
  fun_cases preflightWalForRecord blake3 env recordLen engine
  case case1 | case2 | case3 => exact hrefused _
  case case4 hfails =>
    rw [hfails] at hcompact
    cases hcompact with
    | refused => exact hrefused _
    | ambiguous fault durable => exact .ambiguous durable
  case case8 hsum hhalf =>
    obtain rfl := checkedAdd_eq hsum
    exact .admitted hsettled hidle .rfl rfl (by grind)
  -- The log was compacted first, and the record is measured against the new one.
  case case5 hdone _ | case6 hdone _ _ _ =>
    rw [hdone] at hcompact
    cases hcompact with | done settled =>
    exact .refused _ settled ⟨hidle.prepared, hidle.batch⟩ ⟨rfl, rfl, rfl⟩ rfl
  case case7 hdone _ hagain hroom =>
    rw [hdone] at hcompact
    cases hcompact with | done settled =>
    obtain rfl := checkedAdd_eq hagain
    exact .admitted settled ⟨hidle.prepared, hidle.batch⟩ ⟨rfl, rfl, rfl⟩ rfl
      (hconfig ▸ Nat.not_lt.mp hroom)

/-- What a preparation can do. -/
inductive Prepared (blake3 : Bytes → Digest) (config : Config) (epochs : List Epoch) (env : Env)
    (call : Call) (engine : Engine) (view : View) : Except StoreError Token × Engine → Prop where
  | reserved {token : Token} {after : Engine}
      (settled : Settled blake3 config (env.nextEpoch :: epochs) after view)
      (holds : Holds config after.store token call) (kept : Kept engine.store after.store)
      (issued : token.generation = engine.store.nextPreparedGeneration)
      (generation : engine.store.nextPreparedGeneration ≤ after.store.nextPreparedGeneration) :
      Prepared blake3 config epochs env call engine view (.ok token, after)
  | refused {after : Engine} (e : StoreError)
      (settled : Settled blake3 config (env.nextEpoch :: epochs) after view)
      (idle : after.store.Idle) (kept : Kept engine.store after.store)
      (generation : engine.store.nextPreparedGeneration ≤ after.store.nextPreparedGeneration) :
      Prepared blake3 config epochs env call engine view (.error e, after)
  | ambiguous {disk : Disk} (durable : Durable blake3 config (env.nextEpoch :: epochs) disk view) :
      Prepared blake3 config epochs env call engine view
        (.error .ioAmbiguous, ⟨engine.store.poisonPreparedStore, disk⟩)

/-- The reservation changes the counter of generations and nothing a client sees. -/
theorem Settled.reserving (h : Settled blake3 config epochs engine view) (generation : Nat)
    (prepared : Option ActivePrepared) (batch : Option ActiveBatch) :
    Settled blake3 config epochs
      { engine with
        store := { engine.store with
          nextPreparedGeneration := generation, activePrepared := prepared, activeBatch := batch } }
            view :=
  ⟨h.config_eq, h.writable, h.sound, h.shows, ⟨h.seals.fits, h.seals.seq, h.seals.guard⟩, h.offset,
    h.known, h.laid⟩

theorem Preflighted.refuses {e : StoreError} {recordLen : Nat} {after : Engine}
    (h : Preflighted blake3 config epochs env recordLen engine view (.error e, after)) :
    Prepared blake3 config epochs env call engine view (.error e, after) := by
  cases h with
  | refused _ settled idle kept generation =>
    exact .refused _ settled idle kept (Nat.le_of_eq generation.symm)
  | ambiguous durable => exact .ambiguous durable

section

variable (h : Settled blake3 config epochs engine view) (hidle : engine.store.Idle)
variable (hnext : env.nextEpoch ∉ epochs)
include h hidle hnext

theorem Settled.prepareMutation {mutation : BatchMutation} (shaped : mutation.Shaped) :
    Prepared blake3 config epochs env (.single mutation shaped) engine view
      (prepareMutation blake3 env mutation engine) := by
  have hconfig := h.config_eq
  have hseq := h.seals.seq
  fun_cases OnyxServer.Store.prepareMutation blake3 env mutation engine
  case case8 recordLen _ _ _ _ hfails => exact (hfails ▸ h.preflight hidle hnext recordLen).refuses
  case case9 hmax recordLen hsize _ _ after hadmits =>
    obtain ⟨rfl, hfits⟩ := recordSize_ok shaped (hconfig ▸ hsize)
    have hpreflight := h.preflight hidle hnext (frame (encodeMutation mutation)).length
    rw [hadmits] at hpreflight
    cases hpreflight with | admitted settled idle kept generation room =>
    simp only [reserveMutation]
    split
    · exact .refused _ (settled.reserving _ none _) ⟨rfl, idle.batch⟩ (kept.trans ⟨rfl, rfl, rfl⟩)
        (generation ▸ Nat.le_succ _)
    refine .reserved (settled.reserving _ _ _) ?_ (kept.trans ⟨rfl, rfl, rfl⟩) generation
      (generation ▸ Nat.le_succ _)
    refine ⟨.single rfl idle.batch, hfits, room, ?_, Nat.lt_succ_self _⟩
    have hbelow := Nat.lt_of_le_of_ne hseq hmax
    rwa [← kept.nextSeq] at hbelow
  -- Every other branch refuses with the engine as it was.
  all_goals
    exact .refused _ (h.mono fun epoch hmem => mem_cons_of_mem _ hmem) hidle .rfl (Nat.le_refl _)

theorem Settled.prepareBatch {mutations : List BatchMutation} :
    Prepared blake3 config epochs env (.batch mutations) engine view
      (prepareBatch blake3 env mutations engine) := by
  have hconfig := h.config_eq
  fun_cases OnyxServer.Store.prepareBatch blake3 env mutations engine
  case case9 recordLen _ _ _ _ hfails => exact (hfails ▸ h.preflight hidle hnext recordLen).refuses
  case case10 payloadLen hsize nextSeqAfter hseq recordLen hlen _ _ after hadmits =>
    obtain ⟨rfl, hfits⟩ := batchPayloadLen_ok (hconfig ▸ hsize)
    have hroomSeq := checkedAdd_le hseq
    obtain rfl := checkedAdd_eq hseq
    obtain rfl : recordLen = (encodeBatchGuard ++ frame (encodeBatch mutations)).length := by
      rw [checkedAdd_eq hlen, length_append, frame_length]
      omega
    have hpreflight := h.preflight hidle hnext
      (encodeBatchGuard ++ frame (encodeBatch mutations)).length
    rw [hadmits] at hpreflight
    cases hpreflight with | admitted settled idle kept generation room =>
    simp only [prepareBatchAt]
    split
    · exact .refused _ (settled.reserving _ _ none) ⟨idle.prepared, rfl⟩
        (kept.trans ⟨rfl, rfl, rfl⟩) (generation ▸ Nat.le_succ _)
    rw [← kept.nextSeq] at hroomSeq ⊢
    exact .reserved (settled.reserving _ _ _)
      ⟨.batch rfl idle.prepared, hfits, room, hroomSeq, Nat.lt_succ_self _⟩
      (kept.trans ⟨rfl, rfl, rfl⟩) generation (generation ▸ Nat.le_succ _)
  all_goals
    exact .refused _ (h.mono fun epoch hmem => mem_cons_of_mem _ hmem) hidle .rfl (Nat.le_refl _)

theorem Settled.prepare :
    Prepared blake3 config epochs env call engine view (call.prepare blake3 env engine) := by
  cases call with
  | single mutation shaped => exact h.prepareMutation hidle hnext shaped
  | batch mutations => exact h.prepareBatch hidle hnext

end

/-- While a reservation is held nothing else is prepared. -/
theorem Holds.prepare {token : Token} {held : Call} (hh : Holds config engine.store token held)
    (h : Settled blake3 config epochs engine view) :
    call.prepare blake3 env engine = (.error .preparedMutationActive, engine) := by
  have hactive : engine.store.activePrepared.isSome = true ∨
      engine.store.activeBatch.isSome = true := by
    cases hh.reserves with
    | single active => exact Or.inl (by rw [active]; rfl)
    | batch active => exact Or.inr (by rw [active]; rfl)
  cases call with
  | single mutation shaped =>
    simp only [Call.prepare, OnyxServer.Store.prepareMutation, h.writable, h.sound, hactive,
      Bool.false_eq_true, ↓reduceIte]
  | batch mutations =>
    simp only [Call.prepare, OnyxServer.Store.prepareBatch, h.writable, h.sound, hactive,
      Bool.false_eq_true, ↓reduceIte]

end Prepare

end OnyxServer.Store
