import Mathlib.Data.List.AList
import OnyxServer.Store.Wal

/-!
# The store

State, mutations, compaction and opening, after `engine.zig`. The disk is the pair of
files a store lives in: the log and the snapshot, each replaced by an atomic rename. A
call takes its environment as an argument: the epochs drawn from the random source and
the steps that fail in it.

A table is kept as an association list. Its slots, probe sequences and revision stamps
are not modelled: a plan remembers the table it was made for in place of the stamp.
-/
namespace OnyxServer.Store

open Lib

abbrev Table := AList fun _ : Bytes => Bytes

/-- What replay reads back. -/
structure Contents where
  maps : Family → Table
  nextSeq : Nat
  walEpoch : Epoch
  walEpochKnown : Bool
  snapshotCoverage : Option SnapshotCoverage
  batchFormatRequired : Bool

def Contents.init : Contents where
  maps _ := ∅
  nextSeq := 1
  walEpoch := legacyWalEpoch
  walEpochKnown := false
  snapshotCoverage := none
  batchFormatRequired := false

/-- One row of a table: written with a value, removed without one. -/
def edit (table : Table) (key : Bytes) : Option Bytes → Table
  | some value => table.insert key value
  | none => table.erase key

namespace Contents

def applyPut (contents : Contents) (family : Family) (key value : Bytes) : Contents :=
  { contents with maps :=
    Function.update contents.maps family (edit (contents.maps family) key (some value)) }

def applyDelete (contents : Contents) (family : Family) (key : Bytes) : Contents :=
  { contents with maps :=
    Function.update contents.maps family (edit (contents.maps family) key none) }

def applyMutation (contents : Contents) (mutation : BatchMutation) : Contents :=
  match mutation.kind with
  | .put => contents.applyPut mutation.family mutation.key (mutation.value.getD [])
  | .delete => contents.applyDelete mutation.family mutation.key

end Contents

structure Mutation where
  seq : Nat
  family : Family
  kind : MutationKind
  key : Bytes
  value : Option Bytes
  deriving DecidableEq

/-- A ring of the newest mutations. -/
structure ChangeFeed where
  entries : List (Option Mutation)
  start : Nat
  count : Nat
  deriving DecidableEq

namespace ChangeFeed

def init (capacity : Nat) : ChangeFeed := ⟨List.replicate capacity none, 0, 0⟩

/-- The evicted entry, which the source hands to a retirement queue, is dropped. -/
def publishPrepared (feed : ChangeFeed) (mutation : Mutation) : ChangeFeed :=
  if feed.entries.length = 0 then feed
  else if feed.count < feed.entries.length then
    { feed with
      entries := feed.entries.set ((feed.start + feed.count) % feed.entries.length) (some mutation)
      count := feed.count + 1 }
  else
    { feed with
      entries := feed.entries.set feed.start (some mutation)
      start := (feed.start + 1) % feed.entries.length }

end ChangeFeed

/-- A planned change of one table. Validation compares `expected` with the table. -/
structure Plan where
  expected : Table
  edits : List (Bytes × Option Bytes)

def Plan.publish (plan : Plan) : Table :=
  plan.edits.foldl (fun table change => edit table change.1 change.2) plan.expected

structure ActivePrepared where
  generation : Nat
  mutation : BatchMutation
  record : Bytes
  change : Option Mutation
  finalWalOffset : Nat
  nextSeqAfter : Nat
  oldValue : Option Bytes
  tablePlan : Option Plan

structure BatchEntry where
  mutation : BatchMutation
  change : Option Mutation
  oldValue : Option Bytes

structure ActiveBatch where
  generation : Nat
  entries : List BatchEntry
  record : Bytes
  finalWalOffset : Nat
  nextSeqAfter : Nat
  tablePlans : Family → Option Plan

structure OroStore extends Contents where
  config : Config
  changefeed : ChangeFeed
  walOffset : Nat
  activePrepared : Option ActivePrepared
  activeBatch : Option ActiveBatch
  nextPreparedGeneration : Nat
  preparedPoisoned : Bool
  stagedReadOnly : Bool

structure Disk where
  wal : Option Bytes
  snapshot : Option Bytes
  deriving DecidableEq

/-- An open store and the files it lives in. -/
structure Engine where
  store : OroStore
  disk : Disk

inductive Allocation where
  | record
  | key (index : Nat)
  | value (index : Nat)
  | change (index : Nat)
  | plan (family : Family)
  deriving DecidableEq

inductive WriteFault where
  | none
  /-- The write fails after some octets have reached the file. -/
  | short (written : Nat)

/-- The renames of a compaction that took effect. -/
inductive Installed where
  | nothing
  | snapshot
  | both

inductive CompactionFault where
  | none
  /-- A failure before the rename of the snapshot. -/
  | before (error : StoreError)
  /-- A failure at that rename or later. -/
  | cut (installed : Installed)

structure Env where
  /-- The epoch drawn for an empty log without a snapshot. -/
  emptyEpoch : Epoch
  /-- The epoch drawn by a compaction. -/
  nextEpoch : Epoch
  ensureWalFails : Bool
  revisionExhausted : Family → Bool
  compaction : CompactionFault
  allocates : Allocation → Bool
  write : WriteFault
  syncFails : Bool

namespace OroStore

def discardActivePrepared (store : OroStore) : OroStore := { store with activePrepared := none }

def discardActiveBatch (store : OroStore) : OroStore := { store with activeBatch := none }

def poisonPreparedStore (store : OroStore) : OroStore :=
  { store with preparedPoisoned := true, activePrepared := none, activeBatch := none }

/-- The end of a compaction. -/
def adoptEpoch (store : OroStore) (epoch : Epoch) (coverage : SnapshotCoverage) : OroStore :=
  { store with
    walEpoch := epoch
    walEpochKnown := true
    walOffset := coldEpochRecordLen
    snapshotCoverage := some coverage }

end OroStore

def recordSize (kind : MutationKind) (key value : Bytes) (maxRecordBytes : Nat) :
    Except StoreError Nat :=
  match checkedPayloadLen kind key value maxRecordBytes with
  | .error e => .error e
  | .ok payloadLen =>
    match checkedAdd recordHeaderLen payloadLen with
    | none => .error .recordTooLarge
    | some size => .ok size

/-- The rows of a snapshot, by family and in the order of the tables. -/
def snapshotRows (maps : Family → Table) : List BatchMutation :=
  families.flatMap fun family =>
    (maps family).entries.map fun row => ⟨family, .put, row.1, some row.2⟩

def coldSnapshotBytes (contents : Contents) (coverage : SnapshotCoverage) : Bytes :=
  frame (nextSeqPayload contents.nextSeq) ++
    ((if contents.batchFormatRequired then encodeBatchGuard else []) ++
      ((snapshotRows contents.maps).flatMap (fun row => frame (encodeMutation row)) ++
        frame (snapshotCoveragePayload coverage)))

def rowRefusal (maxRecordBytes : Nat) (row : BatchMutation) : Option StoreError :=
  match recordSize row.kind row.key (row.value.getD []) maxRecordBytes with
  | .error e => some e
  | .ok _ => none

/-- The sizing pass refuses a row that no longer fits. The sum it also takes cannot leave
the range of `usize`: every row occupies more memory than its record. -/
def encodeColdSnapshot (contents : Contents) (maxRecordBytes : Nat) (coverage : SnapshotCoverage) :
    Except StoreError Bytes :=
  match (snapshotRows contents.maps).findSome? (rowRefusal maxRecordBytes) with
  | some e => .error e
  | none => .ok (coldSnapshotBytes contents coverage)

section Compaction

variable (blake3 : Bytes → Digest)

def freshSlot (epoch : Epoch) : CoverageSlot :=
  ⟨coldEpochRecordLen, epoch, blake3 (coldEpoch epoch)⟩

/-- The log as it is, under its epoch, or the log that replaces it. -/
def compactionCoverage (store : OroStore) (wal : Bytes) (nextEpoch : Epoch) : SnapshotCoverage :=
  ⟨[⟨store.walOffset, store.walEpoch, blake3 wal⟩, freshSlot blake3 nextEpoch]⟩

/-- Write the snapshot and an empty log of a new epoch beside the files in use, rename the
snapshot into place, then the log. Every failure from the first rename on poisons the
store. The identity and content checks of the source compare files with what was just
written to them; of these the length of the log stays. -/
def snapshotAndReplaceEpoch (env : Env) (engine : Engine) : Except StoreError Unit × Engine :=
  let store := engine.store
  let wal := engine.disk.wal.getD []
  if store.stagedReadOnly then (.error .readOnlyStore, engine)
  else if store.preparedPoisoned then (.error .storePoisoned, engine)
  else if store.activePrepared.isSome ∨ store.activeBatch.isSome then
    (.error .preparedMutationActive, engine)
  else if env.ensureWalFails then (.error .io, engine)
  else if wal.length ≠ store.walOffset then (.error .snapshotCoverageMismatch, engine)
  else
    let coverage := compactionCoverage blake3 store wal env.nextEpoch
    match encodeColdSnapshot store.toContents store.config.maxRecordBytes coverage with
    | .error e => (.error e, engine)
    | .ok snapshot =>
      let replaced : Disk := ⟨some (coldEpoch env.nextEpoch), some snapshot⟩
      match env.compaction with
      | .before e => (.error e, engine)
      | .cut .nothing => (.error .ioAmbiguous, ⟨store.poisonPreparedStore, engine.disk⟩)
      | .cut .snapshot =>
        (.error .ioAmbiguous,
          ⟨store.poisonPreparedStore, { engine.disk with snapshot := some snapshot }⟩)
      | .cut .both => (.error .ioAmbiguous, ⟨store.poisonPreparedStore, replaced⟩)
      | .none =>
        (.ok (), ⟨store.adoptEpoch env.nextEpoch coverage, replaced⟩)

def maybeCompact (env : Env) (engine : Engine) : Except StoreError Unit × Engine :=
  if engine.store.walOffset < engine.store.config.maxWalBytes / 2 then (.ok (), engine)
  else snapshotAndReplaceEpoch blake3 env engine

/-! ## Preparing a mutation -/

/-- The log offset behind the record. -/
def preflightWalForRecord (env : Env) (recordLen : Nat) (engine : Engine) :
    Except StoreError Nat × Engine :=
  let maxWal := engine.store.config.maxWalBytes
  if maxWal < recordLen then (.error .recordTooLarge, engine)
  else if env.ensureWalFails then (.error .io, engine)
  else
    match checkedAdd engine.store.walOffset recordLen with
    | none => (.error .recordTooLarge, engine)
    | some projected =>
      if maxWal < projected ∨ maxWal / 2 ≤ projected then
        match snapshotAndReplaceEpoch blake3 env engine with
        | (.error e, engine) => (.error e, engine)
        | (.ok (), engine) =>
          match checkedAdd engine.store.walOffset recordLen with
          | none => (.error .recordTooLarge, engine)
          | some projected =>
            if maxWal < projected then (.error .recordTooLarge, engine) else (.ok projected, engine)
      else (.ok projected, engine)

/-- What a prepared mutation is known by. The source has one token type for single
mutations and one for batches. -/
structure Token where
  batch : Bool
  generation : Nat
  deriving DecidableEq

def singleAllocations (store : OroStore) (mutation : BatchMutation) : List Allocation :=
  [.record, .key 0] ++ (if mutation.value.isSome then [.value 0] else []) ++
    (if store.changefeed.entries.length ≠ 0 then [.change 0] else []) ++
    (if mutation.kind = .put ∨ ((store.maps mutation.family).lookup mutation.key).isSome then
      [.plan mutation.family] else [])

def changeOf (store : OroStore) (seq : Nat) (mutation : BatchMutation) : Option Mutation :=
  if store.changefeed.entries.length ≠ 0 then
    some ⟨seq, mutation.family, mutation.kind, mutation.key, mutation.value⟩
  else none

def preparedFor (store : OroStore) (generation : Nat) (mutation : BatchMutation)
    (finalWalOffset : Nat) :
    ActivePrepared where
  generation := generation
  mutation := mutation
  record := frame (encodeMutation mutation)
  change := changeOf store store.nextSeq mutation
  finalWalOffset := finalWalOffset
  nextSeqAfter := store.nextSeq + 1
  oldValue := (store.maps mutation.family).lookup mutation.key
  tablePlan :=
    if mutation.kind = .put ∨ ((store.maps mutation.family).lookup mutation.key).isSome then
      some ⟨store.maps mutation.family, [(mutation.key, mutation.value)]⟩
    else none

/-- The reservation of a mutation: the generation is spent also where an allocation fails. -/
def reserveMutation (env : Env) (mutation : BatchMutation) (finalWalOffset : Nat)
    (engine : Engine) :
    Except StoreError Token × Engine :=
  let store := engine.store
  let generation := store.nextPreparedGeneration
  let reserved := { store with nextPreparedGeneration := generation + 1 }
  if ¬ (singleAllocations store mutation).all env.allocates then
    (.error .outOfMemory, { engine with store := reserved.discardActivePrepared })
  else
    let active := preparedFor store generation mutation finalWalOffset
    (.ok ⟨false, generation⟩,
      { engine with store := { reserved with activePrepared := some active } })

def prepareMutation (env : Env) (mutation : BatchMutation) (engine : Engine) :
    Except StoreError Token × Engine :=
  let store := engine.store
  if store.stagedReadOnly then (.error .readOnlyStore, engine)
  else if store.preparedPoisoned then (.error .storePoisoned, engine)
  else if store.activePrepared.isSome ∨ store.activeBatch.isSome then
    (.error .preparedMutationActive, engine)
  else if store.nextPreparedGeneration = maxU64 then (.error .sequenceExhausted, engine)
  else if store.nextSeq = maxU64 then (.error .sequenceExhausted, engine)
  else
    match recordSize mutation.kind mutation.key
      (mutation.value.getD []) store.config.maxRecordBytes with
    | .error e => (.error e, engine)
    | .ok recordLen =>
      -- deleting an absent row leaves the table alone, its revision included
      if (mutation.kind = .put ∨ ((store.maps mutation.family).lookup mutation.key).isSome) ∧
          env.revisionExhausted mutation.family then (.error .sequenceExhausted, engine)
      else
        match preflightWalForRecord blake3 env recordLen engine with
        | (.error e, engine) => (.error e, engine)
        | (.ok finalWalOffset, engine) => reserveMutation env mutation finalWalOffset engine

def batchAllocations (store : OroStore) (mutations : List BatchMutation) : List Allocation :=
  [.record] ++
    (mutations.zipIdx.flatMap fun indexed =>
      [.key indexed.2] ++ (if indexed.1.value.isSome then [.value indexed.2] else []) ++
        (if store.changefeed.entries.length ≠ 0 then [.change indexed.2] else [])) ++
    (mutations.map fun mutation => .plan mutation.family)

def batchEntries (store : OroStore) (mutations : List BatchMutation) : List BatchEntry :=
  mutations.zipIdx.map fun indexed => {
    mutation := indexed.1
    change := changeOf store (store.nextSeq + indexed.2) indexed.1
    oldValue := (store.maps indexed.1.family).lookup indexed.1.key }

/-- The edits a batch makes in one family. -/
def familyEdits (family : Family) (mutations : List BatchMutation) : List (Bytes × Option Bytes) :=
  (mutations.filter fun mutation => mutation.family = family).map fun mutation =>
    (mutation.key, mutation.value)

def batchPlan (store : OroStore) (mutations : List BatchMutation) (family : Family) : Option Plan :=
  if familyEdits family mutations = [] then none
  else some ⟨store.maps family, familyEdits family mutations⟩

def batchFor (store : OroStore) (generation : Nat) (mutations : List BatchMutation)
    (finalWalOffset nextSeqAfter : Nat) : ActiveBatch where
  generation := generation
  entries := batchEntries store mutations
  record := encodeBatchGuard ++ frame (encodeBatch mutations)
  finalWalOffset := finalWalOffset
  nextSeqAfter := nextSeqAfter
  tablePlans := batchPlan store mutations

def prepareBatchAt (env : Env) (mutations : List BatchMutation) (finalWalOffset nextSeqAfter : Nat)
    (engine : Engine) : Except StoreError Token × Engine :=
  let store := engine.store
  let generation := store.nextPreparedGeneration
  let reserved := { store with nextPreparedGeneration := generation + 1 }
  if ¬ (batchAllocations store mutations).all env.allocates then
    (.error .outOfMemory, { engine with store := reserved.discardActiveBatch })
  else
    let active := batchFor store generation mutations finalWalOffset nextSeqAfter
    (.ok ⟨true, generation⟩, { engine with store := { reserved with activeBatch := some active } })

def prepareBatch (env : Env) (mutations : List BatchMutation) (engine : Engine) :
    Except StoreError Token × Engine :=
  let store := engine.store
  if store.stagedReadOnly then (.error .readOnlyStore, engine)
  else if store.preparedPoisoned then (.error .storePoisoned, engine)
  else if store.activePrepared.isSome ∨ store.activeBatch.isSome then
    (.error .preparedMutationActive, engine)
  else if store.nextPreparedGeneration = maxU64 then (.error .sequenceExhausted, engine)
  else
    match batchPayloadLen mutations store.config.maxRecordBytes with
    | .error e => (.error e, engine)
    | .ok payloadLen =>
      match checkedAdd store.nextSeq mutations.length with
      | none => (.error .sequenceExhausted, engine)
      | some nextSeqAfter =>
        match checkedAdd (encodeBatchGuard.length + recordHeaderLen) payloadLen with
        | none => (.error .recordTooLarge, engine)
        | some recordLen =>
          if mutations.any fun mutation => env.revisionExhausted mutation.family then
            (.error .sequenceExhausted, engine)
          else
            match preflightWalForRecord blake3 env recordLen engine with
            | (.error e, engine) => (.error e, engine)
            | (.ok finalWalOffset, engine) =>
              prepareBatchAt env mutations finalWalOffset nextSeqAfter engine

end Compaction

/-- A positional write. -/
def writeAt (file : Bytes) (offset : Nat) (bytes : Bytes) : Bytes :=
  file.take offset ++ List.replicate (offset - file.length) 0 ++ bytes ++
    file.drop (offset + bytes.length)

/-- An open store always holds its log file, so there is no case without one. -/
def writePreparedBytes (env : Env) (record : Bytes) (finalOffset : Nat) (engine : Engine) :
    Except StoreError Unit × Engine :=
  let write (bytes : Bytes) : Disk :=
    { engine.disk with
      wal := some (writeAt (engine.disk.wal.getD []) (finalOffset - record.length) bytes) }
  match env.write with
  | .short written =>
    (.error .ioAmbiguous, ⟨engine.store.poisonPreparedStore, write (record.take written)⟩)
  | .none =>
    if env.syncFails then (.error .ioAmbiguous, ⟨engine.store.poisonPreparedStore, write record⟩)
    else (.ok (), { engine with disk := write record })

namespace OroStore

/-- A mutation without a plan deletes an absent row. -/
def planFits (store : OroStore) (mutation : BatchMutation) (oldValue : Option Bytes) :
    Option Plan → Prop
  | some plan =>
    (mutation.key, mutation.value) ∈ plan.edits ∧
      plan.expected.entries = (store.maps mutation.family).entries
  | none => mutation.kind = .delete ∧ oldValue = none

instance (store : OroStore) (mutation : BatchMutation) (oldValue : Option Bytes) :
    (plan : Option Plan) → Decidable (store.planFits mutation oldValue plan)
  | some _ => inferInstanceAs (Decidable (_ ∧ _))
  | none => inferInstanceAs (Decidable (_ ∧ _))

def validPrepared (store : OroStore) (active : ActivePrepared) : Prop :=
  active.mutation.Shaped ∧ store.planFits active.mutation active.oldValue active.tablePlan ∧
  (store.maps active.mutation.family).lookup active.mutation.key = active.oldValue

instance (store : OroStore) (active : ActivePrepared) : Decidable (store.validPrepared active) :=
  inferInstanceAs (Decidable (_ ∧ _ ∧ _))

def publishPrepared (store : OroStore) (active : ActivePrepared) : OroStore :=
  { store with
    maps :=
      match active.tablePlan with
      | some plan => Function.update store.maps active.mutation.family plan.publish
      | none => store.maps
    changefeed :=
      match active.change with
      | some change => store.changefeed.publishPrepared change
      | none => store.changefeed
    walOffset := active.finalWalOffset
    nextSeq := active.nextSeqAfter
    activePrepared := none }

/-- The plan of a family holds exactly the edits of the batch there. The source marks,
entry by entry, the edit that belongs to it and then asks for every edit to be marked. -/
def familyPlanFits (store : OroStore) (mutations : List BatchMutation) (family : Family) :
    Option Plan → Prop
  | some plan =>
    plan.edits ≠ [] ∧ plan.expected.entries = (store.maps family).entries ∧
      plan.edits.Perm (familyEdits family mutations)
  | none => familyEdits family mutations = []

instance (store : OroStore) (mutations : List BatchMutation) (family : Family) :
    (plan : Option Plan) → Decidable (store.familyPlanFits mutations family plan)
  | some _ => inferInstanceAs (Decidable (_ ∧ _ ∧ _))
  | none => inferInstanceAs (Decidable (_ = _))

def validateBatchTables (store : OroStore) (active : ActiveBatch) : Prop :=
  active.entries ≠ [] ∧ active.entries.length ≤ maxBatchMutations ∧
  (∀ family ∈ families, store.familyPlanFits (active.entries.map BatchEntry.mutation) family
    (active.tablePlans family)) ∧
  ∀ entry ∈ active.entries, entry.mutation.Shaped ∧
    (store.maps entry.mutation.family).lookup entry.mutation.key = entry.oldValue

instance (store : OroStore) (active : ActiveBatch) : Decidable (store.validateBatchTables active) :=
  inferInstanceAs (Decidable (_ ∧ _ ∧ _ ∧ _))

def publishBatch (store : OroStore) (active : ActiveBatch) : OroStore :=
  { store with
    maps := fun family =>
      match active.tablePlans family with
      | some plan => plan.publish
      | none => store.maps family
    changefeed := active.entries.foldl (fun feed entry =>
      match entry.change with
      | some change => feed.publishPrepared change
      | none => feed) store.changefeed
    walOffset := active.finalWalOffset
    nextSeq := active.nextSeqAfter
    batchFormatRequired := true
    activeBatch := none }

end OroStore

def commitPrepared (env : Env) (generation : Nat) (engine : Engine) :
    Except StoreError Unit × Engine :=
  match engine.store.activePrepared with
  | none => (.error .preparedAlreadyConsumed, engine)
  | some active =>
    if active.generation ≠ generation then (.error .preparedAlreadyConsumed, engine)
    else if engine.store.preparedPoisoned then (.error .storePoisoned, engine)
    else if ¬ engine.store.validPrepared active then (.error .invalidTablePlan, engine)
    else
      match writePreparedBytes env active.record active.finalWalOffset engine with
      | (.error e, engine) => (.error e, engine)
      | (.ok (), engine) => (.ok (), { engine with store := engine.store.publishPrepared active })

def commitBatch (env : Env) (generation : Nat) (engine : Engine) :
    Except StoreError Unit × Engine :=
  match engine.store.activeBatch with
  | none => (.error .preparedAlreadyConsumed, engine)
  | some active =>
    if active.generation ≠ generation then (.error .preparedAlreadyConsumed, engine)
    else if engine.store.preparedPoisoned then (.error .storePoisoned, engine)
    else if ¬ engine.store.validateBatchTables active then (.error .invalidTablePlan, engine)
    else
      match writePreparedBytes env active.record active.finalWalOffset engine with
      | (.error e, engine) => (.error e, engine)
      | (.ok (), engine) => (.ok (), { engine with store := engine.store.publishBatch active })

def abortPrepared (generation : Nat) (store : OroStore) : OroStore :=
  match store.activePrepared with
  | none => store
  | some active => if active.generation ≠ generation then store else store.discardActivePrepared

def abortBatch (generation : Nat) (store : OroStore) : OroStore :=
  match store.activeBatch with
  | none => store
  | some active => if active.generation = generation then store.discardActiveBatch else store

def Token.commit (token : Token) (env : Env) (engine : Engine) : Except StoreError Unit × Engine :=
  if token.batch then commitBatch env token.generation engine
  else commitPrepared env token.generation engine

def Token.abort (token : Token) (engine : Engine) : Engine :=
  { engine with
    store := if token.batch then abortBatch token.generation engine.store
      else abortPrepared token.generation engine.store }

/-- A mutation as its caller asks for it. -/
inductive Call where
  | single (mutation : BatchMutation) (shaped : mutation.Shaped)
  | batch (mutations : List BatchMutation)

namespace Call

def put (family : Family) (key value : Bytes) : Call :=
  .single ⟨family, .put, key, some value⟩ ⟨fun _ => rfl, fun _ => rfl⟩

def delete (family : Family) (key : Bytes) : Call :=
  .single ⟨family, .delete, key, none⟩ ⟨nofun, nofun⟩

def mutations : Call → List BatchMutation
  | single mutation _ => [mutation]
  | batch mutations => mutations

def isBatch : Call → Bool
  | single _ _ => false
  | batch _ => true

/-- What a commit of the call appends to the log. -/
def record : Call → Bytes
  | single mutation _ => frame (encodeMutation mutation)
  | batch mutations => encodeBatchGuard ++ frame (encodeBatch mutations)

variable (blake3 : Bytes → Digest)

def prepare (env : Env) (call : Call) (engine : Engine) : Except StoreError Token × Engine :=
  match call with
  | single mutation _ => prepareMutation blake3 env mutation engine
  | batch mutations => prepareBatch blake3 env mutations engine

/-- `put` and `delete`, and a batch as its callers make it: prepare, commit, and release
the token on every way out. -/
def perform (env : Env) (call : Call) (engine : Engine) : Except StoreError Unit × Engine :=
  match call.prepare blake3 env engine with
  | (.error e, engine) => (.error e, engine)
  | (.ok token, engine) =>
    let outcome := token.commit env engine
    (outcome.1, token.abort outcome.2)

end Call

end OnyxServer.Store
