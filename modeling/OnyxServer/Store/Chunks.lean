import OnyxServer.Store.Replay

/-!
# What a log says

A log is a run of committed calls, with the format guard of an interrupted batch among
them. Its meaning is a view: one partial map for each family and the next sequence number.
-/
namespace OnyxServer.Store

open Lib List AList

/-- What a client of the store can see. -/
@[ext] structure View where
  get : Family → Bytes → Option Bytes
  nextSeq : Nat

namespace View

def write (view : View) (mutation : BatchMutation) : View :=
  { view with
    get := fun family key =>
      if family = mutation.family ∧
      key = mutation.key then mutation.value else view.get family key }

/-- A call takes effect as a whole. -/
def apply (view : View) (call : Call) : View :=
  { call.mutations.foldl write view with nextSeq := view.nextSeq + call.mutations.length }

/-- Every row can be written to a snapshot. -/
def Fits (config : Config) (view : View) : Prop :=
  ∀ family key value, view.get family key = some value →
    payloadHeaderLen + key.length + value.length ≤ config.maxRecordBytes

end View

def Contents.view (contents : Contents) : View where
  get family key := (contents.maps family).lookup key
  nextSeq := contents.nextSeq

section Writes

variable {config : Config} {mutations : List BatchMutation} {view : View}

theorem lookup_edit (table : Table) (key key' : Bytes) (value : Option Bytes) :
    (edit table key value).lookup key' = if key' = key then value else table.lookup key' := by
  cases value with
  | none =>
    by_cases h : key' = key
    · rw [if_pos h, h, edit, lookup_erase]
    · rw [if_neg h, edit, lookup_erase_ne h]
  | some value =>
    by_cases h : key' = key
    · rw [if_pos h, h, edit, lookup_insert]
    · rw [if_neg h, edit, lookup_insert_ne h]

theorem view_applyMutation {mutation : BatchMutation} (h : mutation.Shaped) (contents : Contents) :
    (contents.applyMutation mutation).view = contents.view.write mutation := by
  rw [Contents.applyMutation_eq h]
  ext family key : 3
  · by_cases hfamily : family = mutation.family
    · subst hfamily
      simp only [Contents.view, View.write, editMaps, Function.update_self, lookup_edit, true_and]
    · simp only [Contents.view, View.write, editMaps, Function.update_of_ne hfamily, hfamily,
        false_and, ↓reduceIte]
  · rfl

theorem view_applyMutations (h : ∀ mutation ∈ mutations, mutation.Shaped) (contents : Contents) :
    (mutations.foldl Contents.applyMutation contents).view =
      mutations.foldl View.write contents.view := by
  induction mutations generalizing contents with
  | nil => rfl
  | cons mutation rest ih =>
    obtain ⟨hfirst, hrest⟩ := forall_mem_cons.mp h
    rw [foldl_cons, foldl_cons, ih hrest, view_applyMutation hfirst]

theorem foldl_write_nextSeq (mutations : List BatchMutation) (view : View) :
    (mutations.foldl View.write view).nextSeq = view.nextSeq := by
  induction mutations generalizing view with
  | nil => rfl
  | cons mutation rest ih => rw [foldl_cons, ih]; rfl

/-- Writes that agree on a row leave what they agree on. -/
theorem foldl_write_get {family : Family} {key : Bytes} {value : Option Bytes}
    (h : ∀ mutation ∈ mutations, mutation.family = family → mutation.key = key →
      mutation.value = value) :
    (mutations.foldl View.write view).get family key =
      if ∃ mutation ∈ mutations, mutation.family = family ∧ mutation.key = key then value
      else view.get family key := by
  induction mutations generalizing view with
  | nil => simp
  | cons mutation rest ih =>
    obtain ⟨hfirst, hrest⟩ := forall_mem_cons.mp h
    rw [foldl_cons, ih hrest]
    by_cases hlater : ∃ mutation ∈ rest, mutation.family = family ∧ mutation.key = key
    · rw [if_pos hlater, if_pos]
      obtain ⟨later, hmem, hrow⟩ := hlater
      exact ⟨later, mem_cons_of_mem _ hmem, hrow⟩
    rw [if_neg hlater]
    by_cases hrow : mutation.family = family ∧ mutation.key = key
    · have hget : (view.write mutation).get family key = mutation.value :=
        if_pos ⟨hrow.1.symm, hrow.2.symm⟩
      rw [hget, if_pos ⟨mutation, mem_cons_self, hrow⟩]
      exact hfirst hrow.1 hrow.2
    · have hget : (view.write mutation).get family key = view.get family key :=
        if_neg fun h => hrow ⟨h.1.symm, h.2.symm⟩
      rw [hget, if_neg]
      rintro ⟨other, hmem, hother⟩
      rcases mem_cons.mp hmem with rfl | hmem
      · exact hrow hother
      · exact hlater ⟨other, hmem, hother⟩

theorem View.Fits.write (h : view.Fits config) {mutation : BatchMutation}
    (hfits : (encodeMutation mutation).length ≤ config.maxRecordBytes) :
    (view.write mutation).Fits config := by
  intro family key value hget
  simp only [View.write] at hget
  split at hget
  · next hrow =>
    rw [encodeMutation_length, hget, Option.getD_some] at hfits
    rw [hrow.2]
    exact hfits
  · exact h family key value hget

theorem View.Fits.writes (h : view.Fits config)
    (hfits : ∀ mutation ∈ mutations, (encodeMutation mutation).length ≤ config.maxRecordBytes) :
    (mutations.foldl View.write view).Fits config := by
  induction mutations generalizing view with
  | nil => exact h
  | cons mutation rest ih =>
    obtain ⟨hfirst, hrest⟩ := forall_mem_cons.mp hfits
    exact ih (h.write hfirst) hrest

end Writes

section Calls

variable {config : Config} {contents : Contents}

def Call.Fits (config : Config) : Call → Prop
  | .single mutation _ => (encodeMutation mutation).length ≤ config.maxRecordBytes
  | .batch mutations => BatchFits config.maxRecordBytes mutations

variable {call : Call}

theorem Call.Fits.shaped (h : call.Fits config) :
    ∀ mutation ∈ call.mutations, mutation.Shaped := by
  cases call with
  | single mutation shaped =>
    intro other hother
    rw [mem_singleton.mp hother]
    exact shaped
  | batch mutations => exact BatchFits.shaped h

theorem Call.Fits.parts (h : call.Fits config) :
    ∀ mutation ∈ call.mutations, (encodeMutation mutation).length ≤ config.maxRecordBytes := by
  cases call with
  | single mutation shaped =>
    intro other hother
    rw [mem_singleton.mp hother]
    exact h
  | batch mutations => exact BatchFits.parts h

theorem View.Fits.apply {view : View} (h : view.Fits config) (hcall : call.Fits config) :
    (view.apply call).Fits config := h.writes hcall.parts

/-- A call read back from the log. -/
def Contents.replayCall (contents : Contents) (call : Call) : Contents :=
  { contents with
    maps := call.mutations.foldl editMaps contents.maps
    nextSeq := contents.nextSeq + call.mutations.length
    batchFormatRequired := contents.batchFormatRequired || call.isBatch }

theorem view_replayCall (h : call.Fits config) (contents : Contents) :
    (contents.replayCall call).view = contents.view.apply call := by
  have hview := view_applyMutations h.shaped contents
  rw [foldl_applyMutation h.shaped] at hview
  ext family key : 3
  · exact congrFun (congrFun (congrArg View.get hview) family) key
  · rfl

inductive Chunk where
  | committed (call : Call)
  /-- The guard of a batch whose own record was lost. -/
  | guard

namespace Chunk

def bytes : Chunk → Bytes
  | .committed call => call.record
  | .guard => encodeBatchGuard

def Fits (config : Config) : Chunk → Prop
  | .committed call => call.Fits config
  | .guard => 2 ≤ config.maxRecordBytes

def apply (view : View) : Chunk → View
  | .committed call => view.apply call
  | .guard => view

end Chunk

def Contents.replayChunk (contents : Contents) : Chunk → Contents
  | .committed call => contents.replayCall call
  | .guard => { contents with batchFormatRequired := true }

theorem view_replayChunk {chunk : Chunk} (h : chunk.Fits config) (contents : Contents) :
    (contents.replayChunk chunk).view = chunk.apply contents.view := by
  cases chunk with
  | committed call => exact view_replayCall h contents
  | guard => rfl

theorem replayFrom_chunk {chunk : Chunk} (hfits : chunk.Fits config)
    (hseq : (contents.replayChunk chunk).nextSeq ≤ maxU64) (offset : Nat) (more : Bytes) :
    replayFrom config .wal offset (chunk.bytes ++ more) contents =
      replayFrom config .wal (offset + chunk.bytes.length) more (contents.replayChunk chunk) := by
  cases chunk with
  | guard => exact replayFrom_guard hfits .wal offset more
  | committed call =>
    cases call with
    | single mutation shaped =>
      have hlt : contents.nextSeq < maxU64 := hseq
      rw [Chunk.bytes, Call.record, replayFrom_mutation shaped hfits hlt]
      simp only [Contents.applyMutation_eq shaped, Contents.replayChunk, Contents.replayCall,
        Call.mutations, foldl_cons, foldl_nil, length_singleton, Call.isBatch, Bool.or_false]
    | batch mutations =>
      have hle : contents.nextSeq + mutations.length ≤ maxU64 := hseq
      have hbatch : BatchFits config.maxRecordBytes mutations := hfits
      have hguarded :=
        @replayFrom_batch config { contents with batchFormatRequired := true } mutations
        hbatch rfl hle (offset + encodeBatchGuard.length) more
      rw [Chunk.bytes, Call.record, append_assoc, replayFrom_guard hbatch.guard, hguarded,
        length_append, Nat.add_assoc, foldl_applyMutation hbatch.shaped]
      simp only [Contents.replayChunk, Contents.replayCall, Call.mutations, Call.isBatch,
        Bool.or_true]

def chunkBytes (chunks : List Chunk) : Bytes := chunks.flatMap Chunk.bytes

theorem chunkBytes_append (chunks more : List Chunk) :
    chunkBytes (chunks ++ more) = chunkBytes chunks ++ chunkBytes more := flatMap_append

def Contents.replayChunks (contents : Contents) (chunks : List Chunk) : Contents :=
  chunks.foldl Contents.replayChunk contents

theorem view_replayChunks {chunks : List Chunk} (h : ∀ chunk ∈ chunks, chunk.Fits config)
    (contents : Contents) :
    (contents.replayChunks chunks).view = chunks.foldl Chunk.apply contents.view := by
  induction chunks generalizing contents with
  | nil => rfl
  | cons chunk rest ih =>
    obtain ⟨hfirst, hrest⟩ := forall_mem_cons.mp h
    rw [Contents.replayChunks, foldl_cons, foldl_cons, ← Contents.replayChunks, ih hrest,
      view_replayChunk hfirst]

theorem replayChunk_nextSeq_le (contents : Contents) (chunk : Chunk) :
    contents.nextSeq ≤ (contents.replayChunk chunk).nextSeq := by
  cases chunk with
  | committed call => exact Nat.le_add_right _ _
  | guard => exact Nat.le_refl _

theorem replayChunks_nextSeq_le (contents : Contents) (chunks : List Chunk) :
    contents.nextSeq ≤ (contents.replayChunks chunks).nextSeq := by
  induction chunks generalizing contents with
  | nil => exact Nat.le_refl _
  | cons chunk rest ih => exact Nat.le_trans (replayChunk_nextSeq_le contents chunk) (ih _)

/-- Replay reads every chunk and stops in front of the torn frame. -/
theorem replayFrom_chunks {chunks : List Chunk} {tail : Bytes}
    (hfits : ∀ chunk ∈ chunks, chunk.Fits config)
    (hseq : (contents.replayChunks chunks).nextSeq ≤ maxU64) (htorn : Torn config tail)
    (offset : Nat) :
    replayFrom config .wal offset (chunkBytes chunks ++ tail) contents =
      .ok (contents.replayChunks chunks, offset + (chunkBytes chunks).length) := by
  induction chunks generalizing contents offset with
  | nil => exact htorn.replay offset
  | cons chunk rest ih =>
    obtain ⟨hfirst, hrest⟩ := forall_mem_cons.mp hfits
    have hmid : (contents.replayChunk chunk).nextSeq ≤ maxU64 :=
      Nat.le_trans (replayChunks_nextSeq_le _ rest) hseq
    have hbytes : chunkBytes (chunk :: rest) = chunk.bytes ++ chunkBytes rest := flatMap_cons
    rw [hbytes, append_assoc, replayFrom_chunk hfirst hmid, ih hrest hseq, length_append,
      Nat.add_assoc]
    rfl

end Calls

section Snapshots

variable {config : Config} {contents : Contents}

theorem mem_snapshotRows {maps : Family → Table} {row : BatchMutation} :
    row ∈ snapshotRows maps ↔
      row.kind = .put ∧ ∃ value, row.value = some value ∧
      (maps row.family).lookup row.key = some value := by
  constructor
  · intro h
    obtain ⟨family, -, hrow⟩ := mem_flatMap.mp h
    obtain ⟨⟨key, value⟩, hentry, rfl⟩ := mem_map.mp hrow
    exact ⟨rfl, value, rfl, mem_lookup_iff.mpr hentry⟩
  · rintro ⟨hkind, value, hvalue, hlookup⟩
    refine mem_flatMap.mpr ⟨row.family, by cases row.family <;> decide, ?_⟩
    refine mem_map.mpr ⟨⟨row.key, value⟩, mem_lookup_iff.mp hlookup, ?_⟩
    rw [← hkind, ← hvalue]

theorem snapshotRows_shaped {maps : Family → Table} : ∀ row ∈ snapshotRows maps, row.Shaped := by
  intro row hrow
  obtain ⟨hkind, value, hvalue, -⟩ := mem_snapshotRows.mp hrow
  exact ⟨fun _ => by rw [hvalue]; rfl, fun _ => hkind⟩

theorem View.Fits.row (h : contents.view.Fits config) {row : BatchMutation}
    (hrow : row ∈ snapshotRows contents.maps) :
    (encodeMutation row).length ≤ config.maxRecordBytes := by
  obtain ⟨-, value, hvalue, hlookup⟩ := mem_snapshotRows.mp hrow
  rw [encodeMutation_length, hvalue, Option.getD_some]
  exact h row.family row.key value hlookup

theorem recordSize_of {mutation : BatchMutation} (hshaped : mutation.Shaped)
    (hfits : (encodeMutation mutation).length ≤ config.maxRecordBytes) :
    recordSize mutation.kind mutation.key (mutation.value.getD []) config.maxRecordBytes =
      .ok (frame (encodeMutation mutation)).length := by
  have hword := Nat.le_trans hfits config.recordFits
  rw [recordSize, checkedPayloadLen_of hshaped hfits hword]
  simp only
  rw [checkedAdd_some (by simp only [recordHeaderLen, usizeLimit, maxU32] at hword ⊢; omega),
    frame_length]

theorem recordSize_ok {mutation : BatchMutation} {size : Nat} (hshaped : mutation.Shaped)
    (h : recordSize mutation.kind mutation.key (mutation.value.getD []) config.maxRecordBytes =
      .ok size) :
    size = (frame (encodeMutation mutation)).length ∧
      (encodeMutation mutation).length ≤ config.maxRecordBytes := by
  unfold recordSize at h
  cases hlen : checkedPayloadLen mutation.kind mutation.key
    (mutation.value.getD []) config.maxRecordBytes with
  | error e => rw [hlen] at h; cases h
  | ok payloadLen =>
    obtain ⟨rfl, hfits⟩ := checkedPayloadLen_ok hshaped hlen
    rw [hlen] at h
    simp only at h
    cases hsum : checkedAdd recordHeaderLen (encodeMutation mutation).length with
    | none => rw [hsum] at h; cases h
    | some total =>
      rw [hsum] at h
      cases h
      exact ⟨by rw [checkedAdd_eq hsum, frame_length], hfits⟩

theorem encodeColdSnapshot_of (h : contents.view.Fits config) (coverage : SnapshotCoverage) :
    encodeColdSnapshot contents config.maxRecordBytes coverage =
      .ok (coldSnapshotBytes contents coverage) := by
  have hnone : (snapshotRows contents.maps).findSome? (rowRefusal config.maxRecordBytes) =
      none := by
    refine List.findSome?_eq_none_iff.mpr fun row hrow => ?_
    rw [rowRefusal, recordSize_of (snapshotRows_shaped row hrow) (h.row hrow)]
  rw [encodeColdSnapshot, hnone]

theorem replayFrom_rows {rows : List BatchMutation} (hshaped : ∀ row ∈ rows, row.Shaped)
    (hfits : ∀ row ∈ rows, (encodeMutation row).length ≤ config.maxRecordBytes) (offset : Nat)
    (more : Bytes) :
    ∃ offset', replayFrom config .snapshot offset
        (rows.flatMap (fun row => frame (encodeMutation row)) ++ more) contents =
      replayFrom config .snapshot offset' more (rows.foldl Contents.applyMutation contents) := by
  induction rows generalizing contents offset with
  | nil => exact ⟨offset, rfl⟩
  | cons row rest ih =>
    obtain ⟨hrow, hrows⟩ := forall_mem_cons.mp hshaped
    obtain ⟨hfirst, hrest⟩ := forall_mem_cons.mp hfits
    rw [flatMap_cons, append_assoc, replayFrom_row hrow hfirst]
    exact ih hrows hrest _

/-- The rows of a snapshot, written over empty tables, give the tables back. -/
theorem view_snapshotRows {start : Contents} (hstart : ∀ family, start.maps family = ∅) :
    ((snapshotRows contents.maps).foldl Contents.applyMutation start).view =
      ⟨contents.view.get, start.nextSeq⟩ := by
  rw [view_applyMutations snapshotRows_shaped]
  ext family key : 3
  · have hsame : ∀ row ∈ snapshotRows contents.maps, row.family = family → row.key = key →
        row.value = contents.view.get family key := by
      rintro row hrow rfl rfl
      obtain ⟨-, value, hvalue, hlookup⟩ := mem_snapshotRows.mp hrow
      rw [hvalue]
      exact hlookup.symm
    rw [foldl_write_get hsame]
    split
    · rfl
    rename_i hnone
    have hempty : start.view.get family key = none := by
      simp only [Contents.view, hstart, lookup_empty]
    rw [hempty]
    cases hget : contents.view.get family key with
    | none => rfl
    | some value =>
      refine absurd ⟨⟨family, .put, key, some value⟩, ?_, rfl, rfl⟩ hnone
      exact mem_snapshotRows.mpr ⟨rfl, value, rfl, hget⟩
  · exact foldl_write_nextSeq _ _

/-- Empty tables in front of the rows of a snapshot. -/
def Contents.cold (nextSeq : Nat) (required : Bool) : Contents :=
  ⟨Contents.init.maps, nextSeq, legacyWalEpoch, false, none, required⟩

theorem replayFrom_flag {required : Bool} (h : required = true → 2 ≤ config.maxRecordBytes)
    {nextSeq : Nat} (offset : Nat) (more : Bytes) :
    ∃ offset',
      replayFrom config .snapshot offset ((if required then encodeBatchGuard else []) ++ more)
        (Contents.cold nextSeq false) =
      replayFrom config .snapshot offset' more (Contents.cold nextSeq required) := by
  cases required with
  | false => exact ⟨offset, rfl⟩
  | true => exact ⟨_, replayFrom_guard (h rfl) .snapshot offset more⟩

/-- A snapshot reads back as what it was made of. -/
theorem replay_coldSnapshot {first second : CoverageSlot} (hview : contents.view.Fits config)
    (hseq : contents.nextSeq ≤ maxU64)
    (hguard : contents.batchFormatRequired = true → 2 ≤ config.maxRecordBytes)
    (hfirst : first.coveredLen ≤ maxU64) (hsecond : second.coveredLen ≤ maxU64) :
    ∃ read offset, replayFile config .snapshot
        (some (coldSnapshotBytes contents ⟨[first, second]⟩)) 0 .init = .ok (read, offset) ∧
      read.view = contents.view ∧ read.snapshotCoverage = some ⟨[first, second]⟩ ∧
      read.batchFormatRequired = contents.batchFormatRequired := by
  have hpos : (coldSnapshotBytes contents ⟨[first, second]⟩).length ≠ 0 := by
    rw [coldSnapshotBytes, length_append, frame_length, recordHeaderLen]
    omega
  obtain ⟨offset₁, hflag⟩ :=
    replayFrom_flag hguard (0 + (frame (nextSeqPayload contents.nextSeq)).length)
    ((snapshotRows contents.maps).flatMap (fun row => frame (encodeMutation row)) ++
      frame (snapshotCoveragePayload ⟨[first, second]⟩))
  obtain ⟨offset₂, hrows⟩ := @replayFrom_rows config
    (Contents.cold contents.nextSeq contents.batchFormatRequired) _ snapshotRows_shaped
    (fun row hrow => hview.row hrow) offset₁ (frame (snapshotCoveragePayload ⟨[first, second]⟩))
  have hrowsView :=
    @view_snapshotRows contents (Contents.cold contents.nextSeq contents.batchFormatRequired)
    fun _ => rfl
  rw [foldl_applyMutation snapshotRows_shaped] at hrows hrowsView
  have hcoverage := @replayFrom_coverage config
    { Contents.cold contents.nextSeq contents.batchFormatRequired with
      maps := (snapshotRows contents.maps).foldl editMaps (Contents.cold 0 false).maps }
    first second hfirst hsecond [] offset₂
  rw [append_nil] at hcoverage
  refine ⟨{ Contents.cold contents.nextSeq contents.batchFormatRequired with
      maps := (snapshotRows contents.maps).foldl editMaps (Contents.cold 0 false).maps
      snapshotCoverage := some ⟨[first, second]⟩ },
    offset₂ + (frame (snapshotCoveragePayload ⟨[first, second]⟩)).length, ?_, hrowsView, rfl, rfl⟩
  rw [replayFile, replaySource, if_neg hpos, if_neg (by simp), if_neg (by omega), drop_zero,
    replayLoop_eq _ _ (Nat.lt_succ_self _), coldSnapshotBytes, replayFrom_nextSeq hseq]
  exact hflag.trans (hrows.trans hcoverage)

end Snapshots

end OnyxServer.Store
