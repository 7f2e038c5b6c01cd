import OnyxServer.Store.Open

/-!
# Compaction

A compaction renames two files. Wherever it stops, the disk stands for the view it stood
for before: the two coverage slots of the new snapshot fit the old log and the new one.
-/
namespace OnyxServer.Store

open Lib

section Compaction

variable {blake3 : Bytes → Digest} {config : Config} {epochs : List Epoch} {engine : Engine}
    {view : View}
  {env : Env}

theorem Settled.durable (h : Settled blake3 config epochs engine view) :
    Durable blake3 config epochs engine.disk view := by
  obtain ⟨head, hepoch, hlaid⟩ := h.laid
  exact .laid hlaid torn_nil (hepoch ▸ h.known)

theorem Durable.mono {disk : Disk} {more : List Epoch} (h : Durable blake3 config epochs disk view)
    (hsub : ∀ epoch ∈ epochs, epoch ∈ more) : Durable blake3 config more disk view := by
  cases h with
  | laid layout torn known => exact .laid layout torn (hsub _ known)
  | fresh wal snapshot meaning => exact .fresh wal snapshot meaning
  | emptied wal seals old_epoch old_len snapshot meaning known =>
    exact .emptied wal seals old_epoch old_len snapshot meaning (hsub _ known)

section

variable (h : Settled blake3 config epochs engine view)
include h

theorem Settled.mono {more : List Epoch}
    (hsub : ∀ epoch ∈ epochs, epoch ∈ more) : Settled blake3 config more engine view :=
  { h with known := hsub _ h.known }

/-- The new snapshot beside the old log. -/
theorem Settled.between {next : Epoch} (hnext : next ∉ epochs) :
    Durable blake3 config (next :: epochs)
      { engine.disk with
        snapshot := some (coldSnapshotBytes engine.store.toContents
          (compactionCoverage blake3 engine.store (engine.disk.wal.getD []) next)) } view := by
  have hfresh : engine.store.walEpoch ≠ next := fun heq => hnext (heq ▸ h.known)
  have hseals := h.seals
  obtain ⟨head, hepoch, covered, live, base, anchor, hwal, hcovered, hlive, hroom, hmeaning,
    hseq⟩ := h.laid
  rw [List.append_nil] at hwal hroom
  have hbytes : engine.disk.wal.getD [] = head.bytes ++ chunkBytes (covered ++ live) := by
    rw [hwal, Option.getD_some, chunkBytes_append]
  have hoffset : engine.store.walOffset = (head.bytes ++ chunkBytes (covered ++ live)).length := by
    rw [← hbytes, h.offset]
  by_cases hempty : head.bytes ++ chunkBytes (covered ++ live) = []
  · have hold : CoverageSlot.coveredLen ⟨engine.store.walOffset, engine.store.walEpoch,
        blake3 (engine.disk.wal.getD [])⟩ = 0 := by
      rw [hoffset, hempty]
      rfl
    exact .emptied (hbytes.trans hempty) hseals hfresh hold rfl h.shows.symm List.mem_cons_self
  have hknown : head.walEpoch ∈ next :: epochs := List.mem_cons_of_mem _ (hepoch ▸ h.known)
  refine .laid ?_ torn_nil hknown
  refine ⟨covered ++ live, [], engine.store.toContents, ?_, ?_, ?_, by simp, ?_, h.shows, hseq⟩
  · rw [compactionCoverage, hbytes, hoffset, hepoch]
    exact .before hseals hempty (freshSlot_le blake3 next)
  · rw [hwal, chunkBytes_append]
    simp [chunkBytes]
  · intro chunk hchunk
    rcases List.mem_append.mp hchunk with hchunk | hchunk
    · exact hcovered chunk hchunk
    · exact hlive chunk hchunk
  · rw [chunkBytes_append]
    simpa [chunkBytes] using hroom

/-- The new snapshot beside the new log. -/
theorem Settled.replaced {next : Epoch} (hnext : next ∉ epochs) :
    Laid blake3 config
      ⟨some (coldEpoch next), some (coldSnapshotBytes engine.store.toContents
        (compactionCoverage blake3 engine.store (engine.disk.wal.getD []) next))⟩ (.headed next)
          [] view := by
  have hfresh : engine.store.walEpoch ≠ next := fun heq => hnext (heq ▸ h.known)
  have hlen : CoverageSlot.coveredLen ⟨engine.store.walOffset, engine.store.walEpoch,
      blake3 (engine.disk.wal.getD [])⟩ ≤ maxU64 := by
    change engine.store.walOffset ≤ maxU64
    obtain ⟨head, hepoch, covered, live, base, anchor, hwal, hcovered, hlive, hroom, hmeaning,
      hseq⟩ := h.laid
    rw [← h.offset, hwal, Option.getD_some]
    exact Nat.le_trans hroom config.walFits
  have hseq : view.nextSeq ≤ maxU64 := by rw [← h.shows]; exact h.seals.seq
  refine ⟨[], [], engine.store.toContents, ?_, ?_, by simp, by simp, ?_, h.shows, hseq⟩
  · exact .after h.seals hfresh hlen
  · simp [Head.bytes, chunkBytes]
  · simpa [Head.bytes, chunkBytes, coldEpoch_length] using config.epochFits

end

/-- What a compaction can do to a store in step with its disk. -/
inductive Compacted (blake3 : Bytes → Digest) (config : Config) (epochs : List Epoch) (env : Env)
    (engine : Engine) (view : View) : Except StoreError Unit × Engine → Prop where
  | done {coverage : SnapshotCoverage} {disk : Disk}
      (settled : Settled blake3 config (env.nextEpoch :: epochs)
        ⟨engine.store.adoptEpoch env.nextEpoch coverage, disk⟩ view) :
      Compacted blake3 config epochs env engine view
        (.ok (), ⟨engine.store.adoptEpoch env.nextEpoch coverage, disk⟩)
  | refused (e : StoreError) (fault : env.ensureWalFails = true ∨ env.compaction ≠ .none) :
      Compacted blake3 config epochs env engine view (.error e, engine)
  | ambiguous {disk : Disk} (fault : env.compaction ≠ .none)
      (durable : Durable blake3 config (env.nextEpoch :: epochs) disk view) :
      Compacted blake3 config epochs env engine view
        (.error .ioAmbiguous, ⟨engine.store.poisonPreparedStore, disk⟩)

theorem Settled.compact (h : Settled blake3 config epochs engine view) (hidle : engine.store.Idle)
    (hnext : env.nextEpoch ∉ epochs) :
    Compacted blake3 config epochs env engine view (snapshotAndReplaceEpoch blake3 env engine) := by
  have hencode := encodeColdSnapshot_of h.seals.fits
    (compactionCoverage blake3 engine.store (engine.disk.wal.getD []) env.nextEpoch)
  rw [← h.config_eq] at hencode
  have hactive :
      ¬ (engine.store.activePrepared.isSome = true ∨ engine.store.activeBatch.isSome = true) := by
    rw [hidle.prepared, hidle.batch]
    simp
  simp only [snapshotAndReplaceEpoch, h.writable, h.sound, hactive, h.offset, hencode,
    Bool.false_eq_true, ne_eq, not_true_eq_false, ↓reduceIte]
  cases hensure : env.ensureWalFails with
  | true =>
    rw [if_pos rfl]
    exact .refused _ (Or.inl hensure)
  | false =>
    rw [if_neg (by simp)]
    cases hfault : env.compaction with
    | before e => exact .refused e (Or.inr (by rw [hfault]; simp))
    | none =>
      refine .done ⟨h.config_eq, h.writable, h.sound, h.shows,
        ⟨h.seals.fits, h.seals.seq, h.seals.guard⟩,
        coldEpoch_length _, List.mem_cons_self, .headed env.nextEpoch, rfl, h.replaced hnext⟩
    | cut installed =>
      have hne : env.compaction ≠ .none := by rw [hfault]; simp
      cases installed with
      | nothing =>
          exact .ambiguous hne (h.durable.mono fun epoch hmem => List.mem_cons_of_mem _ hmem)
      | snapshot => exact .ambiguous hne (h.between hnext)
      | both => exact .ambiguous hne (.laid (h.replaced hnext) torn_nil List.mem_cons_self)

end Compaction

end OnyxServer.Store
