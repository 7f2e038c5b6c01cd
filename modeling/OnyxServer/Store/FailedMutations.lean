import OnyxServer.Store.CrashSafety

/-!
# Failed mutations

A call that fails has changed nothing a client sees, and its token is spent. From the
write on, a failure also poisons the store: what the disk holds is known again only after
the store has been opened anew.
-/
namespace OnyxServer.Store

open Lib List

def Call.allocations (store : OroStore) : Call → List Allocation
  | .single mutation _ => singleAllocations store mutation
  | .batch mutations => batchAllocations store mutations

/-- The log is compacted before the record is admitted. -/
def CompactionDue (config : Config) (store : OroStore) (call : Call) : Prop :=
  config.maxWalBytes / 2 ≤ store.walOffset + call.record.length

/-- Something fails on the way of a call. -/
inductive Faulty (config : Config) (store : OroStore) (env : Env) (call : Call) : Prop where
  | allocation (which : Allocation) (needed : which ∈ call.allocations store)
      (fails : env.allocates which = false)
  | size (large : ¬ call.Fits config)
  | room (due : CompactionDue config store call)
      (large : config.maxWalBytes < coldEpochRecordLen + call.record.length)
  | file (fails : env.ensureWalFails = true)
  | compaction (due : CompactionDue config store call) (fails : env.compaction ≠ .none)
  | write (written : Nat) (short : env.write = .short written)
  | sync (fails : env.syncFails = true)

/-- The process does not end in the run. -/
def RestartFree (inputs : List (Op × Env)) : Prop :=
  ∀ input ∈ inputs, ∀ readOnly, input.1 ≠ .restart readOnly

section Admission

variable {blake3 : Bytes → Digest} {config : Config} {engine : Engine} {env : Env}

theorem snapshotAndReplaceEpoch_ok (hok : (snapshotAndReplaceEpoch blake3 env engine).1 = .ok ()) :
    env.compaction = .none ∧ ∃ coverage, (snapshotAndReplaceEpoch blake3 env engine).2.store =
      engine.store.adoptEpoch env.nextEpoch coverage := by
  simp only [snapshotAndReplaceEpoch] at hok ⊢
  split_ifs at hok with hreadOnly hpoisoned hactive hensure hlength
  rw [if_neg hreadOnly, if_neg hpoisoned, if_neg hactive, if_neg hensure, if_neg hlength]
  split at hok
  · cases hok
  rename_i snapshot hencode
  cases hfault : env.compaction with
  | none => exact ⟨rfl, _, rfl⟩
  | before e =>
    rw [hfault] at hok
    cases hok
  | cut installed =>
    rw [hfault] at hok
    cases installed <;> cases hok

/-- What has held when a record was admitted to the log. -/
structure Admits (env : Env) (recordLen : Nat) (before after : OroStore) : Prop where
  file : env.ensureWalFails = false
  kept : Kept before after
  compaction : before.config.maxWalBytes / 2 ≤ before.walOffset + recordLen →
    env.compaction = .none ∧ coldEpochRecordLen + recordLen ≤ before.config.maxWalBytes

theorem preflight_ok {recordLen final : Nat}
    (hok : (preflightWalForRecord blake3 env recordLen engine).1 = .ok final) :
    Admits env recordLen engine.store
      (preflightWalForRecord blake3 env recordLen engine).2.store := by
  simp only [preflightWalForRecord] at hok ⊢
  split_ifs at hok with hlong hensure
  rw [if_neg hlong, if_neg hensure]
  have hfile : env.ensureWalFails = false := by simpa using hensure
  cases hsum : checkedAdd engine.store.walOffset recordLen with
  | none =>
    rw [hsum] at hok
    cases hok
  | some projected =>
    rw [hsum] at hok
    obtain rfl := checkedAdd_eq hsum
    simp only at hok ⊢
    by_cases hdue : engine.store.config.maxWalBytes < engine.store.walOffset + recordLen ∨
        engine.store.config.maxWalBytes / 2 ≤ engine.store.walOffset + recordLen
    · rw [if_pos hdue] at hok ⊢
      have hcompaction := @snapshotAndReplaceEpoch_ok blake3 engine env
      generalize snapshotAndReplaceEpoch blake3 env engine = outcome at hok hcompaction ⊢
      obtain ⟨answer, after⟩ := outcome
      cases answer with
      | error e => cases hok
      | ok answered =>
        obtain ⟨hnone, coverage, hstore⟩ := hcompaction rfl
        simp only at hok hstore ⊢
        cases hagain : checkedAdd after.store.walOffset recordLen with
        | none =>
          rw [hagain] at hok
          cases hok
        | some projected =>
          rw [hagain] at hok
          obtain rfl := checkedAdd_eq hagain
          simp only at hok ⊢
          split_ifs at hok with hroom
          rw [if_neg hroom]
          refine ⟨hfile, ?_, fun _ => ⟨hnone, ?_⟩⟩
          · rw [hstore]
            exact ⟨rfl, rfl, rfl⟩
          · rw [hstore] at hroom
            exact Nat.not_lt.mp hroom
    · rw [if_neg hdue]
      exact ⟨hfile, .rfl, fun hlate => absurd (Or.inr hlate) hdue⟩

theorem Kept.allocations {before after : OroStore} (h : Kept before after) (call : Call) :
    call.allocations after = call.allocations before := by
  cases call with
  | single mutation shaped => simp only [Call.allocations, singleAllocations, h.maps, h.changefeed]
  | batch mutations => simp only [Call.allocations, batchAllocations, h.changefeed]

/-- What has held when a call was prepared. -/
theorem prepare_passed {call : Call} {token : Token}
    (hok : (call.prepare blake3 env engine).1 = .ok token) :
    env.ensureWalFails = false ∧
    (∀ which ∈ call.allocations engine.store, env.allocates which = true) ∧
      (engine.store.config.maxWalBytes / 2 ≤ engine.store.walOffset + call.record.length →
        env.compaction = .none ∧ coldEpochRecordLen + call.record.length ≤
          engine.store.config.maxWalBytes) := by
  cases call with
  | single mutation shaped =>
    simp only [Call.prepare, prepareMutation] at hok
    iterate 5 (split at hok; cases hok)
    split at hok
    · cases hok
    rename_i recordLen hsize
    obtain ⟨rfl, -⟩ := recordSize_ok shaped hsize
    split_ifs at hok
    have hadmits := @preflight_ok blake3 engine env (frame (encodeMutation mutation)).length
    generalize preflightWalForRecord blake3 env (frame (encodeMutation mutation)).length engine =
      outcome at hok hadmits
    obtain ⟨answer, after⟩ := outcome
    cases answer with
    | error e => cases hok
    | ok final =>
      have hadmitted := hadmits rfl
      simp only [reserveMutation] at hok
      split_ifs at hok with hall
      refine ⟨hadmitted.file, ?_, hadmitted.compaction⟩
      rw [← hadmitted.kept.allocations]
      exact all_eq_true.mp hall
  | batch mutations =>
    simp only [Call.prepare, prepareBatch] at hok
    iterate 4 (split at hok; cases hok)
    split at hok
    · cases hok
    rename_i payloadLen hsize
    obtain ⟨rfl, -⟩ := batchPayloadLen_ok hsize
    split at hok
    · cases hok
    split at hok
    · cases hok
    rename_i recordLen hlen
    obtain rfl : recordLen = (encodeBatchGuard ++ frame (encodeBatch mutations)).length := by
      rw [checkedAdd_eq hlen, length_append, frame_length]
      omega
    split_ifs at hok
    have hadmits := @preflight_ok blake3 engine env
      (encodeBatchGuard ++ frame (encodeBatch mutations)).length
    generalize preflightWalForRecord blake3 env
      (encodeBatchGuard ++ frame (encodeBatch mutations)).length engine = outcome at hok hadmits
    obtain ⟨answer, after⟩ := outcome
    cases answer with
    | error e => cases hok
    | ok final =>
      have hadmitted := hadmits rfl
      simp only [prepareBatchAt] at hok
      split_ifs at hok with hall
      refine ⟨hadmitted.file, ?_, hadmitted.compaction⟩
      rw [← hadmitted.kept.allocations]
      exact all_eq_true.mp hall

end Admission

/-! ## What a call that fails leaves -/

section Failure

variable {blake3 : Bytes → Digest} {config : Config} {epochs : List Epoch} {view : View}
    {disk : Disk}
  {store : OroStore} {env : Env} {call : Call} {token : Token} {machine : Machine}
    {inputs : List (Op × Env)}

theorem Kept.poisoned : Kept store store.poisonPreparedStore := ⟨Eq.refl _, Eq.refl _, Eq.refl _⟩

/-- What a call can do. The last case is a failure at the write or behind it. -/
inductive Performed (blake3 : Bytes → Digest) (env : Env) (call : Call) (engine : Engine) :
    Except StoreError Unit × Engine → Prop where
  | published {after : Engine} (write : env.write = .none) (sync : env.syncFails = false) :
      Performed blake3 env call engine (.ok (), after)
  | unprepared {after : Engine} (e e' : StoreError) (prepared : (call.prepare blake3 env engine).1 =
      .error e')
      (kept : Kept engine.store after.store)
      (generation : engine.store.nextPreparedGeneration ≤ after.store.nextPreparedGeneration)
      (tokens : after.store.Idle ∨ after = engine) : Performed blake3 env call engine
        (.error e, after)
  | unwritten {before : OroStore} {disk : Disk} (kept : Kept engine.store before)
      (generation : engine.store.nextPreparedGeneration ≤ before.nextPreparedGeneration)
      (writable : before.stagedReadOnly = false) :
      Performed blake3 env call engine (.error .ioAmbiguous, ⟨before.poisonPreparedStore, disk⟩)

section

variable (h : Machine.Inv blake3 config epochs view ⟨some store, disk⟩)
    (hnext : env.nextEpoch ∉ epochs)
include h hnext

theorem Machine.Inv.performed :
    Performed blake3 env call ⟨store, disk⟩ (call.perform blake3 env ⟨store, disk⟩) := by
  rcases h.prepare_cases hnext call with ⟨e, he⟩ | ⟨-, hprepared⟩
  · rw [Call.perform, he]
    exact .unprepared e e (by rw [he]) .rfl (Nat.le_refl _) (Or.inr rfl)
  rw [Call.perform]
  generalize hprepare : call.prepare blake3 env ⟨store, disk⟩ = outcome at hprepared
  cases hprepared with
  | refused e settled' idle kept generation =>
    exact .unprepared e e (by rw [hprepare]) kept generation (Or.inl idle)
  | ambiguous durable =>
    exact .unprepared _ _ (by rw [hprepare]) .poisoned (Nat.le_refl _) (Or.inl ⟨rfl, rfl⟩)
  | @reserved token after settled' holds kept issued generation =>
    obtain ⟨published, hp, hcommit⟩ := holds.commit settled' env
    have hspent : ∀ disk', token.abort ⟨after.store.poisonPreparedStore, disk'⟩ =
        ⟨after.store.poisonPreparedStore, disk'⟩ :=
      fun disk' => @OroStore.Idle.abort ⟨after.store.poisonPreparedStore, disk'⟩ ⟨rfl, rfl⟩ token
    simp only [hcommit]
    cases hwrite : env.write with
    | short n =>
      simp only [hspent]
      exact .unwritten kept generation settled'.writable
    | none =>
      cases hsync : env.syncFails with
      | true =>
        simp only [hspent, ↓reduceIte]
        exact .unwritten kept generation settled'.writable
      | false => exact .published hwrite hsync

theorem Machine.Inv.perform :
    ∃ view', Machine.Inv blake3 config (env.nextEpoch :: epochs) view'
      ⟨some (call.perform blake3 env ⟨store, disk⟩).2.store,
        (call.perform blake3 env ⟨store, disk⟩).2.disk⟩ := by
  have hprepared := h.prepare hnext call
  rw [Call.perform]
  generalize call.prepare blake3 env ⟨store, disk⟩ = outcome at hprepared
  obtain ⟨answer, store', disk'⟩ := outcome
  cases answer with
  | error e => exact ⟨view, hprepared⟩
  | ok token =>
    exact ⟨_, (@Machine.Inv.commit blake3 config _ _ store' disk' env hprepared token).abort token⟩

end

/-- A token issued before and not held stays so. -/
structure Follows (before after : OroStore) : Prop where
  generation : before.nextPreparedGeneration ≤ after.nextPreparedGeneration
  spent : ∀ token, token.generation < before.nextPreparedGeneration → before.reserved token = none →
    after.reserved token = none

theorem Follows.rfl : Follows store store := ⟨Nat.le_refl _, fun _ _ h => h⟩

theorem Follows.idle {after : OroStore}
    (hgeneration : store.nextPreparedGeneration ≤ after.nextPreparedGeneration)
    (hidle : after.Idle) : Follows store after :=
  ⟨hgeneration, fun token _ _ => hidle.reserved token⟩

section

variable (h : Machine.Inv blake3 config epochs view ⟨some store, disk⟩)
include h

theorem Machine.Inv.follows_prepare (hnext : env.nextEpoch ∉ epochs) (call : Call) :
    Follows store (call.prepare blake3 env ⟨store, disk⟩).2.store := by
  rcases h.prepare_cases hnext call with ⟨e, he⟩ | ⟨-, hprepared⟩
  · rw [he]
    exact .rfl
  generalize call.prepare blake3 env ⟨store, disk⟩ = outcome at hprepared
  cases hprepared with
  | refused e settled' idle kept generation => exact .idle generation idle
  | ambiguous durable => exact .idle (Nat.le_refl _) ⟨rfl, rfl⟩
  | @reserved fresh after settled' holds kept issued generation =>
    refine ⟨generation, fun token hissued hnone => holds.reserved_stale ?_⟩
    rintro rfl
    exact Nat.lt_irrefl _ (issued ▸ hissued)

theorem Machine.Inv.follows_commit
    (token : Token) : Follows store (token.commit env ⟨store, disk⟩).2.store := by
  rcases h.token_cases token with ⟨-, hstale, -⟩ | ⟨settled, call, hholds⟩
  · rw [hstale]
    exact .rfl
  obtain ⟨after, hp, hcommit⟩ :=
    @Holds.commit blake3 config epochs ⟨store, disk⟩ view token call hholds settled env
  rw [hcommit]
  cases env.write with
  | short n => exact .idle (Nat.le_refl _) ⟨rfl, rfl⟩
  | none =>
    cases env.syncFails with
    | true => exact .idle (Nat.le_refl _) ⟨rfl, rfl⟩
    | false => exact .idle (Nat.le_of_eq hp.generation.symm) hp.idle

theorem Machine.Inv.follows_abort (token : Token) :
    Follows store (token.abort ⟨store, disk⟩).store := by
  rcases h.token_cases token with ⟨-, -, hstale⟩ | ⟨-, call, hholds⟩
  · rw [hstale]
    exact .rfl
  · rw [@Holds.abort config ⟨store, disk⟩ token call hholds]
    exact .idle (Nat.le_refl _) ⟨rfl, rfl⟩

end

/-- A compaction that fails leaves the store or poisons it. -/
theorem follows_compact :
    Follows store (snapshotAndReplaceEpoch blake3 env ⟨store, disk⟩).2.store := by
  simp only [snapshotAndReplaceEpoch]
  split_ifs with hreadOnly hpoisoned hactive
  · exact .rfl
  · exact .rfl
  · exact .rfl
  · exact .rfl
  · exact .rfl
  · have hidle : store.Idle := by
      constructor
      · simpa using fun h => hactive (Or.inl h)
      · simpa using fun h => hactive (Or.inr h)
    split
    · exact .rfl
    cases env.compaction with
    | none => exact .idle (Nat.le_refl _) ⟨hidle.prepared, hidle.batch⟩
    | before e => exact .rfl
    | cut installed => cases installed <;> exact .idle (Nat.le_refl _) ⟨rfl, rfl⟩

section

variable (h : Machine.Inv blake3 config epochs view ⟨some store, disk⟩)
include h

theorem step_follows {input : Op × Env}
    (hfresh : (epochs ++ draws input).Nodup) (hopen : ∀ readOnly, input.1 ≠ .restart readOnly) :
    ∃ after, (step blake3 config ⟨some store, disk⟩ input).2.store = some after ∧
    Follows store after := by
  obtain ⟨op, env⟩ := input
  cases op with
  | restart readOnly => exact absurd rfl (hopen readOnly)
  | prepare call =>
    have hnext : env.nextEpoch ∉ epochs := by
      simp only [draws, nodup_append] at hfresh
      grind
    exact ⟨_, rfl, h.follows_prepare hnext call⟩
  | commit token => exact ⟨_, rfl, h.follows_commit token⟩
  | abort token => exact ⟨_, rfl, h.follows_abort token⟩
  | compact => exact ⟨_, rfl, follows_compact⟩

/-- A spent token is answered as such. -/
theorem Machine.Inv.spent (hnone : store.reserved token = none) :
    token.commit env ⟨store, disk⟩ = (.error .preparedAlreadyConsumed, ⟨store, disk⟩) := by
  cases h with
  | refusing durable refuses idle => exact @OroStore.Idle.stale ⟨store, disk⟩ idle token env
  | writable settled reservation =>
    rcases reservation with hidle | ⟨held, heldCall, hholds⟩
    · exact @OroStore.Idle.stale ⟨store, disk⟩ hidle token env
    refine @Holds.stale config ⟨store, disk⟩ held heldCall hholds token ?_ env
    rintro rfl
    rw [hholds.reserved] at hnone
    cases hnone

/-- Along a run of one process spent tokens stay spent. -/
theorem run_spent (hfresh : (epochs ++ inputs.flatMap draws).Nodup) (hopen : RestartFree inputs)
    (hissued : token.generation < store.nextPreparedGeneration)
    (hnone : store.reserved token = none) :
    ∀ v ∈ visits (step blake3 config) ⟨some store, disk⟩ inputs, ∀ env, v.input =
      (.commit token, env) →
      v.output = .done (.error .preparedAlreadyConsumed) ∧ v.after = v.before := by
  induction inputs generalizing store disk epochs view with
  | nil => intro v hv; cases hv
  | cons input rest ih =>
    intro v hv env hinput
    rcases mem_cons.mp hv with rfl | hv
    · obtain rfl : input = (.commit token, env) := hinput
      have hstale := @Machine.Inv.spent blake3 config epochs view disk store env token h hnone
      simp only [step, hstale]
      exact ⟨trivial, trivial⟩
    rw [flatMap_cons, ← append_assoc] at hfresh
    have hleft := List.Nodup.of_append_left hfresh
    obtain ⟨after, hafter, hfollows⟩ := step_follows h hleft (hopen input mem_cons_self)
    have hinv := step_inv h hleft
    generalize (step blake3 config ⟨some store, disk⟩ input) = outcome at hv hafter hinv
    obtain ⟨answer, opened, disk'⟩ := outcome
    obtain rfl : opened = some after := hafter
    exact ih hinv hfresh (fun other hother => hopen other (mem_cons_of_mem _ hother))
      (Nat.lt_of_lt_of_le hissued hfollows.generation)
        (hfollows.spent token hissued hnone) v hv env hinput

end

theorem poisoned_prepare {engine : Engine} (hpoisoned : engine.store.preparedPoisoned = true)
    (hwritable : engine.store.stagedReadOnly = false) (call : Call) :
    call.prepare blake3 env engine = (.error .storePoisoned, engine) := by
  cases call with
  | single mutation shaped =>
    simp only [Call.prepare, prepareMutation, hwritable, hpoisoned, Bool.false_eq_true, ↓reduceIte]
  | batch mutations =>
    simp only [Call.prepare, prepareBatch, hwritable, hpoisoned, Bool.false_eq_true, ↓reduceIte]

theorem poisoned_step {input : Op × Env} (hpoisoned : store.preparedPoisoned = true)
    (hwritable : store.stagedReadOnly = false) (hidle : store.Idle)
    (hopen : ∀ readOnly, input.1 ≠ .restart readOnly) :
    (step blake3 config ⟨some store, disk⟩ input).2 = ⟨some store, disk⟩ := by
  obtain ⟨op, env⟩ := input
  cases op with
  | restart readOnly => exact absurd rfl (hopen readOnly)
  | prepare call =>
    have hrefused := @poisoned_prepare blake3 env ⟨store, disk⟩ hpoisoned hwritable call
    simp only [step, hrefused]
  | commit token =>
    have hstale := @OroStore.Idle.stale ⟨store, disk⟩ hidle token env
    simp only [step, hstale]
  | abort token =>
    have hnothing := @OroStore.Idle.abort ⟨store, disk⟩ hidle token
    simp only [step, hnothing]
  | compact =>
    obtain ⟨e, he⟩ := @refuses_compact blake3 env ⟨store, disk⟩ (Or.inl ⟨hpoisoned, hwritable⟩)
    simp only [step, he]

/-- A poisoned store takes no mutation until it is opened again. -/
theorem run_poisoned (hpoisoned : store.preparedPoisoned = true)
    (hwritable : store.stagedReadOnly = false) (hidle : store.Idle) (hopen : RestartFree inputs) :
    ∀ v ∈ visits (step blake3 config) ⟨some store, disk⟩ inputs, ∀ call env, v.input =
      (.prepare call, env) →
      v.output = .prepared (.error .storePoisoned) ∧ v.after = v.before := by
  induction inputs with
  | nil => intro v hv; cases hv
  | cons input rest ih =>
    intro v hv call env hinput
    have hsame := @poisoned_step blake3 config disk store input hpoisoned hwritable hidle
      (hopen input mem_cons_self)
    rcases mem_cons.mp hv with rfl | hv
    · obtain rfl : input = (.prepare call, env) := hinput
      have hrefused := @poisoned_prepare blake3 env ⟨store, disk⟩ hpoisoned hwritable call
      simp only [step, hrefused]
      exact ⟨trivial, trivial⟩
    · rw [hsame] at hv
      exact ih (fun other hother => hopen other (mem_cons_of_mem _ hother)) v hv call env hinput

/-- A preparation succeeds on a store that may be written to, with a call that fits. -/
theorem Machine.Inv.prepared (h : Machine.Inv blake3 config epochs view ⟨some store, disk⟩)
    (hnext : env.nextEpoch ∉ epochs) (hok : (call.prepare blake3 env ⟨store, disk⟩).1 = .ok token) :
    store.config = config ∧ call.Fits config := by
  have hreserved := (h.prepare_ok hnext hok).1
  have hholds := ((h.prepare hnext call).holds hreserved).2
  refine ⟨?_, hholds.fits⟩
  rcases h.prepare_cases hnext call with ⟨e, he⟩ | ⟨settled, -⟩
  · rw [he] at hok
    cases hok
  · exact settled.config_eq

theorem perform_ok {engine : Engine} (hok : (call.perform blake3 env engine).1 = .ok ()) :
    ∃ token, (call.prepare blake3 env engine).1 = .ok token := by
  rw [Call.perform] at hok
  generalize call.prepare blake3 env engine = outcome at hok
  obtain ⟨answer, after⟩ := outcome
  cases answer with
  | error e => cases hok
  | ok token => exact ⟨token, rfl⟩

theorem Machine.Inv.perform_faulty (h : Machine.Inv blake3 config epochs view ⟨some store, disk⟩)
    (hnext : env.nextEpoch ∉ epochs) (hfaulty : Faulty config store env call) :
    ∃ e, (call.perform blake3 env ⟨store, disk⟩).1 = .error e := by
  cases hanswer : (call.perform blake3 env ⟨store, disk⟩).1 with
  | error e => exact ⟨e, rfl⟩
  | ok answered =>
    obtain ⟨token, hok⟩ := perform_ok hanswer
    obtain ⟨hfile, hallocates, hcompacts⟩ := prepare_passed hok
    obtain ⟨rfl, hfits⟩ := h.prepared hnext hok
    have hperformed :=
      @Machine.Inv.performed blake3 store.config epochs view disk store env call h hnext
    generalize call.perform blake3 env ⟨store, disk⟩ = outcome at hanswer hperformed
    cases hperformed with
    | unprepared e e' prepared =>
      rw [hok] at prepared
      cases prepared
    | unwritten => cases hanswer
    | published write sync =>
      exfalso
      cases hfaulty with
      | allocation which needed fails => simp [hallocates which needed] at fails
      | size large => exact large hfits
      | room due large => exact Nat.not_le.mpr large (hcompacts due).2
      | file fails => simp [hfile] at fails
      | compaction due fails => exact fails (hcompacts due).1
      | write written short => simp [write] at short
      | sync fails => simp [sync] at fails

/-- A call that fails, at whatever point, publishes nothing: the rows, the sequence number
and the change feed are those before it, no token that is not held from before publishes
anything for as long as the process runs, and if the call got as far as its write the store
takes no mutation until it is opened again. -/
theorem failed_mutation_publishes_nothing (blake3 : Bytes → Digest)
    (hinitial : Initial config disk view)
    (inputs : List (Op × Env)) (call : Call) (env : Env) {machine : Machine} {store : OroStore}
    (hmachine : final (step blake3 config) ⟨none, disk⟩ inputs = machine)
    (hstore : machine.store = some store)
    (hfree : CollisionFree (inputs ++ [(.prepare call, env)])) :
    (Faulty config store env call → ∃ e, (call.perform blake3 env ⟨store, machine.disk⟩).1 =
      .error e) ∧
    ∀ e after, call.perform blake3 env ⟨store, machine.disk⟩ = (.error e, after) →
      Kept store after.store ∧
      (∀ token later, token.generation < after.store.nextPreparedGeneration →
        store.reserved token = none →
        RestartFree later → CollisionFree (inputs ++ [(.prepare call, env)] ++ later) →
        ∀ v ∈ visits (step blake3 config) ⟨some after.store, after.disk⟩ later, ∀ env',
          v.input = (.commit token, env') →
            v.output = .done (.error .preparedAlreadyConsumed) ∧ v.after = v.before) ∧
      (∀ token later, (call.prepare blake3 env ⟨store, machine.disk⟩).1 = .ok token →
        RestartFree later → after.store.preparedPoisoned = true ∧
        ∀ v ∈ visits (step blake3 config) ⟨some after.store, after.disk⟩ later, ∀ call' env',
          v.input = (.prepare call', env') →
            v.output = .prepared (.error .storePoisoned) ∧ v.after = v.before) := by
  have hinv := @reachable_inv blake3 config disk view inputs hinitial hfree.left
  rw [hmachine] at hinv
  obtain ⟨opened, disk⟩ := machine
  obtain rfl : opened = some store := hstore
  refine ⟨hinv.perform_faulty hfree.prepares, ?_⟩
  intro e after hperform
  obtain ⟨view', hafter⟩ :=
    @Machine.Inv.perform blake3 config _ _ disk store env call hinv hfree.prepares
  have hperformed :=
    @Machine.Inv.performed blake3 config _ _ disk store env call hinv hfree.prepares
  rw [hperform] at hperformed hafter
  have htokens : ∀ token, store.reserved token = none → after.store.reserved token = none := by
    intro token hnone
    cases hperformed with
    | unprepared e e' prepared kept generation tokens =>
      rcases tokens with hidle | rfl
      · exact hidle.reserved token
      · exact hnone
    | unwritten => exact OroStore.Idle.reserved ⟨rfl, rfl⟩ token
  refine ⟨?_, ?_, ?_⟩
  · cases hperformed with
    | unprepared e e' prepared kept => exact kept
    | unwritten kept => exact kept.trans .poisoned
  · intro token later hissued hnone hopen hlater
    rw [CollisionFree, flatMap_append, ← cons_append] at hlater
    refine run_spent (hafter.mono fun epoch hmem => ?_) hlater hopen hissued (htokens token hnone)
    simp only [flatMap_append, flatMap_cons, flatMap_nil, draws, mem_cons, mem_append] at hmem ⊢
    tauto
  · intro token later hok hopen
    cases hperformed with
    | unprepared e e' prepared =>
      rw [hok] at prepared
      cases prepared
    | unwritten kept generation writable =>
      exact ⟨rfl, run_poisoned rfl writable ⟨rfl, rfl⟩ hopen⟩

/-- The first write of a new store stops after five octets. -/
theorem failed_mutation_publishes_nothing_short_write :
    ∃ machine store after,
      final (step sampleDigest sampleConfig) ⟨none, ⟨none, none⟩⟩
        [(.restart false, sampleEnv 1 2)] = machine ∧
      machine.store = some store ∧
      samplePut.perform sampleDigest { sampleEnv 3 4 with write := .short 5 }
        ⟨store, machine.disk⟩ =
        (.error .ioAmbiguous, after) ∧
      Kept store after.store ∧ after.store.preparedPoisoned = true := by
  have hfree : CollisionFree ([(.restart false, sampleEnv 1 2)] ++
      [(.prepare samplePut, { sampleEnv 3 4 with write := .short 5 })]) := by
    unfold CollisionFree
    decide
  obtain ⟨-, hfails⟩ := failed_mutation_publishes_nothing sampleDigest (@Initial.fresh sampleConfig)
    [(.restart false, sampleEnv 1 2)] samplePut _ rfl rfl hfree
  obtain ⟨hkept, -, hpoisoned⟩ := hfails .ioAmbiguous _ rfl
  exact ⟨_, _, _, rfl, rfl, rfl, hkept, (hpoisoned ⟨false, 1⟩ [] rfl (by simp [RestartFree])).1⟩

end Failure

end OnyxServer.Store
