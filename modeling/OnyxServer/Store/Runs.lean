import OnyxServer.Lib.Trace
import OnyxServer.Store.Reservation

/-!
# Runs of a store

The machine is a disk and the store opened on it, if one is open. A step is one call with
its environment, and every step may fail in it. A crash is a step that fails followed by a
restart: what a process that stops leaves behind is what the failed step left on the disk.
-/
namespace OnyxServer.Store

open Lib List

structure Machine where
  store : Option OroStore
  disk : Disk

inductive Op where
  | prepare (call : Call)
  | commit (token : Token)
  | abort (token : Token)
  | compact
  /-- The process ends and the store is opened again. -/
  | restart (readOnly : Bool)

inductive Answer where
  | prepared (result : Except StoreError Token)
  | done (result : Except StoreError Unit)
  | closed

/-- The epochs a step may draw. -/
def draws : Op × Env → List Epoch
  | (.prepare _, env) | (.compact, env) => [env.nextEpoch]
  | (.restart _, env) => [env.emptyEpoch, env.nextEpoch]
  | _ => []

/-- No epoch is drawn twice, and none is the epoch of logs without one. -/
def CollisionFree (inputs : List (Op × Env)) : Prop :=
  (legacyWalEpoch :: inputs.flatMap draws).Nodup

section Machine

variable (blake3 : Bytes → Digest) (config : Config)

def step (machine : Machine) (input : Op × Env) : Answer × Machine :=
  match input, machine.store with
  | (.restart readOnly, env), _ =>
    let outcome := openImpl blake3 config readOnly env machine.disk
    (.done (outcome.1.map fun _ => ()), ⟨outcome.1.toOption, outcome.2⟩)
  | _, none => (.closed, machine)
  | (.prepare call, env), some store =>
    let outcome := call.prepare blake3 env ⟨store, machine.disk⟩
    (.prepared outcome.1, ⟨some outcome.2.store, outcome.2.disk⟩)
  | (.commit token, env), some store =>
    let outcome := token.commit env ⟨store, machine.disk⟩
    (.done outcome.1, ⟨some outcome.2.store, outcome.2.disk⟩)
  | (.abort token, _), some store =>
    let engine := token.abort ⟨store, machine.disk⟩
    (.done (.ok ()), ⟨some engine.store, engine.disk⟩)
  | (.compact, env), some store =>
    let outcome := snapshotAndReplaceEpoch blake3 env ⟨store, machine.disk⟩
    (.done outcome.1, ⟨some outcome.2.store, outcome.2.disk⟩)

end Machine

/-- The call a token stands for. -/
def OroStore.reserved (store : OroStore) (token : Token) : Option Call :=
  if token.batch then
    match store.activeBatch with
    | none => none
    | some active =>
      if active.generation = token.generation then
        some (.batch (active.entries.map BatchEntry.mutation))
      else none
  else
    match store.activePrepared with
    | none => none
    | some active =>
      if h : active.generation = token.generation ∧ active.mutation.Shaped then
        some (.single active.mutation h.2)
      else none

/-- All of the record reaches the file, be the write reported as failed or not. -/
def WriteFault.completes (record : Bytes) : WriteFault → Bool
  | none => true
  | short written => record.length ≤ written

/-- The call whose record a step has brought to the log whole. -/
def appended (v : Visit Machine (Op × Env) Answer) : Option Call :=
  match v.input, v.before.store with
  | (.commit token, env), some store =>
    (store.reserved token).filter fun call => env.write.completes call.record
  | _, _ => none

/-- The calls a run has brought to the log, oldest first. -/
def history (run : List (Visit Machine (Op × Env) Answer)) : List Call := run.filterMap appended

section Reserved

variable {config : Config} {store : OroStore} {token : Token} {call : Call}

theorem Holds.reserved (h : Holds config store token call) : store.reserved token = some call := by
  cases h.reserves with
  | single active other =>
    rename_i shaped
    rw [OroStore.reserved, if_neg (by simp), active]
    exact dif_pos ⟨rfl, shaped⟩
  | batch active other =>
    rw [OroStore.reserved, if_pos rfl, active]
    simp only [batchFor_generation, ↓reduceIte]
    rw [batchFor, batchEntries_mutations]

theorem Holds.reserved_stale (h : Holds config store token call) {other : Token}
    (hne : other ≠ token) :
    store.reserved other = none := by
  obtain ⟨batch, generation⟩ := other
  cases h.reserves with
  | @single held mutation shaped active hother =>
    cases batch with
    | true => rw [OroStore.reserved, if_pos rfl, hother]
    | false =>
      rw [OroStore.reserved, if_neg (by simp), active]
      exact dif_neg fun heq => hne (congrArg (Token.mk false) heq.1.symm)
  | @batch held mutations active hother =>
    cases batch with
    | false => rw [OroStore.reserved, if_neg (by simp), hother]
    | true =>
      rw [OroStore.reserved, if_pos rfl, active]
      exact if_neg fun heq => hne (congrArg (Token.mk true) heq.symm)

theorem OroStore.Idle.reserved (h : store.Idle) (token : Token) : store.reserved token = none := by
  cases hbatch : token.batch with
  | true => rw [OroStore.reserved, if_pos hbatch, h.batch]
  | false => rw [OroStore.reserved, if_neg (by simp [hbatch]), h.prepared]

end Reserved

section Invariant

variable {blake3 : Bytes → Digest} {config : Config} {epochs : List Epoch} {view : View}

/-- A machine whose disk stands for `view`. A store that may be written to shows the same
view; a poisoned one, or one opened for reading, holds no reservation. -/
inductive Machine.Inv (blake3 : Bytes → Digest) (config : Config) (epochs : List Epoch)
    (view : View) :
    Machine → Prop where
  | writable {store : OroStore} {disk : Disk}
      (settled : Settled blake3 config epochs ⟨store, disk⟩ view)
      (reservation : store.Idle ∨ ∃ token call, Holds config store token call) :
      Machine.Inv blake3 config epochs view ⟨some store, disk⟩
  | refusing {store : OroStore} {disk : Disk} (durable : Durable blake3 config epochs disk view)
      (refuses : store.preparedPoisoned = true ∧ store.stagedReadOnly = false ∨
        store.stagedReadOnly = true)
      (idle : store.Idle) : Machine.Inv blake3 config epochs view ⟨some store, disk⟩
  | closed {disk : Disk} (durable : Durable blake3 config epochs disk view) :
      Machine.Inv blake3 config epochs view ⟨none, disk⟩

variable {machine : Machine}

theorem Machine.Inv.durable (h : machine.Inv blake3 config epochs view) :
    Durable blake3 config epochs machine.disk view := by
  cases h with
  | writable settled => exact settled.durable
  | refusing durable => exact durable
  | closed durable => exact durable

theorem Machine.Inv.mono {more : List Epoch} (h : machine.Inv blake3 config epochs view)
    (hsub : ∀ epoch ∈ epochs, epoch ∈ more) : machine.Inv blake3 config more view := by
  cases h with
  | writable settled reservation => exact .writable (settled.mono hsub) reservation
  | refusing durable refuses idle => exact .refusing (durable.mono hsub) refuses idle
  | closed durable => exact .closed (durable.mono hsub)

variable {store : OroStore} {disk : Disk} {env : Env}

/-- The view of the disk after a step. -/
def effect (view : View) : Option Call → View
  | none => view
  | some call => view.apply call

theorem refuses_prepare {engine : Engine}
    (h : engine.store.preparedPoisoned = true ∧ engine.store.stagedReadOnly = false ∨
      engine.store.stagedReadOnly = true) (call : Call) :
    ∃ e, call.prepare blake3 env engine = (.error e, engine) := by
  cases call with
  | single mutation shaped =>
    rcases h with ⟨hpoisoned, hwritable⟩ | hreadOnly
    · exact ⟨_, by
        simp only [Call.prepare, prepareMutation, hwritable, hpoisoned, Bool.false_eq_true,
        ↓reduceIte]; rfl⟩
    · exact ⟨_, by simp only [Call.prepare, prepareMutation, hreadOnly, ↓reduceIte]; rfl⟩
  | batch mutations =>
    rcases h with ⟨hpoisoned, hwritable⟩ | hreadOnly
    · exact ⟨_, by
        simp only [Call.prepare, prepareBatch, hwritable, hpoisoned, Bool.false_eq_true,
        ↓reduceIte]; rfl⟩
    · exact ⟨_, by simp only [Call.prepare, prepareBatch, hreadOnly, ↓reduceIte]; rfl⟩

theorem refuses_compact {engine : Engine}
    (h : engine.store.preparedPoisoned = true ∧ engine.store.stagedReadOnly = false ∨
      engine.store.stagedReadOnly = true) :
    ∃ e, snapshotAndReplaceEpoch blake3 env engine = (.error e, engine) := by
  rcases h with ⟨hpoisoned, hwritable⟩ | hreadOnly
  · exact ⟨_, by
      simp only [snapshotAndReplaceEpoch, hwritable, hpoisoned, Bool.false_eq_true,
      ↓reduceIte]; rfl⟩
  · exact ⟨_, by simp only [snapshotAndReplaceEpoch, hreadOnly, ↓reduceIte]; rfl⟩

/-- The parts of the invariant that a failed compaction leaves. -/
theorem Machine.Inv.poisoned (h : Durable blake3 config epochs disk view)
    (hwritable : store.stagedReadOnly = false) :
    Machine.Inv blake3 config epochs view ⟨some store.poisonPreparedStore, disk⟩ :=
  .refusing h (Or.inl ⟨rfl, hwritable⟩) ⟨rfl, rfl⟩

section

variable (h : Machine.Inv blake3 config epochs view ⟨some store, disk⟩)
include h

/-- A call is refused as it comes, or a settled and idle store prepares it. -/
theorem Machine.Inv.prepare_cases (hnext : env.nextEpoch ∉ epochs) (call : Call) :
    (∃ e, call.prepare blake3 env ⟨store, disk⟩ = (.error e, ⟨store, disk⟩)) ∨
      Settled blake3 config epochs ⟨store, disk⟩ view ∧
        Prepared blake3 config epochs env call ⟨store, disk⟩ view
          (call.prepare blake3 env ⟨store, disk⟩) := by
  cases h with
  | refusing durable refuses idle => exact .inl (refuses_prepare refuses call)
  | writable settled reservation =>
    rcases reservation with hidle | ⟨token, held, hholds⟩
    · exact .inr ⟨settled, settled.prepare hidle hnext⟩
    · exact .inl ⟨_, hholds.prepare settled⟩

theorem Machine.Inv.prepare (hnext : env.nextEpoch ∉ epochs) (call : Call) :
    Machine.Inv blake3 config (env.nextEpoch :: epochs) view
      ⟨some (call.prepare blake3 env ⟨store, disk⟩).2.store,
        (call.prepare blake3 env ⟨store, disk⟩).2.disk⟩ := by
  rcases h.prepare_cases hnext call with ⟨e, he⟩ | ⟨settled, hprepared⟩
  · rw [he]
    exact h.mono fun epoch hmem => mem_cons_of_mem _ hmem
  generalize call.prepare blake3 env ⟨store, disk⟩ = outcome at hprepared
  cases hprepared with
  | reserved settled' holds => exact .writable settled' (Or.inr ⟨_, _, holds⟩)
  | refused e settled' idle => exact .writable settled' (Or.inl idle)
  | ambiguous durable => exact .poisoned durable settled.writable

theorem Machine.Inv.compact (hnext : env.nextEpoch ∉ epochs) :
    Machine.Inv blake3 config (env.nextEpoch :: epochs) view
      ⟨some (snapshotAndReplaceEpoch blake3 env ⟨store, disk⟩).2.store,
        (snapshotAndReplaceEpoch blake3 env ⟨store, disk⟩).2.disk⟩ := by
  have hkeep : Machine.Inv blake3 config (env.nextEpoch :: epochs) view ⟨some store, disk⟩ :=
    h.mono fun epoch hmem => mem_cons_of_mem _ hmem
  cases h with
  | refusing durable refuses idle =>
    obtain ⟨e, he⟩ := @refuses_compact blake3 env ⟨store, disk⟩ refuses
    rw [he]
    exact hkeep
  | writable settled reservation =>
    rcases reservation with hidle | ⟨token, held, hholds⟩
    · have hcompacted :=
        @Settled.compact blake3 config epochs ⟨store, disk⟩ view env settled hidle hnext
      generalize snapshotAndReplaceEpoch blake3 env ⟨store, disk⟩ = outcome at hcompacted
      cases hcompacted with
      | done settled' => exact .writable settled' (Or.inl ⟨hidle.prepared, hidle.batch⟩)
      | refused e fault => exact hkeep
      | ambiguous fault durable => exact .poisoned durable settled.writable
    · have hactive : store.activePrepared.isSome = true ∨ store.activeBatch.isSome = true := by
        cases hholds.reserves with
        | single active => exact Or.inl (by rw [active]; rfl)
        | batch active => exact Or.inr (by rw [active]; rfl)
      have hrefused : snapshotAndReplaceEpoch blake3 env ⟨store, disk⟩ =
          (.error .preparedMutationActive, ⟨store, disk⟩) := by
        have hwritable : store.stagedReadOnly = false := settled.writable
        have hsound : store.preparedPoisoned = false := settled.sound
        simp only [snapshotAndReplaceEpoch, hwritable, hsound, hactive, Bool.false_eq_true,
          ↓reduceIte]
      rw [hrefused]
      exact hkeep

/-- A token is stale, or a settled store holds the call it stands for. -/
theorem Machine.Inv.token_cases (token : Token) :
    (store.reserved token = none ∧
        (∀ env, token.commit env ⟨store, disk⟩ = (.error .preparedAlreadyConsumed, ⟨store, disk⟩)) ∧
        token.abort ⟨store, disk⟩ = ⟨store, disk⟩) ∨
      Settled blake3 config epochs ⟨store, disk⟩ view ∧ ∃ call, Holds config store token call := by
  have hidleCase (hidle : store.Idle) : store.reserved token = none ∧
      (∀ env, token.commit env ⟨store, disk⟩ = (.error .preparedAlreadyConsumed, ⟨store, disk⟩)) ∧
        token.abort ⟨store, disk⟩ = ⟨store, disk⟩ :=
    ⟨hidle.reserved token, @OroStore.Idle.stale ⟨store, disk⟩ hidle token,
      @OroStore.Idle.abort ⟨store, disk⟩ hidle token⟩
  cases h with
  | refusing durable refuses idle => exact .inl (hidleCase idle)
  | writable settled reservation =>
    rcases reservation with hidle | ⟨held, call, hholds⟩
    · exact .inl (hidleCase hidle)
    by_cases htoken : token = held
    · exact .inr ⟨settled, call, htoken ▸ hholds⟩
    · exact .inl ⟨hholds.reserved_stale htoken,
        @Holds.stale config ⟨store, disk⟩ held call hholds token htoken,
        @Holds.abort_stale config ⟨store, disk⟩ held call hholds token htoken⟩

theorem Machine.Inv.abort (token : Token) :
    Machine.Inv blake3 config epochs view
      ⟨some (token.abort ⟨store, disk⟩).store, (token.abort ⟨store, disk⟩).disk⟩ := by
  rcases h.token_cases token with ⟨-, -, hstale⟩ | ⟨settled, call, hholds⟩
  · rw [hstale]
    exact h
  · rw [@Holds.abort config ⟨store, disk⟩ token call hholds]
    exact .writable settled.released (Or.inl ⟨rfl, rfl⟩)

/-- What a commit leaves, and whether its record counts. -/
theorem Machine.Inv.commit (token : Token) :
    Machine.Inv blake3 config epochs
      (effect view ((store.reserved token).filter fun call => env.write.completes call.record))
      ⟨some (token.commit env ⟨store, disk⟩).2.store, (token.commit env ⟨store, disk⟩).2.disk⟩ := by
  rcases h.token_cases token with ⟨hnone, hstale, -⟩ | ⟨settled, call, hholds⟩
  · rw [hnone, hstale]
    exact h
  obtain ⟨head, hepoch, hlaid⟩ := settled.laid
  obtain ⟨after, hp, hcommit⟩ :=
    @Holds.commit blake3 config epochs ⟨store, disk⟩ view token call hholds settled env
  have hwal : disk.wal = some (disk.wal.getD []) := by
    obtain ⟨covered, live, base, anchor, hsome, -⟩ := hlaid
    rw [hsome, Option.getD_some]
  have hroom : (disk.wal.getD []).length + call.record.length ≤ config.maxWalBytes := by
    have hoffset : (disk.wal.getD []).length = store.walOffset := settled.offset
    rw [hoffset]
    exact hholds.room
  have hseq : view.nextSeq + call.mutations.length ≤ maxU64 := by
    rw [← settled.shows]
    exact hholds.seq
  have hcut := hlaid.cut hwal hholds.fits hroom hseq (hepoch ▸ settled.known)
  rw [hholds.reserved]
  cases hwrite : env.write with
  | short n =>
    have hdurable := hcut n
    rw [hwrite] at hcommit
    rw [hcommit]
    by_cases hn : n < call.record.length
    · have hpart : WriteFault.completes call.record (.short n) = false :=
        decide_eq_false (Nat.not_le.mpr hn)
      rw [if_pos hn] at hdurable
      rw [Option.filter, hpart, if_neg Bool.false_ne_true]
      exact .poisoned hdurable settled.writable
    · have hwhole : WriteFault.completes call.record (.short n) = true :=
        decide_eq_true (Nat.not_lt.mp hn)
      rw [if_neg hn] at hdurable
      rw [Option.filter, hwhole, if_pos rfl]
      exact .poisoned hdurable settled.writable
  | none =>
    have hdurable := hcut call.record.length
    rw [if_neg (Nat.lt_irrefl _), take_length] at hdurable
    rw [hwrite] at hcommit
    rw [hcommit, Option.filter, WriteFault.completes, if_pos rfl]
    cases hsync : env.syncFails with
    | true => exact .poisoned hdurable settled.writable
    | false => exact .writable (settled.published hholds hp) (Or.inl hp.idle)

end

/-- What opening for writing makes of a disk. -/
theorem Durable.reopen (h : Durable blake3 config epochs disk view)
    (hensure : env.ensureWalFails = false) (hnext : env.nextEpoch ∉ env.emptyEpoch :: epochs) :
    (∃ store disk', openImpl blake3 config false env disk = (.ok store, disk') ∧ store.Idle ∧
      Settled blake3 config (env.nextEpoch :: env.emptyEpoch :: epochs) ⟨store, disk'⟩ view) ∨
    (env.compaction ≠ .none ∧ ∃ e disk', openImpl blake3 config false env disk = (.error e, disk') ∧
      Durable blake3 config (env.nextEpoch :: env.emptyEpoch :: epochs) disk' view) := by
  obtain ⟨contents, wal, hsettled, hopen⟩ := h.open_eq hensure
  have hmore : ∀ epoch ∈ env.emptyEpoch :: epochs, epoch ∈
      env.nextEpoch :: env.emptyEpoch :: epochs :=
    fun epoch hmem => mem_cons_of_mem _ hmem
  have hidle : (opened config contents wal.length false).Idle := ⟨rfl, rfl⟩
  rw [hopen, maybeCompact]
  by_cases hshort : (opened config contents wal.length false).walOffset <
      (opened config contents wal.length false).config.maxWalBytes / 2
  · simp only [if_pos hshort]
    exact Or.inl ⟨_, _, rfl, hidle, hsettled.mono hmore⟩
  simp only [if_neg hshort]
  have hcompacted := hsettled.compact hidle hnext
  generalize snapshotAndReplaceEpoch blake3 env
    ⟨opened config contents wal.length false, { disk with wal := some wal }⟩ =
      outcome at hcompacted
  cases hcompacted with
  | done settled => exact Or.inl ⟨_, _, rfl, ⟨rfl, rfl⟩, settled⟩
  | refused e fault =>
    have hfault : env.compaction ≠ .none := by
      rcases fault with hwal | hcompaction
      · rw [hensure] at hwal
        cases hwal
      · exact hcompaction
    exact Or.inr ⟨hfault, e, _, rfl, hsettled.durable.mono hmore⟩
  | ambiguous fault durable => exact Or.inr ⟨fault, _, _, rfl, durable⟩

/-- Opening for reading changes no file. -/
theorem openImpl_readOnly (blake3 : Bytes → Digest) (config : Config) (env : Env) (disk : Disk) :
    (openImpl blake3 config true env disk).2 = disk ∧
      ∀ store, (openImpl blake3 config true env disk).1 = .ok store →
        store.stagedReadOnly = true ∧ store.Idle := by
  cases hwal : disk.wal with
  | none =>
    have hclosed : openImpl blake3 config true env disk = (.error .io, disk) :=
      if_pos ⟨rfl, hwal⟩
    rw [hclosed]
    exact ⟨rfl, fun store hok => by cases hok⟩
  | some wal =>
    have hsame : { disk with wal := some wal } = disk := by rw [← hwal]
    simp only [openImpl, hwal, Option.getD_some, hsame, reduceCtorEq, and_false, Bool.true_eq_false,
      false_and, ↓reduceIte]
    cases replayFile config .snapshot disk.snapshot 0 .init with
    | error e => exact ⟨rfl, fun store hok => by cases hok⟩
    | ok contents =>
      simp only
      cases replayWal blake3 config wal contents.1 with
      | error e => exact ⟨rfl, fun store hok => by cases hok⟩
      | ok replayed =>
        simp only
        split
        · exact ⟨rfl, fun store hok => by cases hok⟩
        · refine ⟨rfl, fun store hok => ?_⟩
          cases hok
          exact ⟨rfl, rfl, rfl⟩

section

variable (h : machine.Inv blake3 config epochs view)
include h

theorem Machine.Inv.restart (readOnly : Bool)
    (hnext : env.nextEpoch ∉ env.emptyEpoch :: epochs) :
    Machine.Inv blake3 config (env.nextEpoch :: env.emptyEpoch :: epochs) view
      ⟨(openImpl blake3 config readOnly env machine.disk).1.toOption,
        (openImpl blake3 config readOnly env machine.disk).2⟩ := by
  have hmore : ∀ epoch ∈ epochs, epoch ∈ env.nextEpoch :: env.emptyEpoch :: epochs :=
    fun epoch hmem => mem_cons_of_mem _ (mem_cons_of_mem _ hmem)
  have hdurable := h.durable
  cases readOnly with
  | true =>
    obtain ⟨hdisk, hstore⟩ := openImpl_readOnly blake3 config env machine.disk
    rw [hdisk]
    cases hopen : (openImpl blake3 config true env machine.disk).1 with
    | error e => exact .closed (hdurable.mono hmore)
    | ok store =>
      obtain ⟨hreadOnly, hidle⟩ := hstore store hopen
      exact .refusing (hdurable.mono hmore) (Or.inr hreadOnly) hidle
  | false =>
    cases hensure : env.ensureWalFails with
    | true =>
      have hclosed : openImpl blake3 config false env machine.disk =
          (.error .io, machine.disk) := by
        rw [openImpl, if_neg (by simp), if_pos ⟨rfl, hensure⟩]
      rw [hclosed]
      exact .closed (hdurable.mono hmore)
    | false =>
      rcases hdurable.reopen hensure hnext with
        ⟨store, disk, hopen, hidle, hsettled⟩ | ⟨-, e, disk, hopen, hafter⟩
      · rw [hopen]
        exact .writable hsettled (Or.inl hidle)
      · rw [hopen]
        exact .closed hafter

theorem step_inv {input : Op × Env}
    (hfresh : (epochs ++ draws input).Nodup) :
    (step blake3 config machine input).2.Inv blake3 config (epochs ++ draws input)
      (effect view (appended ⟨machine, input, (step blake3 config machine input).1,
        (step blake3 config machine input).2⟩)) := by
  obtain ⟨op, env⟩ := input
  obtain ⟨store, disk⟩ := machine
  have hmore : ∀ epoch ∈ epochs, epoch ∈ epochs ++ draws (op, env) :=
    fun epoch hmem => mem_append_left _ hmem
  cases op with
  | restart readOnly =>
    have hnext : env.nextEpoch ∉ env.emptyEpoch :: epochs := by
      simp only [draws, nodup_append, nodup_cons, mem_cons] at hfresh
      grind
    refine (h.restart readOnly hnext).mono fun epoch hmem => ?_
    simp only [draws, mem_append, mem_cons] at hmem ⊢
    tauto
  | prepare call =>
    cases store with
    | none => exact h.mono hmore
    | some store =>
      have hnext : env.nextEpoch ∉ epochs := by
        simp only [draws, nodup_append] at hfresh
        grind
      refine (h.prepare hnext call).mono fun epoch hmem => ?_
      simp only [draws, mem_append, mem_cons] at hmem ⊢
      tauto
  | compact =>
    cases store with
    | none => exact h.mono hmore
    | some store =>
      have hnext : env.nextEpoch ∉ epochs := by
        simp only [draws, nodup_append] at hfresh
        grind
      refine (h.compact hnext).mono fun epoch hmem => ?_
      simp only [draws, mem_append, mem_cons] at hmem ⊢
      tauto
  | abort token =>
    cases store with
    | none => exact h.mono hmore
    | some store => exact (h.abort token).mono hmore
  | commit token =>
    cases store with
    | none => exact h.mono hmore
    | some store => exact (h.commit token).mono hmore

/-- Along a run the disk stands for the calls that the run has brought to the log. -/
theorem run_inv {inputs : List (Op × Env)}
    (hfresh : (epochs ++ inputs.flatMap draws).Nodup) :
    (final (step blake3 config) machine inputs).Inv blake3 config (epochs ++ inputs.flatMap draws)
      ((history (visits (step blake3 config) machine inputs)).foldl View.apply view) := by
  induction inputs generalizing machine epochs view with
  | nil => simpa [history, visits, final] using h
  | cons input rest ih =>
    rw [flatMap_cons, ← append_assoc] at hfresh ⊢
    have hstep := step_inv h (List.Nodup.of_append_left hfresh)
    have hrest := ih hstep hfresh
    rw [visits, history, filterMap_cons]
    generalize appended ⟨machine, input, (step blake3 config machine input).1,
      (step blake3 config machine input).2⟩ = call at hrest
    cases call with
    | none => exact hrest
    | some call => exact hrest

end

end Invariant

end OnyxServer.Store
