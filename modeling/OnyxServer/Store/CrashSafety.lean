import OnyxServer.Store.BatchCodec
import OnyxServer.Store.Runs

/-!
# Crash safety

A run starts on the disk of a new store, or on a log written before logs had epochs.
Whatever the run does and wherever it stops, opening for writing succeeds and shows the
calls whose records reached the log whole, each once and in order.
-/
namespace OnyxServer.Store

open Lib List

/-- The disks a run may start from, with the view each stands for. -/
inductive Initial (config : Config) : Disk → View → Prop where
  | fresh : Initial config ⟨none, none⟩ Contents.init.view
  | legacy {calls : List Call} {torn : Bytes} (fits : ∀ call ∈ calls, call.Fits config)
      (torn_tail : Torn config torn)
      (room : (chunkBytes (calls.map .committed) ++ torn).length ≤ config.maxWalBytes)
      (seq : (calls.foldl View.apply Contents.init.view).nextSeq ≤ maxU64) :
      Initial config ⟨some (chunkBytes (calls.map .committed) ++ torn), none⟩
        (calls.foldl View.apply Contents.init.view)

/-- The file system fails at no call that opening makes. -/
structure Env.Clean (env : Env) : Prop where
  ensures : env.ensureWalFails = false
  compacts : env.compaction = .none

/-- The process ends, the store opens for writing and shows `view`. -/
def Reopens (blake3 : Bytes → Digest) (config : Config) (machine : Machine) (env : Env)
    (view : View) : Prop :=
  ∃ store disk, step blake3 config machine (.restart false, env) =
    (.done (.ok ()), ⟨some store, disk⟩) ∧
    store.view = view

section Recovery

variable {blake3 : Bytes → Digest} {config : Config} {epochs : List Epoch} {disk : Disk}
    {view : View}
  {machine : Machine} {env : Env} {store : OroStore} {token : Token} {call : Call}
  {inputs more : List (Op × Env)}

theorem foldl_committed (calls : List Call) (view : View) :
    (calls.map Chunk.committed).foldl Chunk.apply view = calls.foldl View.apply view := by
  rw [foldl_map]
  rfl

theorem Initial.durable (h : Initial config disk view) :
    Durable blake3 config [legacyWalEpoch] disk view := by
  cases h with
  | fresh => exact .fresh rfl rfl rfl
  | @legacy calls torn fits torn_tail room seq =>
    have hchunks : ∀ chunk ∈ calls.map Chunk.committed, chunk.Fits config := by
      intro chunk hchunk
      obtain ⟨call, hcall, rfl⟩ := mem_map.mp hchunk
      exact fits call hcall
    have hlaid :
        Laid blake3 config ⟨some (chunkBytes (calls.map .committed) ++ torn), none⟩ .headerless torn
        (calls.foldl View.apply Contents.init.view) :=
      ⟨[], calls.map .committed, .init, .unsealed _, rfl, by
        simp, hchunks, room, foldl_committed _ _, seq⟩
    exact .laid hlaid torn_tail mem_cons_self

theorem CollisionFree.left (h : CollisionFree (inputs ++ more)) : CollisionFree inputs := by
  rw [CollisionFree, flatMap_append, ← cons_append] at h
  exact List.Nodup.of_append_left h

/-- What every run keeps. -/
theorem reachable_inv (hinitial : Initial config disk view) (hfree : CollisionFree inputs) :
    (final (step blake3 config) ⟨none, disk⟩ inputs).Inv blake3 config
      (legacyWalEpoch :: inputs.flatMap draws)
      ((history (visits (step blake3 config) ⟨none, disk⟩ inputs)).foldl View.apply view) :=
  run_inv (.closed hinitial.durable) hfree

/-- A run continued. -/
theorem Machine.Inv.continue
    (h : machine.Inv blake3 config (legacyWalEpoch :: inputs.flatMap draws) view)
    (hfree : CollisionFree (inputs ++ more)) :
    (final (step blake3 config) machine more).Inv blake3 config
      (legacyWalEpoch :: (inputs ++ more).flatMap draws)
      ((history (visits (step blake3 config) machine more)).foldl View.apply view) := by
  rw [CollisionFree, flatMap_append, ← cons_append] at hfree
  rw [flatMap_append, ← cons_append]
  exact run_inv h hfree

theorem CollisionFree.next (h : CollisionFree (inputs ++ [(.restart false, env)])) :
    env.nextEpoch ∉ env.emptyEpoch :: legacyWalEpoch :: inputs.flatMap draws := by
  rw [CollisionFree, flatMap_append, ← cons_append] at h
  simp only [draws, flatMap_cons, flatMap_nil, append_nil] at h
  intro hmem
  rcases mem_cons.mp hmem with heq | hmem
  · have hpair := List.Nodup.of_append_right h
    rw [heq] at hpair
    simp at hpair
  · exact disjoint_of_nodup_append h hmem (by simp)

theorem CollisionFree.prepares (h : CollisionFree (inputs ++ [(.prepare call, env)])) :
    env.nextEpoch ∉ legacyWalEpoch :: inputs.flatMap draws := by
  rw [CollisionFree, flatMap_append, ← cons_append] at h
  exact fun hmem => disjoint_of_nodup_append h hmem (by simp [draws])

theorem Machine.Inv.reopens (h : machine.Inv blake3 config epochs view) (hclean : env.Clean)
    (hnext : env.nextEpoch ∉ env.emptyEpoch :: epochs) :
    Reopens blake3 config machine env view := by
  rcases h.durable.reopen hclean.ensures hnext with ⟨store, disk, hopen, -, hsettled⟩ | ⟨hfault, -⟩
  · refine ⟨store, disk, ?_, hsettled.shows⟩
    rw [step, hopen]
    rfl
  · exact absurd hclean.compacts hfault

section

variable (h : Machine.Inv blake3 config epochs view ⟨some store, disk⟩)
include h

/-- A token that stands for a call is the one of the reservation held. -/
theorem Machine.Inv.holds (hreserved : store.reserved token = some call) :
    Settled blake3 config epochs ⟨store, disk⟩ view ∧ Holds config store token call := by
  rcases h.token_cases token with ⟨hnone, -, -⟩ | ⟨settled, held, hholds⟩
  · rw [hnone] at hreserved
    cases hreserved
  · rw [hholds.reserved] at hreserved
    cases hreserved
    exact ⟨settled, hholds⟩

/-- A store that may be written to shows what its disk stands for. -/
theorem Machine.Inv.shows (hsound : store.preparedPoisoned = false)
    (hwritable : store.stagedReadOnly = false) :
    store.view = view := by
  cases h with
  | writable settled reservation => exact settled.shows
  | refusing durable refuses idle =>
    rcases refuses with ⟨hpoisoned, -⟩ | hreadOnly
    · rw [hsound] at hpoisoned
      cases hpoisoned
    · rw [hwritable] at hreadOnly
      cases hreadOnly

/-- A preparation that is answered with a token reserves its call. -/
theorem Machine.Inv.prepare_ok (hnext : env.nextEpoch ∉ epochs)
    (hok : (call.prepare blake3 env ⟨store, disk⟩).1 = .ok token) :
    (call.prepare blake3 env ⟨store, disk⟩).2.store.reserved token = some call ∧
      (call.prepare blake3 env ⟨store, disk⟩).2.store.view = view := by
  rcases h.prepare_cases hnext call with ⟨e, he⟩ | ⟨-, hprepared⟩
  · rw [he] at hok
    cases hok
  generalize call.prepare blake3 env ⟨store, disk⟩ = outcome at hprepared hok
  cases hprepared with
  | reserved settled' holds =>
    cases hok
    exact ⟨holds.reserved, settled'.shows⟩
  | refused e => cases hok
  | ambiguous durable => cases hok

/-- A commit that nothing fails publishes its call. -/
theorem Machine.Inv.commit_ok
    (hreserved : store.reserved token = some call) (hwrite : env.write = .none)
    (hsync : env.syncFails = false) :
    ∃ after disk', step blake3 config ⟨some store, disk⟩ (.commit token, env) =
        (.done (.ok ()), ⟨some after, disk'⟩) ∧ after.view = store.view.apply call := by
  obtain ⟨hsettled, hholds⟩ := h.holds hreserved
  obtain ⟨after, hp, hcommit⟩ :=
    @Holds.commit blake3 config epochs ⟨store, disk⟩ view token call hholds hsettled env
  rw [hwrite, hsync] at hcommit
  refine ⟨after, disk.append call.record, ?_, hp.shows⟩
  simp only [step, hcommit]
  rfl

end

/-- Every run of calls and crashes: opening for writing succeeds and shows the calls that
the run has brought to the log. A token answered by a preparation stands for its call; a
commit that nothing fails publishes it; and when the process stops inside the append, the
call counts if all of its record reached the file and is forgotten otherwise. -/
theorem crash_safety (blake3 : Bytes → Digest) (hinitial : Initial config disk view)
    (inputs : List (Op × Env)) :
    (∀ env, CollisionFree (inputs ++ [(.restart false, env)]) → env.Clean →
      Reopens blake3 config (final (step blake3 config) ⟨none, disk⟩ inputs) env
        ((history (visits (step blake3 config) ⟨none, disk⟩ inputs)).foldl View.apply view)) ∧
    (∀ call env token, CollisionFree (inputs ++ [(.prepare call, env)]) →
      (step blake3 config (final (step blake3 config) ⟨none, disk⟩ inputs) (.prepare call, env)).1 =
        .prepared (.ok token) →
      ∃ store,
        (step blake3 config (final (step blake3 config) ⟨none, disk⟩ inputs)
          (.prepare call, env)).2.store = some store ∧ store.reserved token = some call) ∧
    ∀ store token call, CollisionFree inputs →
      (final (step blake3 config) ⟨none, disk⟩ inputs).store = some store →
      store.reserved token = some call →
      store.view =
        (history (visits (step blake3 config) ⟨none, disk⟩ inputs)).foldl View.apply view ∧
      (∀ env, env.write = .none → env.syncFails = false →
        ∃ after disk', step blake3 config (final (step blake3 config) ⟨none, disk⟩ inputs)
        (.commit token, env) =
            (.done (.ok ()), ⟨some after, disk'⟩) ∧ after.view = store.view.apply call) ∧
      ∀ env n reopening, env.write = .short n →
      CollisionFree (inputs ++ [(.restart false, reopening)]) →
        reopening.Clean →
        Reopens blake3 config
          (step blake3 config (final (step blake3 config) ⟨none, disk⟩ inputs)
            (.commit token, env)).2 reopening
          (if n < call.record.length then store.view else store.view.apply call) := by
  refine ⟨?_, ?_, ?_⟩
  · intro env hfree hclean
    exact (reachable_inv hinitial hfree.left).reopens hclean hfree.next
  · intro call env token hfree hok
    have hinv := @reachable_inv blake3 config disk view inputs hinitial hfree.left
    generalize final (step blake3 config) ⟨none, disk⟩ inputs = machine at hinv hok
    obtain ⟨opened, disk'⟩ := machine
    cases opened with
    | none => cases hok
    | some store => exact ⟨_, rfl, (hinv.prepare_ok hfree.prepares (Answer.prepared.inj hok)).1⟩
  · intro store token call hfree hstore hreserved
    have hinv := @reachable_inv blake3 config disk view inputs hinitial hfree
    generalize final (step blake3 config) ⟨none, disk⟩ inputs = machine at hinv hstore
    obtain ⟨opened, disk'⟩ := machine
    obtain rfl : opened = some store := hstore
    have hsettled := (hinv.holds hreserved).1
    refine ⟨hsettled.shows, ?_, ?_⟩
    · intro env hwrite hsync
      exact hinv.commit_ok hreserved hwrite hsync
    · intro env n reopening hwrite hmore hclean
      have hafter := @Machine.Inv.commit blake3 config _ _ store disk' env hinv token
      have hview := hafter.reopens hclean hmore.next
      rw [hreserved, hwrite, Option.filter] at hview
      have hshows : store.view = _ := hsettled.shows
      rw [hshows]
      by_cases hn : n < call.record.length
      · have hpart : WriteFault.completes call.record (.short n) = false :=
          decide_eq_false (Nat.not_le.mpr hn)
        rw [hpart, if_neg Bool.false_ne_true] at hview
        rw [if_pos hn]
        exact hview
      · have hwhole : WriteFault.completes call.record (.short n) = true :=
          decide_eq_true (Nat.not_lt.mp hn)
        rw [hwhole, if_pos rfl] at hview
        rw [if_neg hn]
        exact hview

def sampleDigest (bytes : Bytes) : Digest := .splat 32 bytes.length.toUInt8

def samplePut : Call := .put .accounts [97] [98, 99]

def sampleRun : List (Op × Env) :=
  [(.restart false, sampleEnv 1 2), (.prepare samplePut, sampleEnv 3 4)]

/-- The process stops in the first write: five octets of the record are on the disk, or
all of them. -/
theorem crash_safety_first_write :
    ∃ store, (final (step sampleDigest sampleConfig) ⟨none, ⟨none, none⟩⟩ sampleRun).store =
      some store ∧
      store.reserved ⟨false, 1⟩ = some samplePut ∧
      Reopens sampleDigest sampleConfig
        (step sampleDigest sampleConfig
          (final (step sampleDigest sampleConfig) ⟨none, ⟨none, none⟩⟩ sampleRun)
          (.commit ⟨false, 1⟩, { sampleEnv 5 6 with write := .short 5 })).2
            (sampleEnv 7 8) store.view ∧
      Reopens sampleDigest sampleConfig
        (step sampleDigest sampleConfig
          (final (step sampleDigest sampleConfig) ⟨none, ⟨none, none⟩⟩ sampleRun)
          (.commit ⟨false, 1⟩, { sampleEnv 5 6 with write := .short 100 })).2 (sampleEnv 7 8)
        (store.view.apply samplePut) := by
  have hfree : CollisionFree (sampleRun ++ [(.restart false, sampleEnv 7 8)]) := by
    unfold CollisionFree
    decide
  have hclean : (sampleEnv 7 8).Clean := ⟨rfl, rfl⟩
  have hsafe := crash_safety sampleDigest (@Initial.fresh sampleConfig) sampleRun
  refine ⟨_, rfl, rfl, ?_, ?_⟩
  · exact (hsafe.2.2 _ ⟨false, 1⟩ samplePut hfree.left rfl rfl).2.2 _ 5 _ rfl hfree hclean
  · exact (hsafe.2.2 _ ⟨false, 1⟩ samplePut hfree.left rfl rfl).2.2 _ 100 _ rfl hfree hclean

/-- A compaction that stops anywhere leaves what was there, and the store that opens
afterwards keeps every call it then commits, once, over any number of openings. A store
that may not be written to is not compacted. -/
theorem compaction_invisible (blake3 : Bytes → Digest) (hinitial : Initial config disk view)
    (inputs : List (Op × Env)) {store : OroStore} (hfree : CollisionFree inputs)
    (hstore : (final (step blake3 config) ⟨none, disk⟩ inputs).store = some store) :
    (store.preparedPoisoned = true ∨ store.stagedReadOnly = true → ∀ env,
      (step blake3 config (final (step blake3 config) ⟨none, disk⟩ inputs) (.compact, env)).2 =
        final (step blake3 config) ⟨none, disk⟩ inputs) ∧
    (store.preparedPoisoned = false → store.stagedReadOnly = false → ∀ env reopening,
      CollisionFree (inputs ++ [(.compact, env)] ++ [(.restart false, reopening)]) →
      reopening.Clean →
      ∃ after disk',
        step blake3 config
            (step blake3 config (final (step blake3 config) ⟨none, disk⟩ inputs) (.compact, env)).2
            (.restart false, reopening) = (.done (.ok ()), ⟨some after, disk'⟩) ∧
        after.view = store.view ∧
        ∀ more again,
          CollisionFree (inputs ++ [(.compact, env)] ++ [(.restart false, reopening)] ++ more ++
            [(.restart false, again)]) → again.Clean →
          Reopens blake3 config (final (step blake3 config) ⟨some after, disk'⟩ more) again
            ((history (visits (step blake3 config) ⟨some after, disk'⟩ more)).foldl View.apply
              store.view)) := by
  have hinv := @reachable_inv blake3 config disk view inputs hinitial hfree
  generalize final (step blake3 config) ⟨none, disk⟩ inputs = machine at hinv hstore
  obtain ⟨opened, disk⟩ := machine
  obtain rfl : opened = some store := hstore
  constructor
  · intro hrefuses env
    have hcases : store.preparedPoisoned = true ∧ store.stagedReadOnly = false ∨
        store.stagedReadOnly = true := by
      cases hreadOnly : store.stagedReadOnly with
      | true => exact Or.inr rfl
      | false => exact Or.inl ⟨hrefuses.resolve_right (by simp [hreadOnly]), rfl⟩
    obtain ⟨e, he⟩ := @refuses_compact blake3 env ⟨store, disk⟩ hcases
    simp only [step, he]
  · intro hsound hwritable env reopening hmore hclean
    rw [← hinv.shows hsound hwritable] at hinv
    have hcompacted : (step blake3 config ⟨some store, disk⟩ (.compact, env)).2.Inv blake3 config
        (legacyWalEpoch :: (inputs ++ [(Op.compact, env)]).flatMap draws) store.view :=
      hinv.continue hmore.left
    obtain ⟨after, disk', hopen, hview⟩ := hcompacted.reopens hclean hmore.next
    refine ⟨after, disk', hopen, hview, ?_⟩
    intro more again hagain hclean'
    have hopened : Machine.Inv blake3 config
        (legacyWalEpoch ::
          (inputs ++ [(Op.compact, env)] ++ [(Op.restart false, reopening)]).flatMap draws)
        store.view (step blake3 config (step blake3 config ⟨some store, disk⟩ (.compact, env)).2
          (.restart false, reopening)).2 :=
      hcompacted.continue hmore
    rw [hopen] at hopened
    exact (hopened.continue hagain.left).reopens hclean' hagain.next

/-- The process stops between the two renames of a compaction. -/
theorem compaction_invisible_between_renames :
    ∃ store after disk,
      (final (step sampleDigest sampleConfig) ⟨none, ⟨none, none⟩⟩
        (sampleRun ++ [(.commit ⟨false, 1⟩, sampleEnv 5 6)])).store = some store ∧
      step sampleDigest sampleConfig
          (step sampleDigest sampleConfig
            (final (step sampleDigest sampleConfig) ⟨none, ⟨none, none⟩⟩
            (sampleRun ++ [(.commit ⟨false, 1⟩, sampleEnv 5 6)]))
            (.compact, { sampleEnv 7 8 with compaction := .cut .snapshot })).2
          (.restart false, sampleEnv 9 10) = (.done (.ok ()), ⟨some after, disk⟩) ∧
      after.view = store.view := by
  have hfree : CollisionFree (sampleRun ++ [(.commit ⟨false, 1⟩, sampleEnv 5 6)] ++
      [(.compact, { sampleEnv 7 8 with compaction := .cut .snapshot })] ++
        [(.restart false, sampleEnv 9 10)]) := by
    unfold CollisionFree
    decide
  obtain ⟨after, disk, hopen, hview, -⟩ :=
    (compaction_invisible sampleDigest (@Initial.fresh sampleConfig)
      (sampleRun ++ [(.commit ⟨false, 1⟩, sampleEnv 5 6)]) hfree.left.left rfl).2 rfl rfl _ _ hfree
      ⟨rfl, rfl⟩
  exact ⟨_, after, disk, rfl, hopen, hview⟩

end Recovery

end OnyxServer.Store
