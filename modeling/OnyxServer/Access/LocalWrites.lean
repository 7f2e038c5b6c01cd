import OnyxServer.Access.Operations
import OnyxServer.Lib.LastWriter

/-!
# A local write outranks what the store has seen

The clock of a store is past every stamp that it issued or accepted, so a local write is
stamped above them all until the clock is at its top. What is kept of the identity of a
local write never falls below the write while a row or a marker of it is kept.
-/
namespace OnyxServer.Access

open Lib Text

variable {store next : AccessStore}

def topHlc : UInt64 := 18446744073709551615

/-- The stamps of the rows that a copy writes. -/
def copyStamps (destination : Bytes) (alloc : Nat → Bool) :
    List Entry → Nat → AccessStore → List (Stamp UInt64)
  | [], _, _ => []
  | row :: staged, copied, store =>
    let stamp := store.nextHlc.1
    let store := store.nextHlc.2
    match store.upsert
      { channel := destination, level := row.level, mask := row.mask, setBy := row.setBy
        duration := store.stampDuration row.duration stamp, hlc := stamp
        originNode := store.localNode, proof := none } (alloc copied) with
    | (.error _, _) => [.issued stamp]
    | (.ok (), store) =>
      .issued stamp :: copyStamps destination alloc staged (copied + 1)
        (store.dropTombstone destination row.level row.mask)

/-- One stamp is issued when the arguments are valid. -/
def validStamp (store : AccessStore) : Except StoreError Unit → List (Stamp UInt64)
  | .error _ => []
  | .ok () => [.issued store.nextHlc.1]

def clearStamps (store : AccessStore) (selector : Selector) : List (Stamp UInt64) :=
  validStamp store (validateSelector selector)

def templateStamps (store : AccessStore) (destination source : Bytes)
    (allocs : AccessStore.CopyAllocs) : List (Stamp UInt64) :=
  let incoming := (store.template source).countP fun entry =>
    (store.findIndex destination entry.level entry.mask).isNone
  if store.maxEntries < store.entries.length + incoming then []
  else if !allocs.stage && !(store.template source).isEmpty then []
  else
    copyStamps destination allocs.write
      ((store.template source).map (store.stagedRow destination)) 0
      store

def copyFromStamps (store : AccessStore) (destination source : Bytes) (mode : CopyMode)
    (allocs : AccessStore.CopyAllocs) : List (Stamp UInt64) :=
  match AccessStore.validateCopy destination source with
  | .error _ => []
  | .ok () =>
    (match mode with
      | .replace => clearStamps store ⟨destination, none, none⟩
      | .merge => []) ++
    match store.clearFirst destination mode allocs.clear with
    | (.error _, _) => []
    | (.ok _, store) => templateStamps store destination source allocs

def acceptedStamps (store : AccessStore) (fact : RemoteFact) : List (Stamp UInt64) :=
  match AccessStore.validateFact fact with
  | .error _ => []
  | .ok () => if store.tooFarAhead fact.hlc then [] else [.accepted fact.hlc]

/-- The stamps that an operation issues and accepts, in order. -/
def stamps (store : AccessStore) : Op → List (Stamp UInt64)
  | .setClock _ => []
  | .add channel _ mask setBy _ _ => validStamp store (AccessStore.validateAdd channel mask setBy)
  | .remove channel _ mask _ => validStamp store (AccessStore.validateTarget channel mask)
  | .clear selector _ => clearStamps store selector
  | .copyFrom destination source mode allocs => copyFromStamps store destination source mode allocs
  | .applyRemote fact _ => acceptedStamps store fact
  | .pruneExpired _ => []
  | .reanchorTimedExpiries => []

theorem nextHlc_above (store : AccessStore) :
    store.hlc < store.nextHlc.1 ∨ (store.hlc = topHlc ∧ store.nextHlc.1 = topHlc) := by
  have hsucc : (satAdd store.hlc 1).toNat = min (store.hlc.toNat + 1) maxU64 := satAdd_toNat _ _
  have htop : topHlc.toNat = maxU64 := rfl
  have hmax := toNat_le_maxU64 store.hlc
  by_cases h : store.hlc = topHlc
  · refine .inr ⟨h, le_antisymm ?_ ?_⟩
    · rw [UInt64.le_iff_toNat_le, htop]
      exact toNat_le_maxU64 _
    · have hle := le_nextHlc store
      rwa [h] at hle
  · refine .inl (lt_of_lt_of_le ?_ (le_max_left _ _))
    have hne : store.hlc.toNat ≠ maxU64 := fun heq => h (UInt64.toNat_inj.mp (heq.trans htop.symm))
    rw [UInt64.lt_iff_toNat_lt, hsucc]
    omega

theorem upsert_hlc {w : Write} {alloc : Bool} {answer : Except StoreError Unit}
    (h : store.upsert w alloc = (answer, next)) : next.hlc = store.hlc := by
  have hstep := upsert_step store w alloc
  rw [h] at hstep
  cases hstep <;> rfl

theorem drop_hlc (store : AccessStore) (channel : Bytes) (level : Level) (mask : Bytes) :
    (store.dropTombstone channel level mask).hlc = store.hlc := by
  unfold AccessStore.dropTombstone
  split <;> rfl

theorem issue_one (store : AccessStore) :
    ClockRun topHlc store.hlc [.issued store.nextHlc.1] store.nextHlc.1 :=
  .issued (nextHlc_above store) (.refl _)

theorem copyRows_stamps (destination : Bytes) (alloc : Nat → Bool) (staged : List Entry)
    (copied : Nat) (store : AccessStore) :
    ClockRun topHlc store.hlc (copyStamps destination alloc staged copied store)
      (AccessStore.copyRows destination alloc staged copied store).2.hlc := by
  induction staged generalizing store copied with
  | nil => exact ClockRun.refl _
  | cons row staged ih =>
    unfold copyStamps AccessStore.copyRows
    dsimp only
    rcases hput : store.nextHlc.2.upsert
      { channel := destination, level := row.level, mask := row.mask, setBy := row.setBy
        duration := store.nextHlc.2.stampDuration row.duration store.nextHlc.1
        hlc := store.nextHlc.1, originNode := store.nextHlc.2.localNode, proof := none }
      (alloc copied) with ⟨answer, middle⟩
    cases answer with
    | error e => exact upsert_hlc hput ▸ issue_one store
    | ok =>
      have hrest := ih (copied + 1) (middle.dropTombstone destination row.level row.mask)
      rw [drop_hlc, upsert_hlc hput] at hrest
      exact .issued (nextHlc_above store) hrest

theorem add_stamps (store : AccessStore) (channel : Bytes) (level : Level) (mask setBy : Bytes)
    (duration : Option UInt64) (alloc : Bool) :
    ClockRun topHlc store.hlc (validStamp store (AccessStore.validateAdd channel mask setBy))
      (store.add channel level mask setBy duration alloc).2.hlc := by
  unfold AccessStore.add
  cases AccessStore.validateAdd channel mask setBy with
  | error e => exact ClockRun.refl store.hlc
  | ok value =>
    dsimp only
    split
    · rename_i e middle hput
      exact upsert_hlc hput ▸ issue_one store
    · rename_i middle hput
      rw [drop_hlc]
      exact upsert_hlc hput ▸ issue_one store

theorem remove_stamps (store : AccessStore) (channel : Bytes) (level : Level) (mask : Bytes)
    (alloc : Bool) :
    ClockRun topHlc store.hlc (validStamp store (AccessStore.validateTarget channel mask))
      (store.remove channel level mask alloc).2.hlc := by
  unfold AccessStore.remove
  cases AccessStore.validateTarget channel mask with
  | error e => exact ClockRun.refl store.hlc
  | ok value =>
    obtain ⟨-, hclock⟩ :=
      record_clock store.nextHlc.2 (removeMark store channel level mask) alloc
    have hhlc := hclock.hlc
    rw [removeMark] at hhlc
    dsimp only
    split
    · exact hhlc ▸ issue_one store
    · rw [AccessStore.removeRow]
      exact hhlc ▸ issue_one store

theorem clear_stamps (hwf : WellFormed store) (selector : Selector) (alloc : Nat → Bool) :
    ClockRun topHlc store.hlc (clearStamps store selector) (store.clear selector alloc).2.hlc := by
  have hsweep :=
    (sweep_step (LocalStep.nextHlc hwf).wellFormed (fun _ => rfl) (fun _ => rfl) alloc 0 :
    SweepStep selector.matches (AccessStore.localMark store.nextHlc.1 store.localNode) _ _)
  unfold clearStamps AccessStore.clear
  cases validateSelector selector with
  | error e => exact ClockRun.refl store.hlc
  | ok value => exact hsweep.clock.hlc ▸ issue_one store

theorem copyFrom_stamps (hwf : WellFormed store) (destination source : Bytes) (mode : CopyMode)
    (allocs : AccessStore.CopyAllocs) :
    ClockRun topHlc store.hlc (copyFromStamps store destination source mode allocs)
      (store.copyFrom destination source mode allocs).2.hlc := by
  unfold copyFromStamps AccessStore.copyFrom
  cases AccessStore.validateCopy destination source with
  | error e => exact ClockRun.refl store.hlc
  | ok value =>
    have hclear : ClockRun topHlc store.hlc
        (match mode with
          | .replace => clearStamps store ⟨destination, none, none⟩
          | .merge => []) (store.clearFirst destination mode allocs.clear).2.hlc := by
      cases mode with
      | merge => exact ClockRun.refl _
      | replace => exact clear_stamps hwf _ _
    refine hclear.trans ?_
    generalize store.clearFirst destination mode allocs.clear = cleared
    obtain ⟨answer, middle⟩ := cleared
    cases answer with
    | error e => exact ClockRun.refl _
    | ok removed =>
      dsimp only
      unfold templateStamps AccessStore.copyTemplate
      dsimp only
      split
      · exact ClockRun.refl _
      split
      · exact ClockRun.refl _
      have hrows := copyRows_stamps destination allocs.write
        ((middle.template source).map (middle.stagedRow destination)) 0 middle
      split
      · rename_i e next hcopy
        rw [hcopy] at hrows
        exact hrows
      · rename_i copied next hcopy
        rw [hcopy] at hrows
        exact hrows

variable {answer : Except StoreError ApplyOutcome}

theorem MergeStep.clock {fact : RemoteFact} {lapsed : Bool}
    (h : MergeStep store fact lapsed answer next) :
    SameClock store next := by
  cases h with
  | failed e next habove hclock hrows hsub => exact hclock
  | staleMarker => exact SameClock.refl store
  | staleRow => exact SameClock.refl store
  | applied row next hpresent hlapsed habove hput => exact hput.clock
  | deleted next hgone habove hbury hknown => exact hbury.clock

theorem applyRemote_stamps (hwf : WellFormed store) (fact : RemoteFact) (alloc : Bool) :
    ClockRun topHlc store.hlc (acceptedStamps store fact)
      (store.applyRemote fact alloc).2.hlc := by
  unfold acceptedStamps AccessStore.applyRemote
  cases AccessStore.validateFact fact with
  | error e => exact ClockRun.refl store.hlc
  | ok value =>
    dsimp only
    split
    · exact ClockRun.refl _
    · rw [(merge_step (hwf.observe fact.hlc) fact (store.originLapsed fact) alloc).clock.hlc]
      exact .accepted (.refl _)

/-- Every operation runs the clock over the stamps that it issues and accepts. -/
theorem step_stamps (hwf : WellFormed store) (op : Op) :
    ClockRun topHlc store.hlc (stamps store op) (step store op).2.hlc := by
  cases op with
  | setClock nowSeconds => exact ClockRun.refl _
  | add channel level mask setBy duration alloc =>
    exact add_stamps store channel level mask setBy duration alloc
  | remove channel level mask alloc => exact remove_stamps store channel level mask alloc
  | clear selector alloc => exact clear_stamps hwf selector alloc
  | copyFrom destination source mode allocs =>
      exact copyFrom_stamps hwf destination source mode allocs
  | applyRemote fact alloc => exact applyRemote_stamps hwf fact alloc
  | pruneExpired alloc =>
    have hclock := (prune_step hwf alloc).clock
    show ClockRun topHlc store.hlc [] (store.pruneExpired alloc).2.hlc
    rw [hclock.hlc]
    exact ClockRun.refl _
  | reanchorTimedExpiries =>
    show ClockRun topHlc store.hlc [] store.reanchorTimedExpiries.2.hlc
    unfold AccessStore.reanchorTimedExpiries
    split <;> exact ClockRun.refl _

/-- The stamps of a run, in order. -/
def runStamps (run : List (Visit AccessStore Op Answer)) : List (Stamp UInt64) :=
  run.flatMap fun v => stamps v.before v.input

variable {fact : RemoteFact} {X : Identity} {stamp node : UInt64}

/-- Nothing kept of the identity ranks below `r`. -/
structure Floor (r : Rank) (X : Identity) (store : AccessStore) : Prop where
  row : ∀ e ∈ store.entries, e.identity = X → r ≤ e.rank
  marker : ∀ t ∈ store.tombstones, t.identity = X → r ≤ t.rank

theorem rank_mono {hlc hlc' : UInt64} (h : hlc ≤ hlc') (node : UInt64) :
    rank hlc node ≤ rank hlc' node := by
  rcases h.lt_or_eq with hlt | rfl
  · exact (rank_lt_of_hlc_lt hlt).le
  · exact le_refl _

theorem LocalStep.floor (h : LocalStep store next) (hstamp : stamp ≤ store.hlc)
    (hfloor : Floor (rank stamp store.localNode) X store) :
    Floor (rank stamp store.localNode) X next where
  row e he hkey := by
    rcases h.rows e he with ⟨old, hold, heq⟩ | hlocal
    · rw [heq] at hkey ⊢
      exact hfloor.row old hold hkey
    · rw [Entry.rank, hlocal.node]
      exact rank_mono (hstamp.trans hlocal.hlc) _
  marker t ht hkey := by
    rcases h.markers t ht with hold | hlocal
    · exact hfloor.marker t hold hkey
    rcases hlocal.stamp with ⟨hnode, hhlc⟩ | ⟨row, hrow, hkey', hrank⟩
    · rw [Tombstone.rank, hnode]
      exact rank_mono (hstamp.trans hhlc) _
    · rw [hrank]
      exact hfloor.row row hrow (hkey'.symm.trans hkey)

/-- A fact that outranks all that is kept of a known identity is above its floor. -/
theorem Outranks.above {r : Rank} (h : Outranks fact store) (hknown : Known store X)
    (hfloor : Floor r X store) (hkey : fact.identity = X) : r < fact.rank := by
  rcases hknown with ⟨e, he, hX⟩ | ⟨t, ht, hX⟩
  · exact (hfloor.row e he hX).trans_lt (h.row e he (hX.trans hkey.symm))
  · exact (hfloor.marker t ht hX).trans_lt (h.marker t ht (hX.trans hkey.symm))

theorem MergeStep.floor {lapsed : Bool} {r : Rank}
    (h : MergeStep store fact lapsed answer next) (hknown : Known store X)
    (hfloor : Floor r X store) : Floor r X next := by
  cases h with
  | failed e next habove hclock hrows hsub =>
    exact ⟨fun e he => hfloor.row e (hrows ▸ he), fun t ht => hfloor.marker t (hsub.subset ht)⟩
  | staleMarker => exact hfloor
  | staleRow => exact hfloor
  | applied row next hpresent hlapsed habove hput =>
    refine ⟨fun e he hkey => ?_, fun t ht => hfloor.marker t ((hput.markers t).mp ht).1⟩
    rcases (hput.rows e).mp he with rfl | ⟨hold, -⟩
    · have hrank : e.rank = fact.rank := by
        rw [Entry.rank, hput.wrote.hlc, hput.wrote.originNode]
        rfl
      rw [hrank]
      exact (habove.above hknown hfloor (hput.wrote.identity.symm.trans hkey)).le
    · exact hfloor.row e hold hkey
  | deleted next hgone habove hbury hafter =>
    refine ⟨fun e he => hfloor.row e ((hbury.rows e).mp he).1, fun t ht hkey => ?_⟩
    cases hbury.markers t ht with
    | other hmem _ => exact hfloor.marker t hmem hkey
    | kept hmem _ _ => exact hfloor.marker t hmem hkey
    | new hmarked =>
      rw [hmarked.rank]
      exact (habove.above hknown hfloor (hmarked.identity.symm.trans hkey)).le

/-- The floor of a local write, beside what makes it last. -/
structure Held (stamp node : UInt64) (X : Identity) (store : AccessStore) : Prop where
  wellFormed : WellFormed store
  localNode : store.localNode = node
  stamp_le : stamp ≤ store.hlc
  floor : Floor (rank stamp node) X store
  known : Known store X

theorem Held.step (h : Held stamp node X store) (op : Op)
    (hknown : Known (Access.step store op).2 X) :
    Held stamp node X (Access.step store op).2 := by
  have hwf := step_wellFormed store op h.wellFormed
  have hnode := h.localNode
  subst hnode
  by_cases hop : ∃ fact alloc, op = .applyRemote fact alloc
  · obtain ⟨fact, alloc, rfl⟩ := hop
    rcases remote_step h.wellFormed fact alloc with ⟨e, he⟩ | ⟨-, -, hmerge⟩
    · show Held stamp store.localNode X (store.applyRemote fact alloc).2
      rw [he]
      exact h
    · have hstamps := (step_stamps h.wellFormed (.applyRemote fact alloc)).le
      have hfloor : Floor (rank stamp store.localNode) X (store.observeHlc fact.hlc) :=
        ⟨h.floor.row, h.floor.marker⟩
      exact ⟨hwf, hmerge.clock.localNode, h.stamp_le.trans hstamps,
        hmerge.floor h.known hfloor, hknown⟩
  · have hlocal := step_local h.wellFormed fun fact alloc heq => hop ⟨fact, alloc, heq⟩
    exact ⟨hwf, hlocal.localNode, h.stamp_le.trans hlocal.hlc,
      hlocal.floor h.stamp_le h.floor, hknown⟩

/-- A local add, remove or clear that succeeds on the identity. -/
def LocalWrite (store : AccessStore) (op : Op) (X : Identity) : Prop :=
  match op with
  | .add channel level mask _ _ _ =>
    identity channel level mask = X ∧ (step store op).1 = .ok .done
  | .remove channel level mask _ =>
    identity channel level mask = X ∧ ∃ found, (step store op).1 = .ok (.removed found)
  | .clear selector _ =>
    (∃ row ∈ store.entries, selector.matches row = true ∧ row.identity = X) ∧
      ∃ count, (step store op).1 = .ok (.counted count)
  | _ => False

theorem BuryStep.floor {m : Mark} (h : BuryStep store m next) : Floor m.rank m.identity next where
  row e he hkey := absurd hkey ((h.rows e).mp he).2
  marker t ht hkey := by
    cases h.markers t ht with
    | other _ hne => exact absurd hkey hne
    | kept _ _ hle => exact hle
    | new hmarked => exact hmarked.rank.ge

theorem PutStep.floor {w : Write} {row : Entry} (h : PutStep store w row next) :
    Floor (rank w.hlc w.originNode) w.identity next where
  row e he hkey := by
    rcases (h.rows e).mp he with rfl | ⟨-, hne⟩
    · rw [Entry.rank, h.wrote.hlc, h.wrote.originNode]
    · exact absurd hkey hne
  marker t ht hkey := absurd hkey ((h.markers t).mp ht).2

theorem SweepStep.floor {selects : Entry → Bool} {stamp node : UInt64} {row : Entry}
    (h : SweepStep selects (AccessStore.localMark stamp node) store next) (hwf : WellFormed store)
    (hrow : row ∈ store.entries) (hselect : selects row = true) :
    Floor (rank stamp node) row.identity next where
  row e he hkey := by
    obtain ⟨hold, hkept⟩ := (h.rows e).mp he
    rw [hwf.rows.eq_of_key hold hrow hkey, hselect] at hkept
    cases hkept
  marker t ht hkey := by
    rcases h.markers t ht with hold | ⟨old, -, -, hmarked⟩
    · exact absurd hkey.symm (hwf.apart row hrow t hold)
    · exact hmarked.rank.ge

/-- After a local write nothing kept of its identity ranks below it. -/
theorem LocalWrite.floor (hwf : WellFormed store) {op : Op} (h : LocalWrite store op X) :
    Floor (rank store.nextHlc.1 store.localNode) X (step store op).2 ∧
      store.nextHlc.1 ≤ (step store op).2.hlc ∧ (step store op).2.localNode = store.localNode := by
  cases op with
  | add channel level mask setBy duration alloc =>
    obtain ⟨rfl, hok⟩ := h
    rcases add_step hwf channel level mask setBy duration alloc with
      ⟨e, he, -⟩ | ⟨-, row, hput⟩
    · simp only [step, he] at hok
      cases hok
    · exact ⟨hput.floor, hput.clock.hlc.ge, hput.clock.localNode⟩
  | remove channel level mask alloc =>
    obtain ⟨rfl, found, hok⟩ := h
    rcases remove_step hwf channel level mask alloc with ⟨e, he⟩ | ⟨-, hbury⟩
    · simp only [step, he] at hok
      cases hok
    · exact ⟨hbury.floor, hbury.clock.hlc.ge, hbury.clock.localNode⟩
  | clear selector alloc =>
    obtain ⟨⟨row, hrow, hselect, rfl⟩, count, hok⟩ := h
    rcases clear_step hwf selector alloc with ⟨e, he⟩ | ⟨-, hsweep⟩
    · simp only [step, he] at hok
      cases hok
    · exact ⟨hsweep.floor (LocalStep.nextHlc hwf).wellFormed hrow hselect, hsweep.clock.hlc.ge,
        hsweep.clock.localNode⟩
  | _ => exact h.elim

/-- The run inspected the fact: it was valid and not too far ahead. -/
def Inspected (run : List (Visit AccessStore Op Answer)) (fact : RemoteFact) : Prop :=
  ∃ v ∈ run, (∃ alloc, v.input = .applyRemote fact alloc) ∧
    acceptedStamps v.before fact = [.accepted fact.hlc]

theorem Inspected.met {run : List (Visit AccessStore Op Answer)} (h : Inspected run fact) :
    .accepted fact.hlc ∈ runStamps run := by
  obtain ⟨v, hv, ⟨alloc, hinput⟩, haccepted⟩ := h
  refine List.mem_flatMap.mpr ⟨v, hv, ?_⟩
  rw [hinput, stamps, haccepted]
  exact List.mem_singleton_self _

end OnyxServer.Access
