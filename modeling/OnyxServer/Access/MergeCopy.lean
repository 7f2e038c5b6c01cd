import OnyxServer.Access.TemplateCopy

/-!
# What a copy keeps

A merging copy writes every live row of the source, also over a row that the destination has:
such a row gets the setter of the source row and a new stamp. Only a store whose clock is at its
top may write what is there already.
-/
namespace OnyxServer.Access

open Lib Text List

variable {store next : AccessStore} {destination source : Bytes} {mode : CopyMode}

def BehindClock (store : AccessStore) : Prop := ∀ e ∈ store.entries, e.hlc ≤ store.hlc

section

variable (h : BehindClock store)
include h

theorem BehindClock.mono (hrows : ∀ e ∈ next.entries, e ∈ store.entries)
    (hhlc : store.hlc ≤ next.hlc) : BehindClock next := fun e he => (h e (hrows e he)).trans hhlc

theorem BehindClock.nextHlc : BehindClock store.nextHlc.2 :=
  h.mono (fun _ he => he) (le_nextHlc store)

theorem BehindClock.put {w : Write} {row : Entry} (hput : PutStep store w row next)
    (hhlc : w.hlc ≤ store.hlc) : BehindClock next := by
  intro e he
  rw [hput.clock.hlc]
  rcases (hput.rows e).mp he with rfl | ⟨hold, -⟩
  · rw [hput.wrote.hlc]
    exact hhlc
  · exact h e hold

theorem BehindClock.sweep {selects : Entry → Bool} {mark : Entry → Mark}
    (hsweep : SweepStep selects mark store next) : BehindClock next :=
  h.mono (fun e he => ((hsweep.rows e).mp he).1) hsweep.clock.hlc.ge

theorem BehindClock.bury {m : Mark} (hbury : BuryStep store m next) : BehindClock next :=
  h.mono (fun e he => ((hbury.rows e).mp he).1) hbury.clock.hlc.ge

end

section

variable (hwf : WellFormed store) (h : BehindClock store)
include hwf h

theorem add_behind (channel : Bytes) (level : Level)
    (mask setBy : Bytes) (duration : Option UInt64) (alloc : Bool) :
    BehindClock (store.add channel level mask setBy duration alloc).2 := by
  unfold AccessStore.add
  split
  · exact h
  dsimp only
  split
  · rename_i e middle hfail
    obtain rfl := upsert_failed hfail
    exact h.nextHlc
  · rename_i middle hput
    obtain ⟨row, hstep⟩ := put_step (LocalStep.nextHlc hwf).wellFormed hput
    exact h.nextHlc.put hstep (UInt64.le_refl _)

theorem clear_behind (selector : Selector) (alloc : Nat → Bool) :
    BehindClock (store.clear selector alloc).2 := by
  rcases clear_step hwf selector alloc with ⟨e, he⟩ | ⟨-, hsweep⟩
  · rw [he]
    exact h
  · exact h.nextHlc.sweep hsweep

theorem copyRows_behind {alloc : Nat → Bool} {staged : List Entry} {copied : Nat}
    : BehindClock (AccessStore.copyRows destination alloc staged copied store).2 := by
  induction staged generalizing store copied with
  | nil => exact h
  | cons row staged ih =>
    unfold AccessStore.copyRows
    dsimp only
    split
    · rename_i e middle hfail
      obtain rfl := upsert_failed hfail
      exact h.nextHlc
    · rename_i middle hput
      obtain ⟨written, hstep⟩ := put_step (LocalStep.nextHlc hwf).wellFormed hput
      exact ih hstep.wellFormed (h.nextHlc.put hstep (UInt64.le_refl _))

theorem copyTemplate_behind (removed : Nat)
    (allocs : AccessStore.CopyAllocs) :
    BehindClock (store.copyTemplate destination source removed allocs).2 := by
  have hcopy : BehindClock (AccessStore.copyRows destination allocs.write
      ((store.template source).map (store.stagedRow destination)) 0 store).2 :=
        copyRows_behind hwf h
  unfold AccessStore.copyTemplate
  dsimp only
  split
  · exact h
  split
  · exact h
  split
  · rename_i e last hfail
    rwa [hfail] at hcopy
  · rename_i copied last hok
    rwa [hok] at hcopy

theorem copyFrom_behind (allocs : AccessStore.CopyAllocs) :
    BehindClock (store.copyFrom destination source mode allocs).2 := by
  have hclear : BehindClock (store.clearFirst destination mode allocs.clear).2 := by
    cases mode with
    | merge => exact h
    | replace => exact clear_behind hwf h _ _
  have hlocal := clearFirst_local hwf destination mode allocs.clear
  unfold AccessStore.copyFrom
  split
  · exact h
  split
  · rename_i e middle hfail
    rwa [hfail] at hclear
  · rename_i removed middle hok
    rw [hok] at hclear hlocal
    exact copyTemplate_behind hlocal.wellFormed hclear removed allocs

end

theorem merge_behind {fact : RemoteFact} {lapsed : Bool} {answer : Except StoreError ApplyOutcome}
    (h : BehindClock store)
    (hmerge : MergeStep (store.observeHlc fact.hlc) fact lapsed answer next) :
    BehindClock next := by
  have hobserved : BehindClock (store.observeHlc fact.hlc) :=
    h.mono (fun _ he => he) (le_max_left _ _)
  cases hmerge with
  | failed e next habove hclock hrows hsub =>
      exact hobserved.mono (fun _ he => hrows ▸ he) hclock.hlc.ge
  | staleMarker => exact hobserved
  | staleRow => exact hobserved
  | applied row next hpresent hlapsed habove hput => exact hobserved.put hput (le_max_right _ _)
  | deleted next hgone habove hbury hknown => exact hobserved.bury hbury

theorem step_behind (op : Op) (hwf : WellFormed store) (h : BehindClock store) :
    BehindClock (step store op).2 := by
  cases op with
  | setClock nowSeconds => exact h
  | add channel level mask setBy duration alloc =>
      exact add_behind hwf h channel level mask setBy duration alloc
  | remove channel level mask alloc =>
    show BehindClock (store.remove channel level mask alloc).2
    rcases remove_step hwf channel level mask alloc with ⟨e, he⟩ | ⟨-, hbury⟩
    · rw [he]
      exact h
    · exact h.nextHlc.bury hbury
  | clear selector alloc => exact clear_behind hwf h selector alloc
  | copyFrom destination source mode allocs => exact copyFrom_behind hwf h allocs
  | applyRemote fact alloc =>
    show BehindClock (store.applyRemote fact alloc).2
    rcases remote_step hwf fact alloc with ⟨e, he⟩ | ⟨-, -, hmerge⟩
    · rw [he]
      exact h
    · exact merge_behind h hmerge
  | pruneExpired alloc => exact h.sweep (prune_step hwf alloc)
  | reanchorTimedExpiries =>
    show BehindClock store.reanchorTimedExpiries.2
    unfold AccessStore.reanchorTimedExpiries
    split
    · exact h
    · intro e he
      obtain ⟨old, hold, rfl⟩ := mem_map.mp he
      exact h old hold

theorem Reachable.behindClock (h : Reachable store) : BehindClock store := by
  obtain ⟨maxEntries, maxTombstones, ttl, localNode, ops, rfl⟩ := h
  have hboth :
      WellFormed (final step (AccessStore.init maxEntries maxTombstones ttl localNode) ops) ∧
      BehindClock (final step (AccessStore.init maxEntries maxTombstones ttl localNode) ops) :=
    final_invariant (P := fun store => WellFormed store ∧ BehindClock store)
      (fun store op h => ⟨step_wellFormed store op h.1, step_behind op h.1 h.2⟩)
      ⟨wellFormed_init _ _ _ _, nofun⟩ ops
  exact hboth.2

/-- The destination has no row for a row of the source. -/
def Missing (store : AccessStore) (destination : Bytes) (src : Entry) : Prop :=
  ∀ old ∈ store.entries, old.identity ≠ identity destination src.level src.mask

/-- What a merging copy is meant to do. -/
structure MergeKeeps (store next : AccessStore) (destination source : Bytes) : Prop where
  kept : ∀ old ∈ store.entries, eqlIgnoreCase destination old.channel = true → old ∈ next.entries
  added : ∀ e ∈ next.entries, eqlIgnoreCase destination e.channel = true → e ∈ store.entries ∨
    ∃ src ∈ store.template source, Missing store destination src ∧
      CopyOf store (store.stagedRow destination src) e
  complete : ∀ src ∈ store.template source, Missing store destination src →
    ∃ e ∈ next.entries, CopyOf store (store.stagedRow destination src) e
  others : ∀ e, eqlIgnoreCase destination e.channel = false → (e ∈ next.entries ↔ e ∈ store.entries)

/-- What a copy is meant to do in either mode. -/
structure CopyKeeps (store next : AccessStore) (destination source : Bytes) (mode : CopyMode) :
    Prop where
  merge : mode = .merge → MergeKeeps store next destination source
  replace : mode = .replace →
    ((next.template destination).map Entry.rowKey).Perm ((store.template source).map Entry.rowKey)

/-- The row is what copying the row of the source writes when the clock is at its top. -/
structure AlreadyCopied (store : AccessStore) (src old : Entry) : Prop where
  clock : store.hlc = topHlc
  hlc : old.hlc = topHlc
  originNode : old.originNode = store.localNode
  originProof : old.originProof = none
  setBy : old.setBy = src.setBy
  duration : old.duration = store.stampDuration (store.remainingDuration src) topHlc
  expiresAt : old.expiresAt = anchoredExpiry store.nowSeconds topHlc old.duration

/-- A row of the destination that has the level and the mask of a live row of the source is its
copy already. -/
def Apart (store : AccessStore) (destination source : Bytes) : Prop :=
  ∀ src ∈ store.template source, ∀ old ∈ store.entries,
    old.identity = identity destination src.level src.mask → AlreadyCopied store src old

theorem identity_channel {e : Entry} {level : Level} {mask : Bytes}
    (h : e.identity = identity destination level mask) :
    eqlIgnoreCase destination e.channel = true :=
  eqlIgnoreCase_iff.mpr (congrArg Identity.channel h).symm

variable {src e : Entry}

theorem CopyOf.identity_eq (h : CopyOf store (store.stagedRow destination src) e) :
    e.identity = identity destination src.level src.mask := h.identity

theorem CopyOf.rowKey (h : CopyOf store (store.stagedRow destination src) e) :
    e.rowKey = src.rowKey :=
  Prod.ext (congrArg Identity.level h.identity_eq) (congrArg Identity.mask h.identity_eq)

/-- Writing over a row that is the copy already changes nothing. -/
theorem CopyOf.eq_old {src old e : Entry} (h : CopyOf store (store.stagedRow destination src) e)
    (hold : old ∈ store.entries) (hsame : old.identity = identity destination src.level src.mask)
    (halready : AlreadyCopied store src old) : e = old := by
  obtain ⟨hchannel, hmask⟩ := h.kept old hold hsame
  have hlevel : e.level = old.level := congrArg Identity.level (h.identity_eq.trans hsame.symm)
  have hhlc : e.hlc = topHlc := by
    rcases h.stamp with habove | ⟨-, htop⟩
    · rw [halready.clock] at habove
      exact absurd (UInt64.lt_iff_toNat_lt.mp habove) (Nat.not_lt.mpr (toNat_le_maxU64 e.hlc))
    · exact htop
  have hduration : e.duration = old.duration := by
    rw [h.duration, halready.duration, hhlc]
    rfl
  have hexpiry :
      e.expiresAt = old.expiresAt := by rw [h.expiresAt, halready.expiresAt, hhlc, hduration]
  have hsetBy : e.setBy = old.setBy := h.setBy.trans halready.setBy.symm
  have hnode : e.originNode = old.originNode := h.originNode.trans halready.originNode.symm
  have hproof : e.originProof = old.originProof := h.originProof.trans halready.originProof.symm
  have hstamp : e.hlc = old.hlc := hhlc.trans halready.hlc.symm
  cases e
  cases old
  simp only [Entry.mk.injEq] at *
  exact ⟨hchannel, hlevel, hmask, hsetBy, hduration, hexpiry, hstamp, hnode, hproof⟩

/-- A row that is still there after it was written over was the copy already. -/
theorem CopyOf.already {src old : Entry} (h : CopyOf store (store.stagedRow destination src) old)
    (hbehind : BehindClock store) (hold : old ∈ store.entries) : AlreadyCopied store src old := by
  rcases h.stamp with habove | ⟨hclock, htop⟩
  · exact absurd habove (not_lt.mpr (hbehind old hold))
  refine ⟨hclock, htop, h.originNode, h.originProof, h.setBy, ?_, ?_⟩
  · rw [h.duration, htop]
    rfl
  · rw [h.expiresAt, htop]

theorem mergeKeeps_iff (hwf : WellFormed store) (hbehind : BehindClock store)
    (hall : CopiedAll store ((store.template source).map (store.stagedRow destination)) next) :
    MergeKeeps store next destination source ↔ Apart store destination source := by
  constructor
  · intro hkeeps src hsrc old hold hsame
    have hlast := hkeeps.kept old hold (identity_channel hsame)
    rcases hall.only old hlast with ⟨row, hrow, hcopy⟩ | ⟨-, hnone⟩
    · have hkey : row.identity = (store.stagedRow destination src).identity :=
        hcopy.identity.symm.trans hsame
      obtain rfl :=
        (staged_distinct hwf destination source).eq_of_key hrow (mem_map_of_mem hsrc) hkey
      exact hcopy.already hbehind hold
    · exact absurd hsame.symm (hnone _ (mem_map_of_mem hsrc))
  · intro hapart
    have hkept : ∀ old ∈ store.entries, old ∈ next.entries := fun old hold => by
      by_cases hshared : ∃ src ∈ store.template source, old.identity =
        identity destination src.level src.mask
      · obtain ⟨src, hsrc, hsame⟩ := hshared
        obtain ⟨e, he, hcopy⟩ := hall.written _ (mem_map_of_mem hsrc)
        rwa [← hcopy.eq_old hold hsame (hapart src hsrc old hold hsame)]
      · refine hall.kept old hold fun row hrow hsame => hshared ?_
        obtain ⟨src, hsrc, rfl⟩ := mem_map.mp hrow
        exact ⟨src, hsrc, hsame.symm⟩
    refine ⟨fun old hold _ => hkept old hold, fun e he _ => ?_, fun src hsrc _ => ?_,
      fun e hother => ⟨fun he => ?_, hkept e⟩⟩
    · rcases hall.only e he with ⟨row, hrow, hcopy⟩ | ⟨hold, -⟩
      · obtain ⟨src, hsrc, rfl⟩ := mem_map.mp hrow
        by_cases hmissing : Missing store destination src
        · exact .inr ⟨src, hsrc, hmissing, hcopy⟩
        simp only [Missing, not_forall, not_not] at hmissing
        obtain ⟨old, hold, hsame⟩ := hmissing
        rw [hcopy.eq_old hold hsame (hapart src hsrc old hold hsame)]
        exact .inl hold
      · exact .inl hold
    · exact hall.written _ (mem_map_of_mem hsrc)
    · rcases hall.only e he with ⟨row, hrow, hcopy⟩ | ⟨hold, -⟩
      · obtain ⟨src, -, rfl⟩ := mem_map.mp hrow
        rw [identity_channel hcopy.identity_eq] at hother
        cases hother
      · exact hold

theorem Copied.live (hsrc : src ∈ store.template source)
    (h : Copied store (store.stagedRow destination src) e) : store.isExpired e = false := by
  have hremaining : (store.stagedRow destination src).duration = store.remainingDuration src := rfl
  cases hexpiry : src.expiresAt with
  | none =>
    have hduration : e.duration = none := by
      rw [h.duration, hremaining, AccessStore.remainingDuration, hexpiry]
      rfl
    have hnone : e.expiresAt = none := by
      rw [h.expiresAt, hduration]
      rfl
    simp only [AccessStore.isExpired, isExpiredAt, hnone]
  | some expiry =>
    have hlive := template_live hsrc hexpiry
    by_cases hnow : store.nowSeconds = 0
    · have hduration : e.duration = src.duration := by
        rw [h.duration, hremaining, AccessStore.remainingDuration, hexpiry]
        cases hd : src.duration <;> simp [AccessStore.stampDuration, hnow]
      cases hd : src.duration with
      | none =>
        have hnone : e.expiresAt = none := by
          rw [h.expiresAt, hduration, hd]
          rfl
        simp only [AccessStore.isExpired, isExpiredAt, hnone]
      | some d =>
        have hanchored : e.expiresAt = if d = 0 then none else some (satAdd 0 d) := by
          rw [h.expiresAt, hduration, hd, hnow]
          simp only [anchoredExpiry, computeExpiry]
          split <;> rfl
        by_cases hzero : d = 0
        · simp [AccessStore.isExpired, isExpiredAt, hanchored, hzero]
        have hsum : (satAdd 0 d).toNat = d.toNat := by
          have hmax := toNat_le_maxU64 d
          have hz : (0 : UInt64).toNat = 0 := rfl
          rw [satAdd_toNat, hz]
          omega
        have hlater : ¬ satAdd 0 d ≤ 0 := fun hle => hzero (UInt64.toNat_inj.mp (by
          have hle' := UInt64.le_iff_toNat_le.mp hle
          have hz : (0 : UInt64).toNat = 0 := rfl
          omega))
        simp [AccessStore.isExpired, isExpiredAt, hanchored, hzero, hnow, hlater]
    · have htimed := h.timed hnow hexpiry hlive
      have hlater : ¬ max expiry (e.hlc / 1000 + 1) ≤ store.nowSeconds :=
        not_le.mpr (lt_of_lt_of_le hlive (le_max_left _ _))
      simp [AccessStore.isExpired, isExpiredAt, htimed, hlater]

theorem replace_perm (hcleared : ∀ e ∈ store.entries, eqlIgnoreCase destination e.channel = false)
    (hall : CopiedAll store ((store.template source).map (store.stagedRow destination)) next)
    (hwf : WellFormed store) :
    ((next.template destination).map Entry.rowKey).Perm
      ((store.template source).map Entry.rowKey) := by
  refine (perm_ext_iff_of_nodup (template_keys_nodup hall.wellFormed destination)
    (template_keys_nodup hwf source)).mpr fun key => ?_
  simp only [mem_map]
  constructor
  · rintro ⟨e, he, rfl⟩
    rcases hall.only e (mem_filter.mp he).1 with ⟨row, hrow, hcopy⟩ | ⟨hold, -⟩
    · obtain ⟨src, hsrc, rfl⟩ := mem_map.mp hrow
      exact ⟨src, hsrc, hcopy.rowKey.symm⟩
    · have hother := hcleared e hold
      rw [eqlIgnoreCase_iff.mpr (template_channel he).symm] at hother
      cases hother
  · rintro ⟨src, hsrc, rfl⟩
    obtain ⟨e, he, hcopy⟩ := hall.written _ (mem_map_of_mem hsrc)
    refine ⟨e, mem_filter.mpr ⟨he, Bool.and_eq_true_iff.mpr ⟨?_, ?_⟩⟩, hcopy.rowKey⟩
    · have hlive := hcopy.live hsrc
      simp only [AccessStore.isExpired, hall.nowSeconds] at hlive ⊢
      rw [hlive]
      rfl
    · exact eqlIgnoreCase_iff.mpr (congrArg Identity.channel hcopy.identity_eq)

/-- A copy that succeeds does what it is meant to, in every reachable store, if and only if it
replaces or finds no row to write over. -/
theorem copyFrom_keeps_iff (hstore : Reachable store) {allocs : AccessStore.CopyAllocs}
    {result : CopyResult} (hok : (store.copyFrom destination source mode allocs).1 = .ok result) :
    CopyKeeps store (store.copyFrom destination source mode allocs).2 destination source mode ↔
      (mode = .merge → Apart store destination source) := by
  have hwf := hstore.wellFormed
  unfold AccessStore.copyFrom at hok ⊢
  cases hvalid : AccessStore.validateCopy destination source with
  | error e =>
    rw [hvalid] at hok
    cases hok
  | ok =>
    simp only [hvalid] at hok ⊢
    cases mode with
    | merge =>
      have hall := copyTemplate_all hwf hok
      have hiff := mergeKeeps_iff hwf hstore.behindClock hall
      exact ⟨fun hkeeps _ => hiff.mp (hkeeps.merge rfl),
        fun hapart => ⟨fun _ => hiff.mpr (hapart rfl), nofun⟩⟩
    | replace =>
      obtain ⟨removed, middle, hclear, hstarted⟩ :=
        clearFirst_started store hvalid .replace allocs.clear
      have hlocal := clearFirst_local hwf destination .replace allocs.clear
      simp only [hclear] at hok hlocal ⊢
      have hcleared : ∀ e ∈ middle.entries, eqlIgnoreCase destination e.channel = false :=
        fun e he => by
        rw [hstarted.entries] at he
        simpa using (mem_filter.mp he).2
      have hperm := replace_perm hcleared (copyTemplate_all hlocal.wellFormed hok) hlocal.wellFormed
      rw [hstarted.template] at hperm
      exact ⟨fun _ => nofun, fun _ => ⟨nofun, fun _ => hperm⟩⟩

/-! A voice in `#a`, and in `#b` the same voice set by another or a host. -/

def twoChannels (level : Level) : AccessStore :=
  final step (AccessStore.init 8 8 604800 3)
    [.add [0x23, 0x61] .voice sampleMask [0x6E] none true,
      .add [0x23, 0x62] level sampleMask [0x6D] none true]

theorem copyFrom_keeps_iff_host :
    CopyKeeps (twoChannels .host)
    ((twoChannels .host).copyFrom [0x23, 0x62] [0x23, 0x61] .merge copyAllocs).2
      [0x23, 0x62] [0x23, 0x61] .merge :=
  have hnone : ∀ src ∈ (twoChannels .host).template [0x23, 0x61], ∀ old ∈
      (twoChannels .host).entries,
      old.identity ≠ identity [0x23, 0x62] src.level src.mask := by decide
  have hok : ((twoChannels .host).copyFrom [0x23, 0x62] [0x23, 0x61] .merge copyAllocs).1 =
      .ok ⟨1, 0⟩ := by decide
  (copyFrom_keeps_iff ⟨8, 8, 604800, 3, _, rfl⟩ hok).mpr
    fun _ src hsrc old hold hsame => absurd hsame (hnone src hsrc old hold)

/-- The merging copy of `#a` onto `#b` succeeds, and the voice of `#b` has another setter and
another stamp. -/
theorem merge_overwrites :
    Reachable (twoChannels .voice) ∧
      ((twoChannels .voice).copyFrom [0x23, 0x62] [0x23, 0x61] .merge copyAllocs).1 = .ok ⟨1, 0⟩ ∧
      (twoChannels .voice).entries.map (fun e => (e.setBy, e.hlc)) = [([0x6E], 1), ([0x6D], 2)] ∧
      ((twoChannels .voice).copyFrom [0x23, 0x62] [0x23, 0x61] .merge copyAllocs).2.entries.map
        (fun e => (e.setBy, e.hlc)) = [([0x6E], 1), ([0x6E], 3)] ∧
      ¬ MergeKeeps (twoChannels .voice)
        ((twoChannels .voice).copyFrom [0x23, 0x62] [0x23, 0x61] .merge copyAllocs).2 [0x23, 0x62]
        [0x23, 0x61] := by
  refine ⟨⟨8, 8, 604800, 3, _, rfl⟩, by decide, by decide, by decide, fun hkeeps => ?_⟩
  have hgone : ¬ ∀ old ∈ (twoChannels .voice).entries,
      eqlIgnoreCase [0x23, 0x62] old.channel = true → old ∈
        ((twoChannels .voice).copyFrom [0x23, 0x62] [0x23, 0x61] .merge copyAllocs).2.entries := by
    decide
  exact hgone hkeeps.kept

end OnyxServer.Access
