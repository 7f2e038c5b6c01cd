import OnyxServer.Access.CopyRows
import OnyxServer.Lib.Wire

/-!
# The expiry of timed rows

The expiry of a timed row is a function of its stamp and its duration. A local write
folds the lead of its stamp over the wall clock out of the duration, so that the author
and every receiver come to one instant.
-/
namespace OnyxServer.Access

open Lib Text

variable {store next : AccessStore}

/-- A store that some run of operations leads to. -/
def Reachable (store : AccessStore) : Prop :=
  ∃ maxEntries maxTombstones ttl localNode ops,
    final step (AccessStore.init maxEntries maxTombstones ttl localNode) ops = store

theorem Reachable.wellFormed (h : Reachable store) : WellFormed store := by
  obtain ⟨maxEntries, maxTombstones, ttl, localNode, ops, rfl⟩ := h
  exact final_invariant step_wellFormed (wellFormed_init _ _ _ _) ops

/-- The row of an identity. -/
def AccessStore.row? (store : AccessStore) (key : Identity) : Option Entry :=
  store.entries.find? fun e => decide (e.identity = key)

theorem row?_some (hwf : WellFormed store) {key : Identity} {e : Entry} (hmem : e ∈ store.entries)
    (hkey : e.identity = key) : store.row? key = some e := by
  cases hfind : store.row? key with
  | none => exact absurd hkey (by simpa using List.find?_eq_none.mp hfind e hmem)
  | some e' =>
    have hkey' := List.find?_some hfind
    rw [hwf.rows.eq_of_key (List.mem_of_find?_eq_some hfind) hmem
      ((of_decide_eq_true hkey').trans hkey.symm)]

theorem row?_none {key : Identity} (h : ∀ e ∈ store.entries, e.identity ≠ key) :
    store.row? key = none :=
  List.find?_eq_none.mpr fun e he => by simpa using h e he

theorem second_succ_toNat (stamp : UInt64) : (stamp / 1000 + 1).toNat = stamp.toNat / 1000 + 1 := by
  have hlt := stamp.toNat_lt
  rw [UInt64.toNat_add, UInt64.toNat_div]
  exact Nat.mod_eq_of_lt (by show stamp.toNat / 1000 + 1 < 2 ^ 64; omega)

theorem max_toNat (a b : UInt64) : (max a b).toNat = max a.toNat b.toNat := by
  rcases le_total a b with h | h
  · rw [max_eq_right h, max_eq_right (UInt64.le_iff_toNat_le.mp h)]
  · rw [max_eq_left h, max_eq_left (UInt64.le_iff_toNat_le.mp h)]

variable {d : UInt64}

/-- A stored local duration counts from the stamp to the requested instant, or one second. -/
theorem stampDuration_spec (hnow : store.nowSeconds ≠ 0) (hd : d ≠ 0) (stamp : UInt64) :
    ∃ stored, store.stampDuration (some d) stamp = some stored ∧ stored ≠ 0 ∧
      satAdd (stamp / 1000) stored = max (satAdd store.nowSeconds d) (stamp / 1000 + 1) := by
  have hone : (1 : UInt64).toNat = 1 := rfl
  have hsecond : (stamp / 1000).toNat = stamp.toNat / 1000 := UInt64.toNat_div stamp 1000
  have hstamp := stamp.toNat_lt
  have htarget := toNat_le_maxU64 (satAdd store.nowSeconds d)
  simp only [AccessStore.stampDuration, hd, hnow, or_self, ↓reduceIte]
  by_cases hlead : stamp / 1000 < satAdd store.nowSeconds d
  · have hlt := UInt64.lt_iff_toNat_lt.mp hlead
    have hsub := UInt64.toNat_sub_of_le _ _ (UInt64.le_of_lt hlead)
    rw [if_pos hlead]
    refine ⟨_, rfl, fun hzero => ?_, ?_⟩
    · rw [hzero] at hsub
      have hz : (0 : UInt64).toNat = 0 := rfl
      omega
    · apply UInt64.toNat_inj.mp
      rw [satAdd_toNat, hsub, max_toNat, second_succ_toNat]
      omega
  · have hle := UInt64.le_iff_toNat_le.mp (UInt64.not_lt.mp hlead)
    rw [if_neg hlead]
    refine ⟨1, rfl, by decide, ?_⟩
    apply UInt64.toNat_inj.mp
    rw [satAdd_toNat, hone, max_toNat, second_succ_toNat]
    simp only [maxU64] at *
    omega

theorem anchoredExpiry_some {nowS : UInt64} (hnow : nowS ≠ 0) (hlc : UInt64)
    (hd : d ≠ 0) : anchoredExpiry nowS hlc (some d) = some (satAdd (hlc / 1000) d) := by
  simp [anchoredExpiry, hnow, hd]

/-- Two running clocks give one fact one expiry. -/
theorem anchoredExpiry_clock {nowS nowS' : UInt64} (hnow : nowS ≠ 0) (hnow' : nowS' ≠ 0)
    (hlc : UInt64) (duration : Option UInt64) :
    anchoredExpiry nowS hlc duration = anchoredExpiry nowS' hlc duration := by
  cases duration with
  | none => rfl
  | some d => simp [anchoredExpiry, hnow, hnow']

/-- A row that a local write of `d` seconds left at the clock `nowSeconds`. -/
structure TimedRow (nowSeconds d : UInt64) (row : Entry) : Prop where
  timed : ∃ stored, row.duration = some stored ∧ stored ≠ 0 ∧
    row.expiresAt = some (satAdd (row.hlc / 1000) stored)
  instant : row.expiresAt = some (max (satAdd nowSeconds d) (row.hlc / 1000 + 1))

theorem Wrote.timedRow {w : Write} {row : Entry} (hnow : store.nowSeconds ≠ 0)
    (hd : d ≠ 0) (h : Wrote w store.nowSeconds row)
    (hduration : w.duration = store.stampDuration (some d) w.hlc) :
    TimedRow store.nowSeconds d row := by
  obtain ⟨stored, hstored, hne, hinstant⟩ := stampDuration_spec hnow hd w.hlc
  rw [hstored] at hduration
  have hexpiry : row.expiresAt = some (satAdd (row.hlc / 1000) stored) := by
    rw [h.expiresAt, hduration, anchoredExpiry_some hnow w.hlc hne, h.hlc]
  refine ⟨⟨stored, h.duration.trans hduration, hne, hexpiry⟩, ?_⟩
  rw [hexpiry, h.hlc, hinstant]

theorem add_timed (hwf : WellFormed store) (hnow : store.nowSeconds ≠ 0) {channel : Bytes}
    {level : Level} {mask setBy : Bytes} (hd : d ≠ 0) {alloc : Bool}
    (hok : (store.add channel level mask setBy (some d) alloc).1 = .ok ()) :
    ∃ row, (store.add channel level mask setBy (some d) alloc).2.row?
        (identity channel level mask) = some row ∧
      row.hlc = store.nextHlc.1 ∧ TimedRow store.nowSeconds d row := by
  rcases add_step hwf channel level mask setBy (some d) alloc with ⟨e, he, -⟩ | ⟨-, row, hput⟩
  · rw [he] at hok
    cases hok
  refine ⟨row, row?_some hput.wellFormed ((hput.rows row).mpr (.inl rfl)) hput.wrote.identity,
    hput.wrote.hlc, ?_⟩
  have htimed := Wrote.timedRow (hnow : store.nextHlc.2.nowSeconds ≠ 0) hd hput.wrote rfl
  exact htimed

/-- A store that takes the fact of a row up has the row's expiry; one that buries it is past it. -/
theorem receiver_agrees {other : AccessStore} (hwf : WellFormed other) (hnow : other.nowSeconds ≠ 0)
    {row : Entry} {stored : UInt64} (hduration : row.duration = some stored) (hstored : stored ≠ 0)
    (hexpiry : row.expiresAt = some (satAdd (row.hlc / 1000) stored)) {fact : RemoteFact}
    (hpresent : fact.present = true) (hkey : fact.identity = row.identity)
    (hfact : fact.duration = row.duration) (hhlc : fact.hlc = row.hlc) (alloc : Bool) :
    ((other.applyRemote fact alloc).1 = .ok .applied →
      ∃ copy, (other.applyRemote fact alloc).2.row? row.identity = some copy ∧
        copy.expiresAt = row.expiresAt) ∧
    ((other.applyRemote fact alloc).1 = .ok .deleted →
      (other.applyRemote fact alloc).2.row? row.identity = none ∧
        isExpiredAt row other.nowSeconds = true) := by
  have hanchor : anchoredExpiry other.nowSeconds fact.hlc fact.duration = row.expiresAt := by
    rw [hfact, hduration, hhlc, anchoredExpiry_some hnow row.hlc hstored, hexpiry]
  rcases remote_step hwf fact alloc with ⟨e, he⟩ | ⟨-, -, hmerge⟩
  · rw [he]
    exact ⟨nofun, nofun⟩
  generalize other.applyRemote fact alloc = result at hmerge
  obtain ⟨answer, next⟩ := result
  cases hmerge with
  | failed e next => exact ⟨nofun, nofun⟩
  | staleMarker t => exact ⟨nofun, nofun⟩
  | staleRow e => exact ⟨nofun, nofun⟩
  | applied copy next _ hlapsed habove hput =>
    refine ⟨fun _ => ⟨copy, ?_, ?_⟩, nofun⟩
    · exact row?_some hput.wellFormed ((hput.rows copy).mpr (.inl rfl))
        (hput.wrote.identity.trans hkey)
    · rw [hput.wrote.expiresAt]
      exact hanchor
  | deleted next hgone habove hbury hknown =>
    refine ⟨nofun, fun _ => ⟨row?_none fun e he => ?_, ?_⟩⟩
    · exact hkey ▸ ((hbury.rows e).mp he).2
    · rcases hgone with hgone | hlapsed
      · rw [hpresent] at hgone
        cases hgone
      · rw [AccessStore.originLapsed, hanchor, hexpiry] at hlapsed
        rw [isExpiredAt, hexpiry]
        simpa [hnow, hpresent] using hlapsed

variable {expiry : UInt64}

/-- The copy of a live timed row expires with it, or one second from the stamp of the copy. -/
theorem Copied.timed (hnow : store.nowSeconds ≠ 0) {destination : Bytes} {src row : Entry}
    (hcopy : Copied store (store.stagedRow destination src) row)
    (hexpiry : src.expiresAt = some expiry)
    (hlive : store.nowSeconds < expiry) :
    row.expiresAt = some (max expiry (row.hlc / 1000 + 1)) := by
  have hlt := UInt64.lt_iff_toNat_lt.mp hlive
  have hsub := UInt64.toNat_sub_of_le _ _ (UInt64.le_of_lt hlive)
  have hleft : expiry - store.nowSeconds ≠ 0 := fun hzero => by
    rw [hzero] at hsub
    have hz : (0 : UInt64).toNat = 0 := rfl
    omega
  have hduration : (store.stagedRow destination src).duration =
      some (expiry - store.nowSeconds) := by
    simp only [AccessStore.stagedRow, AccessStore.remainingDuration, hexpiry, hnow, ↓reduceIte]
    rw [if_neg (UInt64.not_le.mpr hlive)]
  obtain ⟨stored, hstored, hne, hinstant⟩ := stampDuration_spec hnow hleft row.hlc
  rw [hcopy.expiresAt, hcopy.duration, hduration, hstored,
    anchoredExpiry_some hnow row.hlc hne, hinstant]
  congr 2
  apply UInt64.toNat_inj.mp
  have hmax := toNat_le_maxU64 expiry
  rw [satAdd_toNat, hsub]
  omega

theorem template_live {source : Bytes} {src : Entry} (hsrc : src ∈ store.template source)
    (hexpiry : src.expiresAt = some expiry) : store.nowSeconds < expiry := by
  have h := (Bool.and_eq_true_iff.mp (List.mem_filter.mp hsrc).2).1
  simpa [AccessStore.isExpired, isExpiredAt, hexpiry] using h

variable {destination source : Bytes} {allocs : AccessStore.CopyAllocs}

theorem copyTemplate_timed (hwf : WellFormed store) (hnow : store.nowSeconds ≠ 0)
    {removed : Nat}
    {result : CopyResult}
    (hok : (store.copyTemplate destination source removed allocs).1 = .ok result) {src : Entry}
    (hsrc : src ∈ store.template source) (hexpiry : src.expiresAt = some expiry) :
    ∃ row ∈ (store.copyTemplate destination source removed allocs).2.entries,
      row.identity = identity destination src.level src.mask ∧
        row.expiresAt = some (max expiry (row.hlc / 1000 + 1)) := by
  obtain ⟨row, hrow, hcopy⟩ := (copyTemplate_all hwf hok).written _ (List.mem_map_of_mem hsrc)
  exact ⟨row, hrow, hcopy.identity, hcopy.timed hnow hexpiry (template_live hsrc hexpiry)⟩

theorem clearFirst_keeps (hwf : WellFormed store)
    (hne : eqlIgnoreCase destination source = false) (mode : CopyMode) (alloc : Nat → Bool) :
    WellFormed (store.clearFirst destination mode alloc).2 ∧
      (store.clearFirst destination mode alloc).2.nowSeconds = store.nowSeconds ∧
      ∀ e ∈ store.template source, e ∈
        (store.clearFirst destination mode alloc).2.template source := by
  cases mode with
  | merge => exact ⟨hwf, rfl, fun _ he => he⟩
  | replace =>
    show WellFormed (store.clear ⟨destination, none, none⟩ alloc).2 ∧
      (store.clear ⟨destination, none, none⟩ alloc).2.nowSeconds = store.nowSeconds ∧
      ∀ e ∈ store.template source, e ∈
        (store.clear ⟨destination, none, none⟩ alloc).2.template source
    rcases clear_step hwf ⟨destination, none, none⟩ alloc with ⟨e, he⟩ | ⟨-, hsweep⟩
    · rw [he]
      exact ⟨hwf, rfl, fun _ he => he⟩
    have hnow : (store.clear ⟨destination, none, none⟩ alloc).2.nowSeconds = store.nowSeconds :=
      hsweep.clock.nowSeconds
    refine ⟨hsweep.wellFormed, hnow, fun e he => ?_⟩
    obtain ⟨hmem, hlive⟩ := List.mem_filter.mp he
    obtain ⟨hlive, hchannel⟩ := Bool.and_eq_true_iff.mp hlive
    refine List.mem_filter.mpr ⟨(hsweep.rows e).mpr ⟨hmem, ?_⟩, ?_⟩
    · simp only [Selector.matches, Bool.and_true, eqlIgnoreCase, decide_eq_false_iff_not]
      rw [eqlIgnoreCase_iff.mp hchannel]
      simpa [eqlIgnoreCase] using hne
    · rw [AccessStore.isExpired, hnow]
      exact Bool.and_eq_true_iff.mpr ⟨hlive, hchannel⟩

theorem validateCopy_ok
    (h : AccessStore.validateCopy destination source = .ok ()) :
    eqlIgnoreCase destination source = false := by
  obtain ⟨-, -, hrest⟩ := bind_ok h
  obtain ⟨-, -, hsame⟩ := bind_ok hrest
  cases heq : eqlIgnoreCase destination source with
  | false => rfl
  | true =>
    rw [heq] at hsame
    cases hsame

theorem copyFrom_timed (hwf : WellFormed store) (hnow : store.nowSeconds ≠ 0)
    {mode : CopyMode}
    {result : CopyResult} (hok : (store.copyFrom destination source mode allocs).1 = .ok result)
    {src : Entry} (hsrc : src ∈ store.template source)
    (hexpiry : src.expiresAt = some expiry) :
    WellFormed (store.copyFrom destination source mode allocs).2 ∧
      ∃ row ∈ (store.copyFrom destination source mode allocs).2.entries,
        row.identity = identity destination src.level src.mask ∧
          row.expiresAt = some (max expiry (row.hlc / 1000 + 1)) := by
  refine ⟨(copyFrom_local hwf destination source mode allocs).wellFormed, ?_⟩
  unfold AccessStore.copyFrom at hok ⊢
  split at hok
  · cases hok
  rename_i hvalid
  obtain ⟨hwf', hnow', hkeep⟩ := clearFirst_keeps hwf (validateCopy_ok hvalid) mode allocs.clear
  split at hok
  · cases hok
  · rename_i removed middle hclear
    rw [hclear] at hwf' hnow' hkeep
    exact copyTemplate_timed hwf' (by rw [hnow']; exact hnow) hok (hkeep src hsrc) hexpiry

/-- A local add of `d` seconds expires `d` seconds from the clock, or one second from its
stamp where that is later; every store that takes the fact up has this expiry, and one that
buries it is past it. A copied row expires no later than its source row, or one second from
its own stamp. -/
theorem timed_expiry_agrees {store : AccessStore} (hstore : Reachable store)
    (hnow : store.nowSeconds ≠ 0) :
    (∀ channel level mask setBy d alloc, d ≠ 0 →
      (store.add channel level mask setBy (some d) alloc).1 = .ok () →
      ∃ row, (store.add channel level mask setBy (some d) alloc).2.row?
          (identity channel level mask) = some row ∧
        row.hlc = store.nextHlc.1 ∧ TimedRow store.nowSeconds d row ∧
        ∀ (other : AccessStore) fact alloc', Reachable other → other.nowSeconds ≠ 0 →
          fact.present = true → fact.identity = row.identity → fact.duration = row.duration →
          fact.hlc = row.hlc →
          ((other.applyRemote fact alloc').1 = .ok .applied →
            ∃ copy, (other.applyRemote fact alloc').2.row? row.identity = some copy ∧
              copy.expiresAt = row.expiresAt) ∧
          ((other.applyRemote fact alloc').1 = .ok .deleted →
            (other.applyRemote fact alloc').2.row? row.identity = none ∧
              isExpiredAt row other.nowSeconds = true)) ∧
    ∀ destination source mode allocs result,
      (store.copyFrom destination source mode allocs).1 = .ok result →
      ∀ src ∈ store.template source, ∀ expiry, src.expiresAt = some expiry →
      ∃ row copied, (store.copyFrom destination source mode allocs).2.row?
          (identity destination src.level src.mask) = some row ∧
        row.expiresAt = some copied ∧ copied ≤ max expiry (row.hlc / 1000 + 1) := by
  have hwf := hstore.wellFormed
  constructor
  · intro channel level mask setBy d alloc hd hok
    obtain ⟨row, hrow, hhlc, htimed⟩ := add_timed hwf hnow hd hok
    refine ⟨row, hrow, hhlc, htimed, ?_⟩
    intro other fact alloc' hother hnow' hpresent hkey hduration hfact
    obtain ⟨stored, hstored, hne, hexpiry⟩ := htimed.timed
    exact receiver_agrees hother.wellFormed hnow' hstored hne hexpiry hpresent hkey hduration hfact
      alloc'
  · intro destination source mode allocs result hok src hsrc expiry hexpiry
    obtain ⟨hwf', row, hrow, hkey, hcopied⟩ := copyFrom_timed hwf hnow hok hsrc hexpiry
    exact ⟨row, _, row?_some hwf' hrow hkey, hcopied, le_refl _⟩

def sampleMask : Bytes := [0x62, 0x21, 0x2A, 0x40, 0x2A]

/-- A store whose clock stands at second 1000. -/
def clockedStore : AccessStore := final step (AccessStore.init 8 8 604800 3) [.setClock 1000]

/-- The same store with a voice of one minute in `#a`. -/
def voicedStore : AccessStore :=
  final step (AccessStore.init 8 8 604800 3)
    [.setClock 1000, .add [0x23, 0x61] .voice sampleMask [0x6E] (some 60) true]

/-- That voice as the author replicates it. -/
def voiceFact : RemoteFact :=
  { present := true, channel := [0x23, 0x61], level := .voice, mask := sampleMask, setBy := [0x6E]
    duration := some 60, hlc := 1000000, originNode := 3, originProof := none }

def voicedRow : Entry :=
  { channel := [0x23, 0x61], level := .voice, mask := sampleMask, setBy := [0x6E]
    duration := some 60, expiresAt := some 1060, hlc := 1000000, originNode := 3
    originProof := none }

theorem timed_expiry_agrees_minute :
    (∃ row, (clockedStore.add [0x23, 0x61] .voice sampleMask [0x6E] (some 60) true).2.row?
        (identity [0x23, 0x61] .voice sampleMask) = some row ∧ TimedRow 1000 60 row ∧
      ∃ copy, (clockedStore.applyRemote voiceFact true).2.row? row.identity = some copy ∧
        copy.expiresAt = row.expiresAt) ∧
    ∃ row copied, (voicedStore.copyFrom [0x23, 0x62] [0x23, 0x61] .merge
        ⟨fun _ => true, true, fun _ => true⟩).2.row? (identity [0x23, 0x62] .voice sampleMask) =
          some row ∧
      row.expiresAt = some copied ∧ copied ≤ max 1060 (row.hlc / 1000 + 1) := by
  have hclocked : Reachable clockedStore := ⟨8, 8, 604800, 3, _, rfl⟩
  constructor
  · obtain ⟨row, hrow, hhlc, htimed, hagree⟩ := (timed_expiry_agrees hclocked (by decide)).1
      [0x23, 0x61] .voice sampleMask [0x6E] 60 true (by decide) (by decide)
    obtain rfl : voicedRow = row :=
      Option.some.inj (Eq.trans (by decide) hrow)
    refine ⟨_, hrow, htimed, ?_⟩
    exact (hagree clockedStore voiceFact true hclocked (by decide) rfl (by decide) (by decide)
      (by decide)).1 (by decide)
  · exact (timed_expiry_agrees (⟨8, 8, 604800, 3, _, rfl⟩ : Reachable voicedStore) (by decide)).2
      [0x23, 0x62] [0x23, 0x61] .merge ⟨fun _ => true, true, fun _ => true⟩ ⟨1, 0⟩ (by decide)
      (voicedRow) (by decide) 1060 (by decide)

end OnyxServer.Access
