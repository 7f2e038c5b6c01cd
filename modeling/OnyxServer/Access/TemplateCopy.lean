import OnyxServer.Access.Expiry

/-!
# The capacity check of a copy

The count before the first write bounds the rows that the writes append, so no write of a
copy is refused for want of room. The clear of a replacing copy comes before the count.
-/
namespace OnyxServer.Access

open Lib Text List

variable {store next : AccessStore} {destination source : Bytes} {allocs : AccessStore.CopyAllocs}

theorem record_maxEntries (store : AccessStore) (m : Mark) (alloc : Bool) :
    (store.recordTombstone m alloc).2.maxEntries = store.maxEntries := by
  have h := record_step store m alloc
  generalize store.recordTombstone m alloc = pair at h
  obtain ⟨answer, next⟩ := pair
  cases h <;> rfl

theorem sweep_limits (selects : Entry → Bool) (mark : Entry → Mark) (alloc : Nat → Bool)
    (fuel idx removed : Nat) (store : AccessStore) :
    let next := (AccessStore.sweepRows selects mark alloc fuel idx removed store).2
    next.maxEntries = store.maxEntries ∧ SameClock store next := by
  induction fuel generalizing idx removed store with
  | zero => exact ⟨rfl, SameClock.refl store⟩
  | succ fuel ih =>
    unfold AccessStore.sweepRows
    split
    · exact ⟨rfl, SameClock.refl store⟩
    rename_i row _
    split
    · have hlimit := record_maxEntries store (mark row) (alloc removed)
      obtain ⟨-, hclock⟩ := record_clock store (mark row) (alloc removed)
      obtain ⟨hrest, hrestClock⟩ := ih idx (removed + 1)
        ((store.recordTombstone (mark row) (alloc removed)).2.removeRow idx)
      exact ⟨hrest.trans hlimit, hrestClock.hlc.trans hclock.hlc,
        hrestClock.nowSeconds.trans hclock.nowSeconds, hrestClock.localNode.trans hclock.localNode⟩
    · exact ih _ _ _

theorem sweep_idle {selects : Entry → Bool} (mark : Entry → Mark) (alloc : Nat → Bool)
    (hnone : ∀ e ∈ store.entries, selects e = false) (fuel idx removed : Nat) :
    AccessStore.sweepRows selects mark alloc fuel idx removed store = (removed, store) := by
  induction fuel generalizing idx with
  | zero => rfl
  | succ fuel ih =>
    unfold AccessStore.sweepRows
    split
    · rfl
    · rename_i row hrow
      rw [hnone row (mem_of_getElem? hrow)]
      exact ih (idx + 1)

/-- A write keeps every identity that is there, and takes a new row for none of them. -/
structure Appends (store next : AccessStore) (w : Write) : Prop where
  limit : next.maxEntries = store.maxEntries
  keeps : ∀ e ∈ store.entries, ∃ e' ∈ next.entries, e'.identity = e.identity
  written : ∃ e ∈ next.entries, e.identity = w.identity
  length : next.entries.length ≤ store.entries.length +
    if (store.findIndex w.channel w.level w.mask).isNone then 1 else 0

theorem findIndex_isNone {channel mask : Bytes} {level : Level} :
    (store.findIndex channel level mask).isNone = true ↔
      ∀ e ∈ store.entries, e.identity ≠ identity channel level mask := by
  rw [Option.isNone_iff_eq_none]
  refine ⟨findIndex_none, fun h => List.findIdx?_eq_none_iff.mpr fun e he => ?_⟩
  exact Bool.eq_false_iff.mpr fun hnames => h e he (Entry.names_iff.mp hnames)

theorem upsert_appends {w : Write} {alloc : Bool} (h : store.upsert w alloc = (.ok (), next)) :
    Appends store next w := by
  have hstep := upsert_step store w alloc
  rw [h] at hstep
  cases hstep with
  | replaced l r old row hsplit hold hrow =>
    refine ⟨rfl, fun e he => ?_, ⟨row, by simp, hrow.identity⟩, by simp [hsplit]⟩
    rw [hsplit] at he
    rcases mem_split.mp he with rfl | he
    · exact ⟨row, by simp, hrow.identity.trans hold.symm⟩
    · exact ⟨e, mem_split.mpr (.inr he), rfl⟩
  | appended row hnew hrow =>
    have habsent : (store.findIndex w.channel w.level w.mask).isNone = true :=
      findIndex_isNone.mpr hnew
    refine ⟨rfl, fun e he => ⟨e, mem_append_left _ he, rfl⟩, ⟨row, by simp, hrow.identity⟩, ?_⟩
    simp [habsent]

theorem upsert_refused {w : Write} {alloc : Bool} {e : StoreError}
    (h : store.upsert w alloc = (.error e, next)) :
    e = .outOfMemory ∨ (e = .tooManyEntries ∧ store.maxEntries ≤ store.entries.length ∧
      (store.findIndex w.channel w.level w.mask).isNone = true) := by
  unfold AccessStore.upsert at h
  cases hfind : store.findIndex w.channel w.level w.mask with
  | some idx =>
    simp only [hfind] at h
    split at h
    · cases h
    split at h
    · cases h
      exact .inl rfl
    · cases h
  | none =>
    simp only [hfind] at h
    split at h
    · rename_i hfull
      cases h
      exact .inr ⟨rfl, hfull, rfl⟩
    · split at h
      · cases h
        exact .inl rfl
      · cases h

/-- The staged rows that have no row at the destination yet. -/
def incoming (store : AccessStore) (destination : Bytes) (staged : List Entry) : Nat :=
  staged.countP fun row => (store.findIndex destination row.level row.mask).isNone

theorem incoming_le (destination : Bytes) (staged : List Entry)
    (h : ∀ e ∈ store.entries, ∃ e' ∈ next.entries, e'.identity = e.identity) :
    incoming next destination staged ≤ incoming store destination staged := by
  refine countP_mono_left fun row _ hnone => findIndex_isNone.mpr fun e he heq => ?_
  obtain ⟨e', he', hkey⟩ := h e he
  exact findIndex_isNone.mp hnone e' he' (hkey.trans heq)

/-- One write uses up the place that was counted for it. -/
theorem Appends.incoming {w : Write} (row : Entry) (staged : List Entry) (h : Appends store next w)
    (hchannel : w.channel = destination) (hlevel : w.level = row.level)
    (hmask : w.mask = row.mask) :
    next.entries.length + Access.incoming next destination staged ≤
      store.entries.length + Access.incoming store destination (row :: staged) := by
  have hrest := incoming_le destination staged h.keeps
  have hlength := h.length
  rw [hchannel, hlevel, hmask] at hlength
  simp only [Access.incoming, countP_cons] at hrest ⊢
  omega

/-- What is counted for has room: no write is refused but for memory. -/
theorem copyRows_room (alloc : Nat → Bool) {staged : List Entry} (copied : Nat)
    (hroom : store.entries.length + incoming store destination staged ≤ store.maxEntries) :
    let result := AccessStore.copyRows destination alloc staged copied store
    (∀ e, result.1 = .error e → e = .outOfMemory) ∧
      result.2.maxEntries = store.maxEntries ∧ result.2.entries.length ≤ store.maxEntries := by
  induction staged generalizing store copied with
  | nil => exact ⟨nofun, rfl, by simpa [incoming, AccessStore.copyRows] using hroom⟩
  | cons row staged ih =>
    unfold AccessStore.copyRows
    dsimp only
    split
    · rename_i e middle hfail
      have hkept := upsert_failed hfail
      refine ⟨fun e' he' => ?_, by rw [hkept]; rfl, ?_⟩
      · cases he'
        rcases upsert_refused hfail with hmemory | ⟨-, hfull, hnone⟩
        · exact hmemory
        · -- A refused row is among those counted.
          have hcounted : 1 ≤ incoming store destination (row :: staged) :=
            one_le_countP_iff.mpr ⟨row, mem_cons_self, hnone⟩
          have hlimit : store.maxEntries ≤ store.entries.length := hfull
          omega
      · rw [hkept]
        exact (Nat.le_add_right _ _).trans hroom
    · rename_i middle hput
      have happends := upsert_appends hput
      obtain ⟨hentries, hlimit⟩ := drop_rows middle destination row.level row.mask
      have hnext : (middle.dropTombstone destination row.level row.mask).maxEntries =
          store.maxEntries := hlimit.trans happends.limit
      have hleft := happends.incoming row staged (rfl : _ = destination) rfl rfl
      have hsame :
          incoming (middle.dropTombstone destination row.level row.mask) destination staged =
          incoming middle destination staged := by
        simp only [incoming, AccessStore.findIndex, hentries]
      obtain ⟨herror, hmax, hlength⟩ := ih (copied + 1) (by
        rw [hsame, hentries, hnext]
        exact hleft.trans hroom)
      exact ⟨herror, hmax.trans hnext, hlength.trans_eq hnext⟩

theorem matches_channel (e : Entry) :
    (⟨destination, none, none⟩ : Selector).matches e = eqlIgnoreCase destination e.channel := by
  simp [Selector.matches]

/-- What the start of a copy leaves to the count. -/
structure Started (store : AccessStore) (destination source : Bytes) (mode : CopyMode)
    (next : AccessStore) : Prop where
  limit : next.maxEntries = store.maxEntries
  entries : next.entries = match mode with
    | .merge => store.entries
    | .replace => store.entries.filter fun e => !eqlIgnoreCase destination e.channel
  template : next.template source = store.template source
  /-- With no row to remove, only the clock moves. -/
  idle : mode = .merge ∨ (∀ e ∈ store.entries, eqlIgnoreCase destination e.channel = false) →
    next.tombstones = store.tombstones

/-- The rows of the source are none of those that the clear removes. -/
theorem template_filter (hne : eqlIgnoreCase destination source = false)
    (hentries : next.entries = store.entries.filter fun e => !eqlIgnoreCase destination e.channel)
    (hnow : next.nowSeconds = store.nowSeconds) : next.template source = store.template source := by
  simp only [AccessStore.template, AccessStore.isExpired, hentries, hnow, filter_filter]
  refine filter_congr fun e _ => ?_
  cases hsource : eqlIgnoreCase e.channel source with
  | false => simp
  | true =>
    have hother : eqlIgnoreCase destination e.channel = false := by
      simp only [eqlIgnoreCase, decide_eq_false_iff_not] at hne ⊢
      rwa [eqlIgnoreCase_iff.mp hsource]
    simp [hother]

theorem clearFirst_started (store : AccessStore)
    (hvalid : AccessStore.validateCopy destination source = .ok ())
    (mode : CopyMode) (alloc : Nat → Bool) :
    ∃ removed next, store.clearFirst destination mode alloc = (.ok removed, next) ∧
      Started store destination source mode next := by
  cases mode with
  | merge => exact ⟨0, store, rfl, rfl, rfl, rfl, fun _ => rfl⟩
  | replace =>
    obtain ⟨_, hchannel, -⟩ := bind_ok hvalid
    have hselector : validateSelector ⟨destination, none, none⟩ = .ok () := by
      rw [validateSelector, hchannel]
      rfl
    let cleared := AccessStore.sweepRows (Selector.matches ⟨destination, none, none⟩)
      (AccessStore.localMark store.nextHlc.1 store.localNode) alloc store.entries.length 0 0
      store.nextHlc.2
    have hclear : store.clearFirst destination .replace alloc = (.ok cleared.1, cleared.2) := by
      show store.clear ⟨destination, none, none⟩ alloc = (.ok cleared.1, cleared.2)
      rw [AccessStore.clear, hselector]
      rfl
    have hsplit : store.nextHlc.2.entries = [] ++ store.entries := rfl
    have hentries := sweep_entries
      (Selector.matches ⟨destination, none, none⟩)
      (AccessStore.localMark store.nextHlc.1 store.localNode) alloc store.entries [] 0 hsplit
      (Nat.le_refl _)
    obtain ⟨hlimit, hclock⟩ := sweep_limits (Selector.matches ⟨destination, none, none⟩)
      (AccessStore.localMark store.nextHlc.1 store.localNode) alloc store.entries.length 0 0
      store.nextHlc.2
    simp only [matches_channel, length_nil, nil_append] at hentries
    refine ⟨cleared.1, cleared.2, hclear, hlimit, hentries,
      template_filter (validateCopy_ok hvalid) hentries hclock.nowSeconds, ?_⟩
    rintro (hmerge | hnone)
    · cases hmerge
    · have hunmatched : ∀ e ∈ store.nextHlc.2.entries,
          (⟨destination, none, none⟩ : Selector).matches e = false := fun e he =>
        (matches_channel e).trans (hnone e he)
      have hidle := sweep_idle (AccessStore.localMark store.nextHlc.1 store.localNode) alloc
        hunmatched store.entries.length 0 0
      exact congrArg (fun result => result.2.tombstones) hidle

theorem incoming_staged (staged : List Entry) :
    incoming store destination (staged.map (store.stagedRow destination)) =
      incoming store destination staged := by
  rw [incoming, countP_map]
  rfl

/-- The copy after its clear is refused whole by the count, or stays within the limit. -/
theorem copyTemplate_bounded (store : AccessStore) (destination source : Bytes) (removed : Nat)
    (allocs : AccessStore.CopyAllocs) :
    let counted := incoming store destination (store.template source)
    let result := store.copyTemplate destination source removed allocs
    (store.maxEntries < store.entries.length + counted ∧ result = (.error .tooManyEntries, store)) ∨
      (store.entries.length + counted ≤ store.maxEntries ∧
        (∀ e, result.1 = .error e → e = .outOfMemory) ∧
        (∀ r, result.1 = .ok r → result.2.entries.length ≤ result.2.maxEntries)) := by
  intro counted
  unfold AccessStore.copyTemplate
  dsimp only
  split
  · rename_i hfull
    exact .inl ⟨hfull, rfl⟩
  rename_i hfull
  have hroom : store.entries.length + counted ≤ store.maxEntries := Nat.not_lt.mp hfull
  refine .inr ⟨hroom, ?_⟩
  split
  · exact ⟨fun e he => (Except.error.inj he).symm, nofun⟩
  have hrows := copyRows_room allocs.write 0
    ((congrArg (store.entries.length + ·) (incoming_staged _)).trans_le hroom)
  split
  · rename_i e next hfail
    simp only [hfail] at hrows
    obtain ⟨hmemory, -, -⟩ := hrows
    exact ⟨fun e' he' => hmemory e' (congrArg Except.error (Except.error.inj he')), nofun⟩
  · rename_i copied next hok
    simp only [hok] at hrows
    obtain ⟨-, hlimit, hlength⟩ := hrows
    exact ⟨nofun, fun _ _ => hlength.trans_eq hlimit.symm⟩

/-- A refusal for room or for a name leaves rows and markers as they were, and a success
stays within the limit. -/
structure RefusedWhole (store : AccessStore) (result : Except StoreError CopyResult × AccessStore) :
    Prop where
  refused : ∀ e, e = .tooManyEntries ∨ e = .invalidChannel → result.1 = .error e →
    result.2.entries = store.entries ∧ result.2.tombstones = store.tombstones
  bounded : ∀ r, result.1 = .ok r → result.2.entries.length ≤ result.2.maxEntries

/-- A replacing copy has rows to clear, and no room for the template once they are gone. -/
structure ClearsThenOverflows (store : AccessStore) (destination source : Bytes) (mode : CopyMode) :
    Prop where
  replaces : mode = .replace
  valid : AccessStore.validateCopy destination source = .ok ()
  clears : ∃ e ∈ store.entries, eqlIgnoreCase destination e.channel = true
  overflows : store.maxEntries <
    (store.entries.filter fun e => !eqlIgnoreCase destination e.channel).length +
      (store.template source).length

/-- Once the destination has no row, the whole template counts. -/
theorem incoming_cleared {rows staged : List Entry}
    (hentries : next.entries = rows.filter fun e => !eqlIgnoreCase destination e.channel) :
    incoming next destination staged = staged.length := by
  refine countP_eq_length.mpr fun row _ => findIndex_isNone.mpr fun e he heq => ?_
  rw [hentries] at he
  have hother := (mem_filter.mp he).2
  have hchannel : lowerString e.channel = lowerString destination := congrArg Identity.channel heq
  simp [eqlIgnoreCase, hchannel] at hother

/-- A copy is refused whole unless it replaces rows that it has no room to put back. -/
theorem copyFrom_refused_whole_iff (store : AccessStore) (destination source : Bytes)
    (mode : CopyMode) (allocs : AccessStore.CopyAllocs) :
    RefusedWhole store (store.copyFrom destination source mode allocs) ↔
      ¬ ClearsThenOverflows store destination source mode := by
  unfold AccessStore.copyFrom
  cases hvalid : AccessStore.validateCopy destination source with
  | error e =>
    refine ⟨fun _ h => ?_, fun _ => ⟨fun _ _ _ => ⟨rfl, rfl⟩, nofun⟩⟩
    rw [h.valid] at hvalid
    cases hvalid
  | ok =>
    obtain ⟨removed, next, hclear, hstarted⟩ := clearFirst_started store hvalid mode allocs.clear
    simp only [hclear]
    have hcopy := copyTemplate_bounded next destination source removed allocs
    simp only [hstarted.template, hstarted.limit] at hcopy
    rcases hcopy with ⟨hfull, hrefused⟩ | ⟨hroom, herror, hbounded⟩
    · rw [hrefused]
      constructor
      · intro hwhole hover
        obtain ⟨hkept, -⟩ := hwhole.refused _ (.inl rfl) rfl
        obtain rfl := hover.replaces
        obtain ⟨e, he, hchannel⟩ := hover.clears
        have hgone := hkept ▸ he
        rw [hstarted.entries] at hgone
        simpa [hchannel] using (mem_filter.mp hgone).2
      · intro hnot
        refine ⟨fun _ _ _ => ?_, nofun⟩
        cases mode with
        | merge => exact ⟨hstarted.entries, hstarted.idle (.inl rfl)⟩
        | replace =>
          have hnone : ∀ e ∈ store.entries, eqlIgnoreCase destination e.channel = false := by
            intro e he
            refine Bool.eq_false_iff.mpr fun hchannel => hnot ⟨rfl, hvalid, ⟨e, he, hchannel⟩, ?_⟩
            rwa [incoming_cleared hstarted.entries, hstarted.entries] at hfull
          refine ⟨hstarted.entries.trans (filter_eq_self.mpr fun e he => ?_),
            hstarted.idle (.inr hnone)⟩
          simp [hnone e he]
    · constructor
      · intro _ hover
        obtain rfl := hover.replaces
        have hover := hover.overflows
        rw [incoming_cleared hstarted.entries, hstarted.entries] at hroom
        exact absurd hover (Nat.not_lt.mpr hroom)
      · intro _
        refine ⟨fun e he hfail => ?_, hbounded⟩
        obtain rfl := herror e hfail
        rcases he with he | he <;> cases he

/-! A full store of three rows: one of `#b` and two of `#a`. -/

def fullStore : AccessStore :=
  final step (AccessStore.init 3 8 604800 3)
    [.add [0x23, 0x62] .voice sampleMask [0x6E] none true,
      .add [0x23, 0x61] .voice sampleMask [0x6E] none true,
      .add [0x23, 0x61] .host sampleMask [0x6E] none true]

def copyAllocs : AccessStore.CopyAllocs := ⟨fun _ => true, true, fun _ => true⟩

/-- The replacing copy of `#a` onto `#b` is refused, and the row of `#b` is gone. -/
theorem copyFrom_clears_then_refuses :
    (fullStore.copyFrom [0x23, 0x62] [0x23, 0x61] .replace copyAllocs).1 = .error .tooManyEntries ∧
      fullStore.entries.length = 3 ∧
      (fullStore.copyFrom [0x23, 0x62] [0x23, 0x61] .replace copyAllocs).2.entries.length = 2 ∧
      ¬ RefusedWhole fullStore
        (fullStore.copyFrom [0x23, 0x62] [0x23, 0x61] .replace copyAllocs) := by
  have hrefused : (fullStore.copyFrom [0x23, 0x62] [0x23, 0x61] .replace copyAllocs).1 =
      .error .tooManyEntries := by decide
  have hlength : (fullStore.copyFrom [0x23, 0x62] [0x23, 0x61] .replace copyAllocs).2.entries.length
      = 2 := by decide
  refine ⟨hrefused, by decide, hlength, fun hwhole => ?_⟩
  obtain ⟨hkept, -⟩ := hwhole.refused _ (.inl rfl) hrefused
  rw [hkept] at hlength
  exact absurd hlength (by decide)

end OnyxServer.Access
