import OnyxServer.Access.Store
import OnyxServer.Lib.Keyed

/-!
# What a write does to rows and markers

One lemma for each primitive of the store, and from them what the loops and the merge
of a fact do.
-/
namespace OnyxServer.Access

open Lib Text List

variable {store next : AccessStore} {w : Write} {m : Mark} {alloc : Bool}

def Write.identity (w : Write) : Identity := Access.identity w.channel w.level w.mask
def Mark.identity (m : Mark) : Identity := Access.identity m.channel m.level m.mask
def Mark.rank (m : Mark) : Rank := Access.rank m.hlc m.originNode

/-- A row that holds the write; it has the octets of a signed write. -/
structure Wrote (w : Write) (nowSeconds : UInt64) (row : Entry) : Prop where
  identity : row.identity = w.identity
  level : row.level = w.level
  setBy : row.setBy = w.setBy
  duration : row.duration = w.duration
  expiresAt : row.expiresAt = anchoredExpiry nowSeconds w.hlc w.duration
  hlc : row.hlc = w.hlc
  originNode : row.originNode = w.originNode
  originProof : row.originProof = w.proof
  octets : w.proof.isSome = true → row.channel = w.channel ∧ row.mask = w.mask

/-- A marker that holds the mark. -/
structure Marked (m : Mark) (marker : Tombstone) : Prop where
  identity : marker.identity = m.identity
  level : marker.level = m.level
  hlc : marker.hlc = m.hlc
  originNode : marker.originNode = m.originNode
  originProof : marker.originProof = m.proof
  octets : m.proof.isSome = true → marker.channel = m.channel ∧ marker.mask = m.mask

theorem Marked.rank {marker : Tombstone} (h : Marked m marker) : marker.rank = m.rank := by
  rw [Tombstone.rank, h.hlc, h.originNode, Mark.rank]

/-- An identity has one row, or one marker, or neither. -/
structure WellFormed (store : AccessStore) : Prop where
  rows : DistinctKeys Entry.identity store.entries
  markers : DistinctKeys Tombstone.identity store.tombstones
  apart : ∀ row ∈ store.entries, ∀ marker ∈ store.tombstones, row.identity ≠ marker.identity

/-- The clock, its wall time and the node are as before. -/
structure SameClock (store next : AccessStore) : Prop where
  hlc : next.hlc = store.hlc
  nowSeconds : next.nowSeconds = store.nowSeconds
  localNode : next.localNode = store.localNode

theorem SameClock.refl (store : AccessStore) : SameClock store store := ⟨rfl, rfl, rfl⟩

theorem SameClock.trans {last : AccessStore} (h : SameClock store next) (h' : SameClock next last) :
    SameClock store last :=
  ⟨h'.hlc.trans h.hlc, h'.nowSeconds.trans h.nowSeconds, h'.localNode.trans h.localNode⟩

theorem findIndex_split {channel mask : Bytes} {level : Level} {idx : Nat}
    (h : store.findIndex channel level mask = some idx) :
    ∃ l row r, store.entries = l ++ row :: r ∧ l.length = idx ∧
      row.identity = Access.identity channel level mask := by
  obtain ⟨l, row, r, hsplit, hlen, hp, -⟩ := findIdx?_split h
  exact ⟨l, row, r, hsplit, hlen, Entry.names_iff.mp hp⟩

theorem findIndex_none {channel mask : Bytes} {level : Level}
    (h : store.findIndex channel level mask = none) :
    ∀ row ∈ store.entries, row.identity ≠ Access.identity channel level mask := by
  intro row hrow heq
  have hfalse := List.findIdx?_eq_none_iff.mp h row hrow
  rw [Entry.names_iff.mpr heq] at hfalse
  cases hfalse

theorem findMarker_split {ts : List Tombstone} {channel mask : Bytes} {level : Level} {idx : Nat}
    (h : ts.findIdx? (fun marker => marker.names channel level mask) = some idx) :
    ∃ l marker r, ts = l ++ marker :: r ∧ l.length = idx ∧
      marker.identity = Access.identity channel level mask := by
  obtain ⟨l, marker, r, hsplit, hlen, hp, -⟩ := findIdx?_split h
  exact ⟨l, marker, r, hsplit, hlen, Tombstone.names_iff.mp hp⟩

theorem findMarker_none {ts : List Tombstone} {channel mask : Bytes} {level : Level}
    (h : ts.findIdx? (fun marker => marker.names channel level mask) = none) :
    ∀ marker ∈ ts, marker.identity ≠ Access.identity channel level mask := by
  intro marker hmarker heq
  have hfalse := List.findIdx?_eq_none_iff.mp h marker hmarker
  rw [Tombstone.names_iff.mpr heq] at hfalse
  cases hfalse

section Adopt

variable {proof : Option OriginProof} {channel channel' mask mask' : Bytes} {level : Level}

/-- The test for adopting the octets of a signed write over those in place. -/
def adopts (proof : Option OriginProof) (channel mask channel' mask' : Bytes) : Bool :=
  proof.isSome && !(channel == channel' && mask == mask')

theorem adopt_octets (h : proof.isSome = true) :
    (if adopts proof channel mask channel' mask' then channel' else channel) = channel' ∧
      (if adopts proof channel mask channel' mask' then mask' else mask) = mask' := by
  by_cases hsame : channel = channel' ∧ mask = mask'
  · simp [hsame.1, hsame.2]
  · have hadopt : adopts proof channel mask channel' mask' = true := by
      simpa [adopts, h] using not_and_or.mp hsame
    simp [hadopt]

theorem adopt_identity (h : identity channel level mask = identity channel' level mask') :
    identity (if adopts proof channel mask channel' mask' then channel' else channel) level
      (if adopts proof channel mask channel' mask' then mask' else mask) =
        identity channel' level mask' := by
  cases adopts proof channel mask channel' mask' with
  | true => rfl
  | false => exact h

end Adopt

/-- Every outcome of `upsert`. -/
inductive UpsertStep (store : AccessStore) (w : Write) : Except StoreError Unit → AccessStore → Prop
  | failed (e : StoreError) : UpsertStep store w (.error e) store
  | replaced (l r : List Entry) (old row : Entry) (hsplit : store.entries = l ++ old :: r)
      (hold : old.identity = w.identity) (hrow : Wrote w store.nowSeconds row) :
      UpsertStep store w (.ok ()) { store with entries := l ++ row :: r }
  | appended (row : Entry) (hnew : ∀ e ∈ store.entries, e.identity ≠ w.identity)
      (hrow : Wrote w store.nowSeconds row) :
      UpsertStep store w (.ok ()) { store with entries := store.entries ++ [row] }

theorem upsert_step (store : AccessStore) (w : Write) (alloc : Bool) :
    UpsertStep store w (store.upsert w alloc).1 (store.upsert w alloc).2 := by
  unfold AccessStore.upsert
  cases hfind : store.findIndex w.channel w.level w.mask with
  | none =>
    by_cases hroom : store.maxEntries ≤ store.entries.length
    · simp only [hroom, ↓reduceIte]
      exact .failed _
    cases alloc with
    | false =>
      simp only [hroom, ↓reduceIte, Bool.not_false]
      exact .failed _
    | true =>
      simp only [hroom, ↓reduceIte, Bool.not_true, Bool.false_eq_true]
      exact .appended _ (findIndex_none hfind)
        ⟨rfl, rfl, rfl, rfl, rfl, rfl, rfl, rfl, fun _ => ⟨rfl, rfl⟩⟩
  | some idx =>
    obtain ⟨l, old, r, hsplit, rfl, hold⟩ := findIndex_split hfind
    have hget : store.entries[l.length]? = some old := by
      rw [hsplit]
      exact getElem?_middle l r old
    cases alloc with
    | false =>
      simp only [hget, Bool.not_false, ↓reduceIte]
      exact .failed _
    | true =>
      simp only [hget, Bool.not_true, Bool.false_eq_true, ↓reduceIte]
      rw [hsplit, set_split]
      have hlevel : old.level = w.level := congrArg Identity.level hold
      refine .replaced l r old _ hsplit hold ?_
      refine ⟨?_, hlevel, rfl, rfl, rfl, rfl, rfl, rfl, fun hproof => adopt_octets hproof⟩
      rw [Entry.identity, hlevel] at hold
      rw [Entry.identity, hlevel]
      exact adopt_identity hold

theorem evict_sublist (store : AccessStore) :
    ∃ ts, store.evictOldestTombstone = { store with tombstones := ts } ∧
      ts.Sublist store.tombstones := by
  unfold AccessStore.evictOldestTombstone
  split
  · exact ⟨store.tombstones, rfl, List.Sublist.refl _⟩
  · exact ⟨_, rfl, eraseIdx_sublist _ _⟩

/-- Every outcome of `recordTombstone`. A full budget may give up markers for the new one. -/
inductive RecordStep (store : AccessStore) (m : Mark) : Except StoreError Unit → AccessStore → Prop
  | failed (e : StoreError) (ts : List Tombstone) (hsub : ts.Sublist store.tombstones)
      (hnone : m.proof = none → ∀ t ∈ store.tombstones, t.identity ≠ m.identity) :
    RecordStep store m (.error e) { store with tombstones := ts }
  | kept (marker : Tombstone) (hmem : marker ∈ store.tombstones)
      (hold : marker.identity = m.identity) (hle : m.rank ≤ marker.rank) :
    RecordStep store m (.ok ()) store
  | raised (l r : List Tombstone) (old marker : Tombstone)
      (hsplit : store.tombstones = l ++ old :: r) (hold : old.identity = m.identity)
      (hmarked : Marked m marker) : RecordStep store m (.ok ()) { store with tombstones :=
        l ++ marker :: r }
  | recorded (ts : List Tombstone) (marker : Tombstone)
      (hnew : ∀ t ∈ store.tombstones, t.identity ≠ m.identity)
      (hsub : ts.Sublist store.tombstones) (hmarked : Marked m marker) :
    RecordStep store m (.ok ()) { store with tombstones := ts ++ [marker] }

theorem record_step (store : AccessStore) (m : Mark) (alloc : Bool) :
    RecordStep store m (store.recordTombstone m alloc).1 (store.recordTombstone m alloc).2 := by
  unfold AccessStore.recordTombstone
  cases hfind : store.tombstones.findIdx? fun marker => marker.names m.channel m.level m.mask with
  | some idx =>
    obtain ⟨l, old, r, hsplit, rfl, hold⟩ := findMarker_split hfind
    have hget : store.tombstones[l.length]? = some old := by
      rw [hsplit]
      exact getElem?_middle l r old
    simp only [hget]
    by_cases habove : ranksAbove m.hlc m.originNode old.hlc old.originNode = true
    · simp only [habove, Bool.not_true, Bool.false_eq_true, ↓reduceIte]
      by_cases hfail : (adopts m.proof old.channel old.mask m.channel m.mask && !alloc) = true
      · rw [adopts] at hfail
        simp only [hfail, ↓reduceIte]
        refine .failed _ store.tombstones (List.Sublist.refl _) fun hproof => ?_
        simp [hproof] at hfail
      rw [adopts] at hfail
      simp only [hfail, Bool.false_eq_true, ↓reduceIte]
      rw [hsplit, set_split]
      have hlevel : old.level = m.level := congrArg Identity.level hold
      refine .raised l r old _ hsplit hold ?_
      refine ⟨?_, hlevel, rfl, rfl, rfl, fun hproof => adopt_octets hproof⟩
      rw [Tombstone.identity, hlevel] at hold
      rw [Tombstone.identity, hlevel]
      exact adopt_identity hold
    · simp only [habove, Bool.not_false, ↓reduceIte]
      refine .kept old (by rw [hsplit]; simp) hold (not_lt.mp ?_)
      exact mt ranksAbove_iff.mpr habove
  | none =>
    by_cases hzero : store.maxTombstones = 0
    · simp only [hzero, ↓reduceIte]
      exact .failed _ store.tombstones (List.Sublist.refl _) fun _ => findMarker_none hfind
    cases alloc with
    | false =>
      simp only [hzero, ↓reduceIte, Bool.not_false]
      exact .failed _ store.tombstones (List.Sublist.refl _) fun _ => findMarker_none hfind
    | true =>
      simp only [hzero, ↓reduceIte, Bool.not_true, Bool.false_eq_true]
      have hmade : ∃ ts, (if store.maxTombstones ≤ store.tombstones.length then
          store.evictOldestTombstone else store) = { store with tombstones := ts } ∧
          ts.Sublist store.tombstones := by
        split
        · exact evict_sublist store
        · exact ⟨store.tombstones, rfl, List.Sublist.refl _⟩
      obtain ⟨ts, hts, hsub⟩ := hmade
      rw [hts]
      by_cases hroom : store.maxTombstones ≤ ts.length
      · simp only [hroom, ↓reduceIte]
        exact .failed _ ts hsub fun _ => findMarker_none hfind
      · simp only [hroom, ↓reduceIte]
        exact .recorded ts _ (findMarker_none hfind) hsub
          ⟨rfl, rfl, rfl, rfl, rfl, fun _ => ⟨rfl, rfl⟩⟩

/-- Every outcome of `dropTombstone`. -/
inductive DropStep (store : AccessStore) (key : Identity) : AccessStore → Prop
  | absent (hnone : ∀ t ∈ store.tombstones, t.identity ≠ key) : DropStep store key store
  | dropped (l r : List Tombstone) (marker : Tombstone)
      (hsplit : store.tombstones = l ++ marker :: r) (hkey : marker.identity = key) :
      DropStep store key { store with tombstones := l ++ r }

theorem drop_step (store : AccessStore) (channel : Bytes) (level : Level) (mask : Bytes) :
    DropStep store (Access.identity channel level mask)
    (store.dropTombstone channel level mask) := by
  unfold AccessStore.dropTombstone
  cases hfind : store.tombstones.findIdx? fun marker => marker.names channel level mask with
  | none => exact .absent (findMarker_none hfind)
  | some idx =>
    obtain ⟨l, marker, r, hsplit, rfl, hkey⟩ := findMarker_split hfind
    simp only [hsplit, eraseIdx_split]
    exact .dropped l r marker hsplit hkey

/-- A row was put: it is the only thing that is kept of its identity. -/
structure PutStep (store : AccessStore) (w : Write) (row : Entry) (next : AccessStore) : Prop where
  clock : SameClock store next
  wrote : Wrote w store.nowSeconds row
  rows : ∀ e, e ∈ next.entries ↔ e = row ∨ (e ∈ store.entries ∧ e.identity ≠ w.identity)
  markers : ∀ t, t ∈ next.tombstones ↔ t ∈ store.tombstones ∧ t.identity ≠ w.identity
  wellFormed : WellFormed next

theorem drop_markers {store : AccessStore}
    (hwf : DistinctKeys Tombstone.identity store.tombstones) (channel : Bytes)
    (level : Level) (mask : Bytes) :
    (store.dropTombstone channel level mask).entries = store.entries ∧
      SameClock store (store.dropTombstone channel level mask) ∧
      DistinctKeys Tombstone.identity (store.dropTombstone channel level mask).tombstones ∧
      ∀ t, t ∈ (store.dropTombstone channel level mask).tombstones ↔
        t ∈ store.tombstones ∧ t.identity ≠ Access.identity channel level mask := by
  have hdrop := drop_step store channel level mask
  generalize store.dropTombstone channel level mask = next at hdrop
  cases hdrop with
  | absent hnone =>
    exact ⟨rfl, SameClock.refl store, hwf, fun t => ⟨fun ht => ⟨ht, hnone t ht⟩, And.left⟩⟩
  | dropped l r marker hsplit hkey =>
    rw [hsplit] at hwf
    refine ⟨rfl, ⟨rfl, rfl, rfl⟩, hwf.erase, fun t => ?_⟩
    rw [hsplit, ← hkey]
    exact hwf.mem_erase

theorem put_step (hwf : WellFormed store) {w : Write} {alloc : Bool} {middle : AccessStore}
    (h : store.upsert w alloc = (.ok (), middle)) :
    ∃ row, PutStep store w row (middle.dropTombstone w.channel w.level w.mask) := by
  have hput : ∃ row, Wrote w store.nowSeconds row ∧ middle.tombstones = store.tombstones ∧
      SameClock store middle ∧ DistinctKeys Entry.identity middle.entries ∧
      ∀ e, e ∈ middle.entries ↔ e = row ∨ (e ∈ store.entries ∧ e.identity ≠ w.identity) := by
    have hstep := upsert_step store w alloc
    rw [h] at hstep
    cases hstep with
    | replaced l r old row hsplit hold hrow =>
      have hrows := hwf.rows
      rw [hsplit] at hrows
      refine ⟨row, hrow, rfl, ⟨rfl, rfl, rfl⟩,
        hrows.replace (hrow.identity.trans hold.symm), fun e => ?_⟩
      rw [hsplit, ← hold]
      exact hrows.mem_replace
    | appended row hnew hrow =>
      refine ⟨row, hrow, rfl, ⟨rfl, rfl, rfl⟩,
        hwf.rows.concat fun e he => hrow.identity ▸ hnew e he, fun e => ?_⟩
      rw [mem_append, mem_singleton, or_comm]
      exact or_congr_right ⟨fun he => ⟨he, hnew e he⟩, And.left⟩
  obtain ⟨row, hwrote, htombs, hclock, hdistinct, hrows⟩ := hput
  obtain ⟨hentries, hclock', hmarkers, hmem⟩ :=
    drop_markers (htombs ▸ hwf.markers : DistinctKeys Tombstone.identity middle.tombstones)
      w.channel w.level w.mask
  rw [htombs] at hmem
  refine ⟨row, hclock.trans hclock', hwrote, fun e => by rw [hentries]; exact hrows e, hmem,
    hentries ▸ hdistinct, hmarkers, ?_⟩
  intro e he t ht
  obtain ⟨htold, htne⟩ := (hmem t).mp ht
  rw [hentries] at he
  rcases (hrows e).mp he with rfl | ⟨heold, -⟩
  · rw [hwrote.identity]
    exact Ne.symm htne
  · exact hwf.apart e heold t htold

/-- What a marker is after `m` was recorded. -/
inductive MarkerAfter (store : AccessStore) (m : Mark) (t : Tombstone) : Prop
  | other (hmem : t ∈ store.tombstones) (hne : t.identity ≠ m.identity)
  | kept (hmem : t ∈ store.tombstones) (hold : t.identity = m.identity) (hle : m.rank ≤ t.rank)
  | new (hmarked : Marked m t)

theorem record_clock (store : AccessStore) (m : Mark) (alloc : Bool) :
    (store.recordTombstone m alloc).2.entries = store.entries ∧
      SameClock store (store.recordTombstone m alloc).2 := by
  have h := record_step store m alloc
  generalize store.recordTombstone m alloc = pair at h
  obtain ⟨answer, next⟩ := pair
  cases h <;> exact ⟨rfl, rfl, rfl, rfl⟩

theorem record_distinct (hwf : DistinctKeys Tombstone.identity store.tombstones) (m : Mark)
    (alloc : Bool) :
    DistinctKeys Tombstone.identity (store.recordTombstone m alloc).2.tombstones := by
  have h := record_step store m alloc
  generalize store.recordTombstone m alloc = pair at h
  obtain ⟨answer, next⟩ := pair
  cases h with
  | failed e ts hsub hnone => exact hwf.sublist hsub
  | kept marker hmem hold hle => exact hwf
  | raised l r old marker hsplit hold hmarked =>
    rw [hsplit] at hwf
    exact hwf.replace (hmarked.identity.trans hold.symm)
  | recorded ts marker hnew hsub hmarked =>
    exact (hwf.sublist hsub).concat fun t ht => hmarked.identity ▸ hnew t (hsub.subset ht)

theorem record_markers (hwf : DistinctKeys Tombstone.identity store.tombstones) {m : Mark}
    {alloc : Bool} (hok : m.proof = none ∨ (store.recordTombstone m alloc).1 = .ok ()) :
    ∀ t ∈ (store.recordTombstone m alloc).2.tombstones, MarkerAfter store m t := by
  have h := record_step store m alloc
  generalize store.recordTombstone m alloc = pair at h hok
  obtain ⟨answer, next⟩ := pair
  intro t ht
  cases h with
  | failed e ts hsub hnone =>
    rcases hok with hproof | hok
    · exact .other (hsub.subset ht) (hnone hproof t (hsub.subset ht))
    · cases hok
  | kept marker hmem hold hle =>
    by_cases hkey : t.identity = m.identity
    · obtain rfl := hwf.eq_of_key ht hmem (hkey.trans hold.symm)
      exact .kept ht hold hle
    · exact .other ht hkey
  | raised l r old marker hsplit hold hmarked =>
    rw [hsplit] at hwf
    rcases hwf.mem_replace.mp ht with rfl | ⟨hmem, hne⟩
    · exact .new hmarked
    · exact .other (hsplit ▸ hmem) (hold ▸ hne)
  | recorded ts marker hnew hsub hmarked =>
    rcases mem_append.mp ht with ht | ht
    · exact .other (hsub.subset ht) (hnew t (hsub.subset ht))
    · obtain rfl := mem_singleton.mp ht
      exact .new hmarked

/-- A recorded mark is outranked by no marker of its identity but kept behind one. -/
theorem record_known {m : Mark} {alloc : Bool} (hok : (store.recordTombstone m alloc).1 = .ok ()) :
    ∃ t ∈ (store.recordTombstone m alloc).2.tombstones, t.identity = m.identity ∧
      m.rank ≤ t.rank := by
  have h := record_step store m alloc
  generalize store.recordTombstone m alloc = pair at h hok
  obtain ⟨answer, next⟩ := pair
  cases h with
  | failed e ts hsub hnone => cases hok
  | kept marker hmem hold hle => exact ⟨marker, hmem, hold, hle⟩
  | raised l r old marker hsplit hold hmarked =>
    exact ⟨marker, by simp, hmarked.identity, hmarked.rank.ge⟩
  | recorded ts marker hnew hsub hmarked =>
    exact ⟨marker, by simp, hmarked.identity, hmarked.rank.ge⟩

/-- An identity was buried: its row is gone, and a marker tells of the mark if there was room. -/
structure BuryStep (store : AccessStore) (m : Mark) (next : AccessStore) : Prop where
  clock : SameClock store next
  rows : ∀ e, e ∈ next.entries ↔ e ∈ store.entries ∧ e.identity ≠ m.identity
  markers : ∀ t ∈ next.tombstones, MarkerAfter store m t
  wellFormed : WellFormed next

theorem bury_of (hwf : WellFormed store) {m : Mark} (alloc : Bool)
    (hok : m.proof = none ∨ (store.recordTombstone m alloc).1 = .ok ()) {rows : List Entry}
    (hsub : rows.Sublist store.entries)
    (hrows : ∀ e, e ∈ rows ↔ e ∈ store.entries ∧ e.identity ≠ m.identity) :
    BuryStep store m { (store.recordTombstone m alloc).2 with entries := rows } := by
  obtain ⟨-, hclock⟩ := record_clock store m alloc
  have hmarkers := record_markers hwf.markers hok
  refine ⟨⟨hclock.hlc, hclock.nowSeconds, hclock.localNode⟩, hrows, hmarkers,
    hwf.rows.sublist hsub, record_distinct hwf.markers m alloc, ?_⟩
  intro e he t ht
  obtain ⟨hold, hne⟩ := (hrows e).mp he
  cases hmarkers t ht with
  | other hmem _ => exact hwf.apart e hold t hmem
  | kept hmem _ _ => exact hwf.apart e hold t hmem
  | new hmarked => exact hmarked.identity ▸ hne

theorem bury_row (hwf : WellFormed store) {m : Mark} (alloc : Bool)
    (hok : m.proof = none ∨ (store.recordTombstone m alloc).1 = .ok ()) {l r : List Entry}
    {row : Entry} (hsplit : store.entries = l ++ row :: r) (hkey : row.identity = m.identity) :
    BuryStep store m ((store.recordTombstone m alloc).2.removeRow l.length) := by
  have hrows := hwf.rows
  obtain ⟨hentries, -⟩ := record_clock store m alloc
  rw [hsplit] at hrows
  have hsub : (l ++ r).Sublist store.entries := by
    rw [hsplit]
    exact (List.Sublist.refl l).append (sublist_cons_self row r)
  have hbury := bury_of hwf alloc hok hsub
    (fun e => by rw [hsplit, ← hkey]; exact hrows.mem_erase)
  rwa [AccessStore.removeRow, hentries, hsplit, eraseIdx_split]

theorem bury_absent (hwf : WellFormed store) {m : Mark} (alloc : Bool)
    (hok : m.proof = none ∨ (store.recordTombstone m alloc).1 = .ok ())
    (hnone : ∀ e ∈ store.entries, e.identity ≠ m.identity) :
    BuryStep store m (store.recordTombstone m alloc).2 := by
  obtain ⟨hentries, -⟩ := record_clock store m alloc
  have hbury := bury_of hwf alloc hok (List.Sublist.refl store.entries)
    (fun e => ⟨fun he => ⟨he, hnone e he⟩, And.left⟩)
  rwa [← hentries] at hbury

/-- A sweep removed the selected rows and left a marker for some of them. -/
structure SweepStep (selects : Entry → Bool) (mark : Entry → Mark) (store next : AccessStore) :
    Prop where
  clock : SameClock store next
  rows : ∀ e, e ∈ next.entries ↔ e ∈ store.entries ∧ selects e = false
  markers : ∀ t ∈ next.tombstones, t ∈ store.tombstones ∨
    ∃ row ∈ store.entries, selects row = true ∧ Marked (mark row) t
  wellFormed : WellFormed next

/-- What is left of the rows from `pre.length` on, whatever rows the store holds. -/
theorem sweep_entries (selects : Entry → Bool) (mark : Entry → Mark) (alloc : Nat → Bool)
    (todo pre : List Entry) {fuel : Nat} (removed : Nat) (hsplit : store.entries = pre ++ todo)
    (hfuel : todo.length ≤ fuel) :
    (AccessStore.sweepRows selects mark alloc fuel pre.length removed store).2.entries =
      pre ++ todo.filter fun e => !selects e := by
  induction fuel generalizing store pre todo removed with
  | zero =>
    obtain rfl := length_eq_zero_iff.mp (Nat.le_zero.mp hfuel)
    exact hsplit
  | succ fuel ih =>
    cases todo with
    | nil =>
      have hget : store.entries[pre.length]? = none := by
        rw [hsplit]
        simp
      simp only [AccessStore.sweepRows, hget]
      exact hsplit
    | cons row todo =>
      have hget : store.entries[pre.length]? = some row := by
        rw [hsplit]
        exact getElem?_middle pre todo row
      simp only [AccessStore.sweepRows, hget]
      by_cases hselect : selects row = true
      · have hnext : ((store.recordTombstone (mark row) (alloc removed)).2.removeRow
            pre.length).entries = pre ++ todo := by
          obtain ⟨hentries, -⟩ := record_clock store (mark row) (alloc removed)
          rw [AccessStore.removeRow, hentries, hsplit, eraseIdx_split]
        rw [if_pos hselect, filter_cons_of_neg (by simp [hselect])]
        exact ih todo pre (removed + 1) hnext (Nat.le_of_succ_le_succ hfuel)
      · have hsplit' : store.entries = (pre ++ [row]) ++ todo := by
          rw [hsplit, append_assoc]
          rfl
        have hrest := ih todo (pre ++ [row]) removed hsplit' (Nat.le_of_succ_le_succ hfuel)
        rw [length_append, length_singleton] at hrest
        rw [if_neg hselect, filter_cons_of_pos (by simpa using hselect), hrest, append_assoc]
        rfl

theorem sweep_split {selects : Entry → Bool} {mark : Entry → Mark}
    (hidentity : ∀ row, (mark row).identity = row.identity)
    (hproof : ∀ row, (mark row).proof = none)
    (alloc : Nat → Bool) (todo pre : List Entry) {fuel : Nat} (removed : Nat)
    (hwf : WellFormed store) (hsplit : store.entries = pre ++ todo) (hfuel : todo.length ≤ fuel) :
    SameClock store (AccessStore.sweepRows selects mark alloc fuel pre.length removed store).2 ∧
      WellFormed (AccessStore.sweepRows selects mark alloc fuel pre.length removed store).2 ∧
      ∀ t ∈ (AccessStore.sweepRows selects mark alloc fuel pre.length removed store).2.tombstones,
        t ∈ store.tombstones ∨ ∃ row ∈ todo, selects row = true ∧ Marked (mark row) t := by
  induction fuel generalizing store pre todo removed with
  | zero => exact ⟨SameClock.refl store, hwf, fun t ht => .inl ht⟩
  | succ fuel ih =>
    cases todo with
    | nil =>
      have hget : store.entries[pre.length]? = none := by
        rw [hsplit]
        simp
      simp only [AccessStore.sweepRows, hget]
      exact ⟨SameClock.refl store, hwf, fun t ht => .inl ht⟩
    | cons row todo =>
      have hget : store.entries[pre.length]? = some row := by
        rw [hsplit]
        exact getElem?_middle pre todo row
      simp only [AccessStore.sweepRows, hget]
      by_cases hselect : selects row = true
      · have hbury := bury_row hwf (alloc removed) (.inl (hproof row)) hsplit
          (hidentity row).symm
        have hnext : ((store.recordTombstone (mark row) (alloc removed)).2.removeRow
            pre.length).entries = pre ++ todo := by
          obtain ⟨hentries, -⟩ := record_clock store (mark row) (alloc removed)
          rw [AccessStore.removeRow, hentries, hsplit, eraseIdx_split]
        obtain ⟨hclock, hwf', hmarkers⟩ :=
          ih todo pre (removed + 1) hbury.wellFormed hnext (Nat.le_of_succ_le_succ hfuel)
        rw [if_pos hselect]
        refine ⟨hbury.clock.trans hclock, hwf', fun t ht => ?_⟩
        rcases hmarkers t ht with ht | ⟨old, hold, hsel, hmarked⟩
        · cases hbury.markers t ht with
          | other hmem _ => exact .inl hmem
          | kept hmem _ _ => exact .inl hmem
          | new hmarked => exact .inr ⟨row, mem_cons_self, hselect, hmarked⟩
        · exact .inr ⟨old, mem_cons_of_mem row hold, hsel, hmarked⟩
      · have hsplit' : store.entries = (pre ++ [row]) ++ todo := by
          rw [hsplit, append_assoc]
          rfl
        have hlen : (pre ++ [row]).length = pre.length + 1 := by simp
        obtain ⟨hclock, hwf', hmarkers⟩ :=
          ih todo (pre ++ [row]) removed hwf hsplit' (Nat.le_of_succ_le_succ hfuel)
        rw [hlen] at hclock hwf' hmarkers
        rw [if_neg hselect]
        refine ⟨hclock, hwf', fun t ht => ?_⟩
        rcases hmarkers t ht with ht | ⟨old, hold, hsel, hmarked⟩
        · exact .inl ht
        · exact .inr ⟨old, mem_cons_of_mem row hold, hsel, hmarked⟩

theorem sweep_step (hwf : WellFormed store) {selects : Entry → Bool} {mark : Entry → Mark}
    (hidentity : ∀ row, (mark row).identity = row.identity)
    (hproof : ∀ row, (mark row).proof = none) (alloc : Nat → Bool) (removed : Nat) :
    SweepStep selects mark store
      (AccessStore.sweepRows selects mark alloc store.entries.length 0 removed store).2 := by
  have hentries := sweep_entries selects mark alloc store.entries [] removed rfl (Nat.le_refl _)
  obtain ⟨hclock, hwf', hmarkers⟩ :=
    sweep_split hidentity hproof alloc store.entries [] removed hwf rfl (Nat.le_refl _)
  refine ⟨hclock, fun e => ?_, hmarkers, hwf'⟩
  rw [length_nil] at hentries
  rw [hentries, nil_append, mem_filter]
  simp

end OnyxServer.Access
