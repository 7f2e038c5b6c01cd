import OnyxServer.Access.Steps

/-!
# What an operation does

Every operation keeps a store well formed. A merged fact is stale, or it outranks all
that is known of its identity and takes its place; every other operation writes rows and
markers of its own node at stamps from the clock, or markers of lapsed rows at theirs.
-/
namespace OnyxServer.Access

open Lib Text

variable {store next : AccessStore} {fact : RemoteFact} {lapsed alloc : Bool}

/-- A row or a marker of the identity is kept. -/
def Known (store : AccessStore) (X : Identity) : Prop :=
  (∃ e ∈ store.entries, e.identity = X) ∨ ∃ t ∈ store.tombstones, t.identity = X

instance (store : AccessStore) (X : Identity) : Decidable (Known store X) :=
  inferInstanceAs (Decidable (_ ∨ _))

/-- The fact ranks above every row and marker of its identity. -/
structure Outranks (fact : RemoteFact) (store : AccessStore) : Prop where
  row : ∀ e ∈ store.entries, e.identity = fact.identity → e.rank < fact.rank
  marker : ∀ t ∈ store.tombstones, t.identity = fact.identity → t.rank < fact.rank

/-- Every outcome of the merge. -/
inductive MergeStep (store : AccessStore) (fact : RemoteFact) (lapsed : Bool) :
    Except StoreError ApplyOutcome → AccessStore → Prop
  | failed (e : StoreError) (next : AccessStore) (habove : Outranks fact store)
      (hclock : SameClock store next) (hrows : next.entries = store.entries)
      (hsub : next.tombstones.Sublist store.tombstones) : MergeStep store fact lapsed
        (.error e) next
  | staleMarker (t : Tombstone) (hmem : t ∈ store.tombstones) (hkey : t.identity = fact.identity)
      (hle : fact.rank ≤ t.rank) : MergeStep store fact lapsed (.ok .stale) store
  | staleRow (e : Entry) (hmem : e ∈ store.entries) (hkey : e.identity = fact.identity)
      (hle : fact.rank ≤ e.rank) : MergeStep store fact lapsed (.ok .stale) store
  | applied (row : Entry) (next : AccessStore) (hpresent : fact.present = true)
      (hlapsed : lapsed = false) (habove : Outranks fact store)
      (hput : PutStep store (AccessStore.factWrite fact) row next) :
    MergeStep store fact lapsed (.ok .applied) next
  | deleted (next : AccessStore) (hgone : fact.present = false ∨ lapsed = true)
      (habove : Outranks fact store) (hbury : BuryStep store (AccessStore.factMark fact) next)
      (hknown : ∃ t ∈ next.tombstones, t.identity = fact.identity ∧ fact.rank ≤ t.rank) :
    MergeStep store fact lapsed (.ok .deleted) next

theorem record_failed {m : Mark} {e : StoreError}
    (h : store.recordTombstone m alloc = (.error e, next)) :
    SameClock store next ∧ next.entries = store.entries ∧
      next.tombstones.Sublist store.tombstones := by
  have hstep := record_step store m alloc
  rw [h] at hstep
  cases hstep with
  | failed e ts hsub hnone => exact ⟨⟨rfl, rfl, rfl⟩, rfl, hsub⟩

theorem upsert_failed {w : Write} {e : StoreError} (h : store.upsert w alloc = (.error e, next)) :
    next = store := by
  have hstep := upsert_step store w alloc
  rw [h] at hstep
  cases hstep with
  | failed e => rfl

theorem findTombstone_some {t : Tombstone}
    (h : store.findTombstone fact.channel fact.level fact.mask = some t) :
    t ∈ store.tombstones ∧ t.identity = fact.identity := by
  have hnames := List.find?_some h
  exact ⟨List.mem_of_find?_eq_some h, Tombstone.names_iff.mp hnames⟩

theorem findTombstone_none (h : store.findTombstone fact.channel fact.level fact.mask = none) :
    ∀ t ∈ store.tombstones, t.identity ≠ fact.identity :=
  fun t ht hkey => absurd (Tombstone.names_iff.mpr hkey) (List.find?_eq_none.mp h t ht)

/-- The row that the merge compares with is the row of the identity. -/
theorem current_row (hwf : WellFormed store) (fact : RemoteFact) :
    (∃ l e r, store.entries = l ++ e :: r ∧ e.identity = fact.identity ∧
      store.findIndex fact.channel fact.level fact.mask = some l.length ∧
      (store.findIndex fact.channel fact.level fact.mask).bind (store.entries[·]?) = some e ∧
      ∀ e' ∈ store.entries, e'.identity = fact.identity → e' = e) ∨
    (store.findIndex fact.channel fact.level fact.mask = none ∧
      ∀ e ∈ store.entries, e.identity ≠ fact.identity) := by
  cases hfind : store.findIndex fact.channel fact.level fact.mask with
  | none => exact .inr ⟨rfl, findIndex_none hfind⟩
  | some idx =>
    obtain ⟨l, e, r, hsplit, rfl, hkey⟩ := findIndex_split hfind
    refine .inl ⟨l, e, r, hsplit, hkey, rfl, ?_, fun e' he' hkey' => ?_⟩
    · rw [Option.bind_some, hsplit]
      exact getElem?_middle l r e
    · exact hwf.rows.eq_of_key he' (by rw [hsplit]; simp) (hkey'.trans hkey.symm)

theorem mergeRow_step (hwf : WellFormed store) (alloc : Bool) (hpresent : fact.present = true)
    (habove : Outranks fact store) :
    MergeStep store fact false (store.mergeRow fact alloc).1 (store.mergeRow fact alloc).2 := by
  unfold AccessStore.mergeRow
  cases hput : store.upsert (AccessStore.factWrite fact) alloc with
  | mk answer middle =>
    cases answer with
    | error e =>
      obtain rfl := upsert_failed hput
      exact .failed e middle habove (SameClock.refl middle) rfl (List.Sublist.refl _)
    | ok value =>
      obtain ⟨row, hstep⟩ := put_step hwf hput
      exact .applied row _ hpresent rfl habove hstep

theorem mergeDelete_step (hwf : WellFormed store) (alloc : Bool)
    (hgone : fact.present = false ∨ lapsed = true) (habove : Outranks fact store) :
    MergeStep store fact lapsed
      (store.mergeDelete fact (store.findIndex fact.channel fact.level fact.mask) alloc).1
      (store.mergeDelete fact (store.findIndex fact.channel fact.level fact.mask) alloc).2 := by
  unfold AccessStore.mergeDelete
  cases hrecord : store.recordTombstone (AccessStore.factMark fact) alloc with
  | mk answer middle =>
    cases answer with
    | error e =>
      obtain ⟨hclock, hrows, hsub⟩ := record_failed hrecord
      exact .failed e middle habove hclock hrows hsub
    | ok value =>
      have hok : (store.recordTombstone (AccessStore.factMark fact) alloc).1 = .ok () := by
        rw [hrecord]
      have hmiddle : (store.recordTombstone (AccessStore.factMark fact) alloc).2 = middle := by
        rw [hrecord]
      have hknown := record_known hok
      rw [hmiddle] at hknown
      rcases current_row hwf fact with ⟨l, e, r, hsplit, hkey, hidx, -, -⟩ | ⟨hidx, hnone⟩
      · have hbury := bury_row hwf alloc (.inr hok) hsplit hkey
        rw [hidx]
        rw [hmiddle] at hbury
        exact .deleted _ hgone habove hbury hknown
      · have hbury := bury_absent hwf alloc (.inr hok) hnone
        rw [hidx]
        rw [hmiddle] at hbury
        exact .deleted _ hgone habove hbury hknown

theorem ranks_false_iff {hlc originNode : UInt64} :
    (!ranksAbove fact.hlc fact.originNode hlc originNode) = true ↔
      fact.rank ≤ Access.rank hlc originNode := by
  rw [Bool.not_eq_true', Bool.eq_false_iff, ne_eq, ranksAbove_iff, not_lt]
  rfl

section

variable (hwf : WellFormed store) (fact : RemoteFact)
include hwf

/-- The comparison with the marker tells whether the markers are outranked. -/
theorem marker_test :
    (∃ t ∈ store.tombstones, t.identity = fact.identity ∧ fact.rank ≤ t.rank ∧
      (store.findTombstone fact.channel fact.level fact.mask).any (fun marker =>
        !ranksAbove fact.hlc fact.originNode marker.hlc marker.originNode) = true) ∨
    (∀ t ∈ store.tombstones, t.identity = fact.identity → t.rank < fact.rank) ∧
      (store.findTombstone fact.channel fact.level fact.mask).any (fun marker =>
        !ranksAbove fact.hlc fact.originNode marker.hlc marker.originNode) = false := by
  cases hfind : store.findTombstone fact.channel fact.level fact.mask with
  | none => exact .inr ⟨fun t ht hkey => absurd hkey (findTombstone_none hfind t ht), rfl⟩
  | some t =>
    obtain ⟨hmem, hkey⟩ := findTombstone_some hfind
    rw [Option.any_some]
    by_cases hle : fact.rank ≤ t.rank
    · exact .inl ⟨t, hmem, hkey, hle, ranks_false_iff.mpr hle⟩
    · refine .inr ⟨fun t' ht' hkey' => ?_, Bool.eq_false_iff.mpr (mt ranks_false_iff.mp hle)⟩
      rw [hwf.markers.eq_of_key ht' hmem (hkey'.trans hkey.symm)]
      exact not_le.mp hle

/-- The comparison with the row tells whether the rows are outranked. -/
theorem row_test :
    (∃ e ∈ store.entries, e.identity = fact.identity ∧ fact.rank ≤ e.rank ∧
      ((store.findIndex fact.channel fact.level fact.mask).bind (store.entries[·]?)).any
        (fun current => !ranksAbove fact.hlc fact.originNode current.hlc current.originNode) =
          true) ∨
    (∀ e ∈ store.entries, e.identity = fact.identity → e.rank < fact.rank) ∧
      ((store.findIndex fact.channel fact.level fact.mask).bind (store.entries[·]?)).any
        (fun current => !ranksAbove fact.hlc fact.originNode current.hlc current.originNode) =
          false := by
  rcases current_row hwf fact with ⟨l, e, r, hsplit, hkey, -, hrow, honly⟩ | ⟨hidx, hnone⟩
  · rw [hrow, Option.any_some]
    by_cases hle : fact.rank ≤ e.rank
    · exact .inl ⟨e, by rw [hsplit]; simp, hkey, hle, ranks_false_iff.mpr hle⟩
    · refine .inr ⟨fun e' he' hkey' => ?_, Bool.eq_false_iff.mpr (mt ranks_false_iff.mp hle)⟩
      rw [honly e' he' hkey']
      exact not_le.mp hle
  · rw [hidx]
    exact .inr ⟨fun e he hkey => absurd hkey (hnone e he), rfl⟩

theorem merge_step (lapsed alloc : Bool) :
    MergeStep store fact lapsed (store.merge fact lapsed alloc).1
      (store.merge fact lapsed alloc).2 := by
  unfold AccessStore.merge
  rcases marker_test hwf fact with ⟨t, hmem, hkey, hle, htest⟩ | ⟨hmarkers, htest⟩
  · simp only [htest, ↓reduceIte]
    exact .staleMarker t hmem hkey hle
  simp only [htest, Bool.false_eq_true, ↓reduceIte]
  rcases row_test hwf fact with ⟨e, hmem, hkey, hle, htest⟩ | ⟨hrows, htest⟩
  · simp only [htest, ↓reduceIte]
    exact .staleRow e hmem hkey hle
  simp only [htest, Bool.false_eq_true, ↓reduceIte]
  have habove : Outranks fact store := ⟨hrows, hmarkers⟩
  cases hpresent : fact.present with
  | false => exact mergeDelete_step hwf alloc (.inl hpresent) habove
  | true =>
    cases lapsed with
    | true => exact mergeDelete_step hwf alloc (.inr rfl) habove
    | false => exact mergeRow_step hwf alloc hpresent habove

end

/-- A row that the store wrote itself, at a stamp from its clock. -/
structure LocalRow (store : AccessStore) (e : Entry) : Prop where
  proof : e.originProof = none
  node : e.originNode = store.localNode
  hlc : store.hlc ≤ e.hlc

/-- A marker that the store wrote itself: of a local write, or of a row that lapsed. -/
structure LocalMarker (store : AccessStore) (t : Tombstone) : Prop where
  proof : t.originProof = none
  stamp : (t.originNode = store.localNode ∧ store.hlc ≤ t.hlc) ∨
    ∃ row ∈ store.entries, t.identity = row.identity ∧ t.rank = row.rank

/-- What an operation other than a merge does. -/
structure LocalStep (store next : AccessStore) : Prop where
  wellFormed : WellFormed next
  hlc : store.hlc ≤ next.hlc
  localNode : next.localNode = store.localNode
  rows : ∀ e ∈ next.entries,
    (∃ old ∈ store.entries, e = { old with expiresAt := e.expiresAt }) ∨ LocalRow store e
  markers : ∀ t ∈ next.tombstones, t ∈ store.tombstones ∨ LocalMarker store t

theorem LocalStep.refl (hwf : WellFormed store) : LocalStep store store :=
  ⟨hwf, UInt64.le_refl _, rfl, fun e he => .inl ⟨e, he, rfl⟩, fun _ ht => .inl ht⟩

theorem LocalStep.trans {last : AccessStore} (h : LocalStep store next) (h' : LocalStep next last) :
    LocalStep store last where
  wellFormed := h'.wellFormed
  hlc := h.hlc.trans h'.hlc
  localNode := h'.localNode.trans h.localNode
  rows e he := by
    rcases h'.rows e he with ⟨old, hold, heq⟩ | hlocal
    · rcases h.rows old hold with ⟨older, holder, heq'⟩ | hlocal
      · exact .inl ⟨older, holder, by rw [heq, heq']⟩
      · exact .inr ⟨by rw [heq]; exact hlocal.proof, by rw [heq]; exact hlocal.node,
          by rw [heq]; exact hlocal.hlc⟩
    · exact .inr ⟨hlocal.proof, hlocal.node.trans h.localNode, h.hlc.trans hlocal.hlc⟩
  markers t ht := by
    rcases h'.markers t ht with hold | hlocal
    · exact h.markers t hold
    refine .inr ⟨hlocal.proof, ?_⟩
    rcases hlocal.stamp with ⟨hnode, hstamp⟩ | ⟨row, hrow, hkey, hrank⟩
    · exact .inl ⟨hnode.trans h.localNode, h.hlc.trans hstamp⟩
    rcases h.rows row hrow with ⟨old, hold, heq⟩ | hlocal
    · exact .inr ⟨old, hold, hkey.trans (by rw [heq]; rfl), hrank.trans (by rw [heq]; rfl)⟩
    · obtain ⟨hhlc, hnode⟩ := Prod.mk.inj (congrArg ofLex hrank)
      exact .inl ⟨hnode.trans hlocal.node, hhlc ▸ hlocal.hlc⟩

theorem WellFormed.withClock (hwf : WellFormed store) (hrows : next.entries = store.entries)
    (hmarkers : next.tombstones = store.tombstones) : WellFormed next :=
  ⟨hrows ▸ hwf.rows, hmarkers ▸ hwf.markers, by rw [hrows, hmarkers]; exact hwf.apart⟩

theorem WellFormed.observe (hwf : WellFormed store) (hlc : UInt64) :
    WellFormed (store.observeHlc hlc) := hwf.withClock rfl rfl

theorem le_nextHlc (store : AccessStore) : store.hlc ≤ store.nextHlc.1 := by
  have hle : store.hlc ≤ satAdd store.hlc 1 := by
    rw [UInt64.le_iff_toNat_le, satAdd_toNat]
    have hmax := toNat_le_maxU64 store.hlc
    omega
  exact hle.trans (le_max_left _ _)

theorem LocalStep.nextHlc (hwf : WellFormed store) : LocalStep store store.nextHlc.2 :=
  ⟨hwf.withClock rfl rfl, le_nextHlc store, rfl, fun e he => .inl ⟨e, he, rfl⟩, fun _ ht => .inl ht⟩

theorem PutStep.toLocal {w : Write} {row : Entry} (h : PutStep store w row next)
    (hproof : w.proof = none) (hnode : w.originNode = store.localNode) (hhlc : store.hlc ≤ w.hlc) :
    LocalStep store next where
  wellFormed := h.wellFormed
  hlc := h.clock.hlc.ge
  localNode := h.clock.localNode
  rows e he := by
    rcases (h.rows e).mp he with rfl | ⟨hold, -⟩
    · exact .inr ⟨h.wrote.originProof.trans hproof, h.wrote.originNode.trans hnode,
        h.wrote.hlc ▸ hhlc⟩
    · exact .inl ⟨e, hold, rfl⟩
  markers t ht := .inl ((h.markers t).mp ht).1

theorem BuryStep.toLocal {m : Mark} (h : BuryStep store m next) (hproof : m.proof = none)
    (hnode : m.originNode = store.localNode) (hhlc : store.hlc ≤ m.hlc) : LocalStep store next where
  wellFormed := h.wellFormed
  hlc := h.clock.hlc.ge
  localNode := h.clock.localNode
  rows e he := .inl ⟨e, ((h.rows e).mp he).1, rfl⟩
  markers t ht := by
    cases h.markers t ht with
    | other hmem _ => exact .inl hmem
    | kept hmem _ _ => exact .inl hmem
    | new hmarked =>
      exact .inr ⟨hmarked.originProof.trans hproof,
        .inl ⟨hmarked.originNode.trans hnode, hmarked.hlc ▸ hhlc⟩⟩

theorem SweepStep.toLocal {selects : Entry → Bool} {mark : Entry → Mark}
    (h : SweepStep selects mark store next)
    (hmark : ∀ row ∈ store.entries, ∀ t, Marked (mark row) t → LocalMarker store t) :
    LocalStep store next where
  wellFormed := h.wellFormed
  hlc := h.clock.hlc.ge
  localNode := h.clock.localNode
  rows e he := .inl ⟨e, ((h.rows e).mp he).1, rfl⟩
  markers t ht := by
    rcases h.markers t ht with hold | ⟨row, hrow, -, hmarked⟩
    · exact .inl hold
    · exact .inr (hmark row hrow t hmarked)

/-- The write of a local add. -/
def addWrite (store : AccessStore) (channel : Bytes) (level : Level) (mask setBy : Bytes)
    (duration : Option UInt64) : Write :=
  { channel, level, mask, setBy
    duration := store.nextHlc.2.stampDuration duration store.nextHlc.1
    hlc := store.nextHlc.1, originNode := store.localNode, proof := none }

/-- A local add refuses and writes nothing, or it puts its row. -/
theorem add_step (hwf : WellFormed store) (channel : Bytes) (level : Level) (mask setBy : Bytes)
    (duration : Option UInt64) (alloc : Bool) :
    (∃ e, (store.add channel level mask setBy duration alloc).1 = .error e ∧
      LocalStep store (store.add channel level mask setBy duration alloc).2) ∨
    (store.add channel level mask setBy duration alloc).1 = .ok () ∧
      ∃ row, PutStep store.nextHlc.2 (addWrite store channel level mask setBy duration) row
        (store.add channel level mask setBy duration alloc).2 := by
  unfold AccessStore.add
  split
  · exact .inl ⟨_, rfl, .refl hwf⟩
  have hclock := LocalStep.nextHlc hwf
  dsimp only
  split
  · rename_i e middle hfail
    obtain rfl := upsert_failed hfail
    exact .inl ⟨e, rfl, hclock⟩
  · rename_i middle hput
    exact .inr ⟨rfl, put_step hclock.wellFormed hput⟩

/-- The mark of a local remove. -/
def removeMark (store : AccessStore) (channel : Bytes) (level : Level) (mask : Bytes) : Mark :=
  { channel, level, mask, hlc := store.nextHlc.1, originNode := store.localNode, proof := none }

section

variable (hwf : WellFormed store)
include hwf

/-- A local remove refuses, or it buries its identity, row or no row. -/
theorem remove_step (channel : Bytes) (level : Level) (mask : Bytes)
    (alloc : Bool) :
    (∃ e, store.remove channel level mask alloc = (.error e, store)) ∨
    (∃ found, (store.remove channel level mask alloc).1 = .ok found) ∧
      BuryStep store.nextHlc.2 (removeMark store channel level mask)
        (store.remove channel level mask alloc).2 := by
  unfold AccessStore.remove
  split
  · exact .inl ⟨_, rfl⟩
  have hwf' := (LocalStep.nextHlc hwf).wellFormed
  dsimp only
  split
  · rename_i hnone
    exact .inr ⟨⟨false, rfl⟩, bury_absent hwf' alloc (.inl rfl) (findIndex_none hnone)⟩
  · rename_i idx hfind
    obtain ⟨l, row, r, hsplit, rfl, hkey⟩ := findIndex_split hfind
    exact .inr ⟨⟨true, rfl⟩, bury_row hwf' alloc (.inl rfl) hsplit hkey⟩

/-- A clear refuses, or it sweeps the selected rows. -/
theorem clear_step (selector : Selector) (alloc : Nat → Bool) :
    (∃ e, store.clear selector alloc = (.error e, store)) ∨
    (∃ removed, (store.clear selector alloc).1 = .ok removed) ∧
      SweepStep selector.matches (AccessStore.localMark store.nextHlc.1 store.localNode)
        store.nextHlc.2 (store.clear selector alloc).2 := by
  unfold AccessStore.clear
  split
  · exact .inl ⟨_, rfl⟩
  · exact .inr ⟨⟨_, rfl⟩,
      sweep_step (LocalStep.nextHlc hwf).wellFormed (fun _ => rfl) (fun _ => rfl) alloc 0⟩

theorem add_local (channel : Bytes) (level : Level) (mask setBy : Bytes)
    (duration : Option UInt64) (alloc : Bool) :
    LocalStep store (store.add channel level mask setBy duration alloc).2 := by
  rcases add_step hwf channel level mask setBy duration alloc with
    ⟨e, -, hlocal⟩ | ⟨-, row, hput⟩
  · exact hlocal
  · exact (LocalStep.nextHlc hwf).trans (hput.toLocal rfl rfl (UInt64.le_refl _))

theorem remove_local (channel : Bytes) (level : Level) (mask : Bytes)
    (alloc : Bool) : LocalStep store (store.remove channel level mask alloc).2 := by
  rcases remove_step hwf channel level mask alloc with ⟨e, he⟩ | ⟨-, hbury⟩
  · rw [he]
    exact .refl hwf
  · exact (LocalStep.nextHlc hwf).trans (hbury.toLocal rfl rfl (UInt64.le_refl _))

theorem clear_local (selector : Selector) (alloc : Nat → Bool) :
    LocalStep store (store.clear selector alloc).2 := by
  rcases clear_step hwf selector alloc with ⟨e, he⟩ | ⟨-, hsweep⟩
  · rw [he]
    exact .refl hwf
  · refine (LocalStep.nextHlc hwf).trans (hsweep.toLocal fun row _ t hmarked => ?_)
    exact ⟨hmarked.originProof, .inl ⟨hmarked.originNode, hmarked.hlc.ge⟩⟩

theorem prune_sweep (alloc : Nat → Bool) :
    SweepStep store.isExpired AccessStore.lapseMark store
      (AccessStore.sweepRows store.isExpired AccessStore.lapseMark alloc store.entries.length 0 0
        store).2 :=
  sweep_step hwf (fun _ => rfl) (fun _ => rfl) alloc 0

end

theorem pruneTombstones_frame (store : AccessStore) :
    store.pruneTombstones.2.entries = store.entries ∧ SameClock store store.pruneTombstones.2 ∧
      store.pruneTombstones.2.tombstones.Sublist store.tombstones := by
  unfold AccessStore.pruneTombstones
  split
  · exact ⟨rfl, SameClock.refl store, List.Sublist.refl _⟩
  · exact ⟨rfl, ⟨rfl, rfl, rfl⟩, List.filter_sublist⟩

/-- A prune keeps rows that have not lapsed and adds no marker but those of lapsed rows. -/
theorem prune_step (hwf : WellFormed store) (alloc : Nat → Bool) :
    SweepStep store.isExpired AccessStore.lapseMark store (store.pruneExpired alloc).2 := by
  have hsweep := prune_sweep hwf alloc
  unfold AccessStore.pruneExpired
  generalize AccessStore.sweepRows store.isExpired AccessStore.lapseMark alloc
    store.entries.length 0 0 store = swept at hsweep
  obtain ⟨removed, middle⟩ := swept
  obtain ⟨hentries, hclock, hsub⟩ := pruneTombstones_frame middle
  refine ⟨hsweep.clock.trans hclock, fun e => ?_, fun t ht => hsweep.markers t (hsub.subset ht), ?_⟩
  · rw [← hsweep.rows e]
    exact Eq.to_iff (congrArg (e ∈ ·) hentries)
  · exact ⟨hentries ▸ hsweep.wellFormed.rows, hsweep.wellFormed.markers.sublist hsub,
      fun e he t ht => hsweep.wellFormed.apart e (hentries ▸ he) t (hsub.subset ht)⟩

theorem prune_local (hwf : WellFormed store) (alloc : Nat → Bool) :
    LocalStep store (store.pruneExpired alloc).2 :=
  (prune_step hwf alloc).toLocal fun row hrow _ hmarked =>
    ⟨hmarked.originProof, .inr ⟨row, hrow, hmarked.identity, hmarked.rank⟩⟩

theorem reanchor_local (hwf : WellFormed store) :
    LocalStep store store.reanchorTimedExpiries.2 := by
  unfold AccessStore.reanchorTimedExpiries
  split
  · exact .refl hwf
  refine ⟨⟨?_, hwf.markers, ?_⟩, UInt64.le_refl _, rfl, fun e he => ?_, fun t ht => .inl ht⟩
  · rw [DistinctKeys, List.map_map]
    exact hwf.rows
  · intro e he t ht
    obtain ⟨old, hold, rfl⟩ := List.mem_map.mp he
    exact hwf.apart old hold t ht
  · obtain ⟨old, hold, rfl⟩ := List.mem_map.mp he
    exact .inl ⟨old, hold, rfl⟩

theorem copyRows_local (destination : Bytes) (alloc : Nat → Bool) {staged : List Entry}
    {copied : Nat} (hwf : WellFormed store) :
    LocalStep store (AccessStore.copyRows destination alloc staged copied store).2 := by
  induction staged generalizing store copied with
  | nil => exact .refl hwf
  | cons row staged ih =>
    have hclock := LocalStep.nextHlc hwf
    unfold AccessStore.copyRows
    dsimp only
    split
    · rename_i e middle hfail
      obtain rfl := upsert_failed hfail
      exact hclock
    · rename_i middle hput
      obtain ⟨written, hstep⟩ := put_step hclock.wellFormed hput
      exact (hclock.trans (hstep.toLocal rfl rfl (UInt64.le_refl _))).trans (ih hstep.wellFormed)

section

variable (hwf : WellFormed store)
include hwf

theorem clearFirst_local (destination : Bytes) (mode : CopyMode)
    (alloc : Nat → Bool) : LocalStep store (store.clearFirst destination mode alloc).2 := by
  cases mode with
  | merge => exact .refl hwf
  | replace => exact clear_local hwf _ alloc

theorem copyTemplate_local (destination source : Bytes) (removed : Nat)
    (allocs : AccessStore.CopyAllocs) :
    LocalStep store (store.copyTemplate destination source removed allocs).2 := by
  unfold AccessStore.copyTemplate
  have hcopy : LocalStep store (AccessStore.copyRows destination allocs.write
      ((store.template source).map (store.stagedRow destination)) 0 store).2 :=
    copyRows_local destination allocs.write hwf
  generalize AccessStore.copyRows destination allocs.write
    ((store.template source).map (store.stagedRow destination)) 0 store = result at hcopy
  obtain ⟨answer, next⟩ := result
  simp only
  split
  · exact .refl hwf
  · split
    · exact .refl hwf
    · cases answer <;> exact hcopy

theorem copyFrom_local (destination source : Bytes) (mode : CopyMode)
    (allocs : AccessStore.CopyAllocs) :
    LocalStep store (store.copyFrom destination source mode allocs).2 := by
  unfold AccessStore.copyFrom
  split
  · exact .refl hwf
  have hclear := clearFirst_local hwf destination mode allocs.clear
  split
  · rename_i e middle hfail
    rwa [hfail] at hclear
  · rename_i removed middle hok
    rw [hok] at hclear
    exact hclear.trans (copyTemplate_local hclear.wellFormed destination source removed allocs)

/-- Every operation but a merge writes only what is its own. -/
theorem step_local {op : Op} (hop : ∀ fact alloc, op ≠ .applyRemote fact alloc) :
    LocalStep store (step store op).2 := by
  cases op with
  | setClock nowSeconds =>
    exact ⟨hwf.withClock rfl rfl, UInt64.le_refl _, rfl, fun e he => .inl ⟨e, he, rfl⟩,
      fun _ ht => .inl ht⟩
  | add channel level mask setBy duration alloc =>
    exact add_local hwf channel level mask setBy duration alloc
  | remove channel level mask alloc => exact remove_local hwf channel level mask alloc
  | clear selector alloc => exact clear_local hwf selector alloc
  | copyFrom destination source mode allocs =>
      exact copyFrom_local hwf destination source mode allocs
  | applyRemote fact alloc => exact absurd rfl (hop fact alloc)
  | pruneExpired alloc => exact prune_local hwf alloc
  | reanchorTimedExpiries => exact reanchor_local hwf

/-- A delivered fact is refused and changes nothing, or it is observed and merged. -/
theorem remote_step (fact : RemoteFact) (alloc : Bool) :
    (∃ e, store.applyRemote fact alloc = (.error e, store)) ∨
    (AccessStore.validateFact fact = .ok () ∧ store.tooFarAhead fact.hlc = false ∧
      MergeStep (store.observeHlc fact.hlc) fact (store.originLapsed fact)
        (store.applyRemote fact alloc).1 (store.applyRemote fact alloc).2) := by
  unfold AccessStore.applyRemote
  split
  · exact .inl ⟨_, rfl⟩
  rename_i hvalid
  by_cases hfar : store.tooFarAhead fact.hlc = true
  · rw [if_pos hfar]
    exact .inl ⟨_, rfl⟩
  · rw [if_neg hfar]
    exact .inr ⟨hvalid, by simpa using hfar, merge_step (hwf.observe fact.hlc) fact _ alloc⟩

theorem MergeStep.wellFormed {answer : Except StoreError ApplyOutcome}
    (h : MergeStep store fact lapsed answer next) : WellFormed next := by
  cases h with
  | failed e next habove hclock hrows hsub =>
    exact ⟨hrows ▸ hwf.rows, hwf.markers.sublist hsub,
      fun e he t ht => hwf.apart e (hrows ▸ he) t (hsub.subset ht)⟩
  | staleMarker => exact hwf
  | staleRow => exact hwf
  | applied row next hpresent hlapsed habove hput => exact hput.wellFormed
  | deleted next hgone habove hbury hknown => exact hbury.wellFormed

end

theorem step_wellFormed (store : AccessStore) (op : Op) (hwf : WellFormed store) :
    WellFormed (step store op).2 := by
  by_cases hop : ∃ fact alloc, op = .applyRemote fact alloc
  · obtain ⟨fact, alloc, rfl⟩ := hop
    rcases remote_step hwf fact alloc with ⟨e, he⟩ | ⟨-, -, hmerge⟩
    · show WellFormed (store.applyRemote fact alloc).2
      rw [he]
      exact hwf
    · exact hmerge.wellFormed (hwf.observe fact.hlc)
  · exact (step_local hwf fun fact alloc heq => hop ⟨fact, alloc, heq⟩).wellFormed

theorem wellFormed_init (maxEntries maxTombstones : Nat) (ttl localNode : UInt64) :
    WellFormed (AccessStore.init maxEntries maxTombstones ttl localNode) :=
  ⟨distinctKeys_nil _, distinctKeys_nil _, fun _ he => absurd he List.not_mem_nil⟩

end OnyxServer.Access
