import OnyxServer.SessionReplica.Filed

/-!
# Paging the retained objects

A peer pulls page after page while the store changes. Every page ascends behind its cursor,
and an object that is retained at every pull is answered once by the time a page is not full.
-/
namespace OnyxServer.SessionReplica

open Lib Text List

namespace Store

variable {crypto : Crypto} {s : Store} {nowMs : Int64} {object : RetainedObject}

/-- Rows whose objects name the key of their row. -/
theorem keyed_rows {κ ν : Type} [DecidableEq κ] {m : HashMap κ ν}
    {objects : (Sigma fun _ : κ => ν) → List RetainedObject} (name : RetainedCursor → κ)
    (hname : ∀ slot ∈ m.entries, ∀ object ∈ objects slot, name object.cursor = slot.1)
    (hrow : ∀ slot ∈ m.entries, Keyed RetainedObject.cursor (objects slot)) :
    Keyed RetainedObject.cursor (m.entries.flatMap objects) := by
  refine pairwise_map.mpr
    (pairwise_flatMap.mpr ⟨fun slot hslot => pairwise_map.mp (hrow slot hslot), ?_⟩)
  refine (nodupKeys_iff_pairwise.mp m.nodupKeys).imp_of_mem fun {a b} ha hb hne x hx y hy hcursor =>
    ?_
  exact hne ((hname a ha x hx).symm.trans ((congrArg name hcursor).trans (hname b hb y hy)))

theorem keyed_singleton (object : RetainedObject) : Keyed RetainedObject.cursor [object] :=
  nodup_singleton _

theorem keyed_append {xs ys : List RetainedObject} (hxs : Keyed RetainedObject.cursor xs)
    (hys : Keyed RetainedObject.cursor ys) (hcross : ∀ x ∈ xs, ∀ y ∈ ys, x.cursor ≠ y.cursor) :
    Keyed RetainedObject.cursor (xs ++ ys) :=
  pairwise_map.mpr (pairwise_append.mpr ⟨pairwise_map.mp hxs, pairwise_map.mp hys, hcross⟩)

/-- The origin a cursor names. -/
def originOf (cursor : RetainedCursor) : OriginKey := ⟨cursor.token, cursor.originNode⟩

theorem kind_of_offer {signed : SignedOffer} (h : signed.offer.isOffer) :
    (retainedObjectFromWire crypto signed).kind = .offer := by
  unfold Offer.isOffer at h
  rcases h with h | h
  · simp [retainedObjectFromWire, h]
  · simp [retainedObjectFromWire, h]

theorem quarantineObjects_spec {slot : Sigma fun _ : Token => Quarantine}
    (h : FiledQuarantine crypto slot.1 slot.2)
    (hobject : object ∈ quarantineObjects crypto nowMs slot) : object.kind = .offer ∧
    object.token = slot.1 := by
  unfold quarantineObjects at hobject
  split at hobject
  · cases hobject
  · rcases mem_pair.mp hobject with rfl | rfl
    · exact ⟨kind_of_offer h.first.1, h.first.2⟩
    · exact ⟨kind_of_offer h.second.1, h.second.2⟩

theorem entryObjects_spec {slot : Sigma fun _ : OriginKey => Entry}
    (hobject : object ∈ entryObjects crypto nowMs slot) :
    object.kind = .offer ∧ originOf object.cursor = slot.1 := by
  unfold entryObjects at hobject
  split at hobject
  · cases hobject
  · rw [mem_singleton.mp hobject]
    exact ⟨rfl, rfl⟩

theorem tombstoneObjects_spec {slot : Sigma fun _ : OriginKey => Tombstone}
    (hobject : object ∈ tombstoneObjects crypto nowMs slot) :
    object.kind = .revoke ∧ originOf object.cursor = slot.1 := by
  unfold tombstoneObjects at hobject
  split at hobject
  · cases hobject
  · rw [mem_singleton.mp hobject]
    exact ⟨rfl, rfl⟩

variable {slot : Sigma fun _ : OriginKey => AttachmentLeaseEntry}

theorem leaseObjects_spec {cfg : Config}
    (h : FiledLease crypto slot.1 slot.2) (hobject : object ∈ leaseObjects crypto cfg nowMs slot) :
    object.kind = .attachmentLease ∧ originOf object.cursor = slot.1 := by
  unfold leaseObjects at hobject
  split at hobject
  · cases hobject
  obtain ⟨lease, hlease, rfl⟩ := mem_map.mp hobject
  refine ⟨rfl, (rfl : originOf _ = lease.lease.key).trans ?_⟩
  rcases mem_cons.mp hlease with rfl | hwitness
  · exact h.keyed
  · exact (h.witness lease (Option.mem_toList.mp hwitness)).1

theorem groupObjects_spec {slot : Sigma fun _ : Token => GroupRevocation}
    (h : FiledGroup slot.1 slot.2)
    (hobject : object ∈ groupObjects crypto slot) : object.kind = .groupRevoke ∧
    object.token = slot.1 := by
  rw [groupObjects, mem_singleton] at hobject
  rw [hobject]
  exact ⟨by rw [retainedObjectFromWire, if_pos h.group], h.keyed⟩

theorem digest_ne {a b : RetainedObject} (h : a.digest ≠ b.digest) : a.cursor ≠ b.cursor :=
  fun hcursor => h (congrArg RetainedCursor.digest hcursor)

theorem keyed_pair {a b : RetainedObject} (h : a.digest ≠ b.digest) :
    Keyed RetainedObject.cursor [a, b] :=
  keyed_append (keyed_singleton a) (keyed_singleton b) fun x hx y hy => by
    rw [mem_singleton.mp hx, mem_singleton.mp hy]
    exact digest_ne h

theorem quarantineObjects_keyed (nowMs : Int64) {slot : Sigma fun _ : Token => Quarantine}
    (h : FiledQuarantine crypto slot.1 slot.2) :
    Keyed RetainedObject.cursor (quarantineObjects crypto nowMs slot) := by
  unfold quarantineObjects
  split
  · exact nodup_nil
  · exact keyed_pair h.differ

theorem leaseObjects_keyed (cfg : Config) (nowMs : Int64)
    (h : FiledLease crypto slot.1 slot.2) :
    Keyed RetainedObject.cursor (leaseObjects crypto cfg nowMs slot) := by
  unfold leaseObjects
  split
  · exact nodup_nil
  · cases hwitness : slot.2.conflictWire with
    | none => exact keyed_singleton _
    | some lease => exact keyed_pair (h.witness lease hwitness).2.symm

theorem entryObjects_keyed (crypto : Crypto) (nowMs : Int64)
    (slot : Sigma fun _ : OriginKey => Entry) :
    Keyed RetainedObject.cursor (entryObjects crypto nowMs slot) := by
  unfold entryObjects
  split
  · exact nodup_nil
  · exact keyed_singleton _

theorem tombstoneObjects_keyed (crypto : Crypto) (nowMs : Int64)
    (slot : Sigma fun _ : OriginKey => Tombstone) :
    Keyed RetainedObject.cursor (tombstoneObjects crypto nowMs slot) := by
  unfold tombstoneObjects
  split
  · exact nodup_nil
  · exact keyed_singleton _

/-- What a table exports: objects of one kind that their cursors tell apart. -/
structure Exports (kind : RetainedKind) (objects : List RetainedObject) : Prop where
  keyed : Keyed RetainedObject.cursor objects
  kind : ∀ object ∈ objects, object.kind = kind

theorem Exports.apart {a b : RetainedKind} {xs ys : List RetainedObject} (hxs : Exports a xs)
    (hys : Exports b ys) (h : a ≠ b) : ∀ x ∈ xs, ∀ y ∈ ys, x.cursor ≠ y.cursor := by
  intro x hx y hy hcursor
  have hkind : x.kind = y.kind := congrArg RetainedCursor.kind hcursor
  exact h ((hxs.kind x hx).symm.trans (hkind.trans (hys.kind y hy)))

theorem exports_rows {κ ν : Type} [DecidableEq κ] {m : HashMap κ ν}
    {objects : (Sigma fun _ : κ => ν) → List RetainedObject} {kind : RetainedKind}
    (name : RetainedCursor → κ)
    (hrow : ∀ slot ∈ m.entries, Keyed RetainedObject.cursor (objects slot))
    (hspec : ∀ slot ∈ m.entries, ∀ object ∈ objects slot, object.kind = kind ∧
      name object.cursor = slot.1) :
    Exports kind (m.entries.flatMap objects) where
  keyed :=
    keyed_rows name (fun slot hslot object hobject => (hspec slot hslot object hobject).2) hrow
  kind object hobject := by
    obtain ⟨slot, hslot, hin⟩ := mem_flatMap.mp hobject
    exact (hspec slot hslot object hin).1

theorem Filed.quarantines_export (h : Filed crypto s) (nowMs : Int64) :
    Exports .offer (s.quarantines.entries.flatMap (quarantineObjects crypto nowMs)) := by
  refine exports_rows RetainedCursor.token (fun slot hslot => ?_) fun slot hslot object hobject =>
    ?_
  · exact quarantineObjects_keyed nowMs (h.quarantines slot.1 slot.2 (HashMap.mem_entries.mp hslot))
  · exact quarantineObjects_spec
      (h.quarantines slot.1 slot.2 (HashMap.mem_entries.mp hslot)) hobject

theorem entries_export (crypto : Crypto) (s : Store) (nowMs : Int64) :
    Exports .offer (s.entries.entries.flatMap (entryObjects crypto nowMs)) :=
  exports_rows originOf (fun slot _ => entryObjects_keyed crypto nowMs slot) fun _ _ _ hobject =>
    entryObjects_spec hobject

theorem Filed.leases_export (h : Filed crypto s) (nowMs : Int64) :
    Exports .attachmentLease
      (s.attachmentLeases.entries.flatMap (leaseObjects crypto s.cfg nowMs)) := by
  refine exports_rows originOf (fun slot hslot => ?_) fun slot hslot object hobject => ?_
  · exact leaseObjects_keyed s.cfg nowMs (h.leases slot.1 slot.2 (HashMap.mem_entries.mp hslot))
  · exact leaseObjects_spec (h.leases slot.1 slot.2 (HashMap.mem_entries.mp hslot)) hobject

theorem tombstones_export (crypto : Crypto) (s : Store) (nowMs : Int64) :
    Exports .revoke (s.tombstones.entries.flatMap (tombstoneObjects crypto nowMs)) :=
  exports_rows originOf (fun slot _ => tombstoneObjects_keyed crypto nowMs slot)
    fun _ _ _ hobject =>
    tombstoneObjects_spec hobject

theorem Filed.groups_export (h : Filed crypto s) :
    Exports .groupRevoke (s.groupRevocations.entries.flatMap (groupObjects crypto)) := by
  refine exports_rows RetainedCursor.token
    (fun slot _ => keyed_singleton _) fun slot hslot object hobject => ?_
  exact groupObjects_spec (h.groups slot.1 slot.2 (HashMap.mem_entries.mp hslot)) hobject

/-- The evidence of a quarantine and the entries are OFFERs of different tokens. -/
theorem Filed.evidence_apart (h : Filed crypto s) (nowMs : Int64) :
    ∀ x ∈ s.quarantines.entries.flatMap (quarantineObjects crypto nowMs),
      ∀ y ∈ s.entries.entries.flatMap (entryObjects crypto nowMs), x.cursor ≠ y.cursor := by
  intro x hx y hy hcursor
  obtain ⟨slot, hslot, hx⟩ := mem_flatMap.mp hx
  obtain ⟨row, hrow, hy⟩ := mem_flatMap.mp hy
  have hheld := HashMap.mem_entries.mp hslot
  have htoken : slot.1 = row.1.token := by
    rw [← (quarantineObjects_spec (h.quarantines slot.1 slot.2 hheld) hx).2,
      ← (entryObjects_spec hy).2]
    exact congrArg RetainedCursor.token hcursor
  rw [htoken] at hheld
  exact nomatch (h.isolated row.1 slot.2 hheld).symm.trans (HashMap.mem_entries.mp hrow)

/-- No two of the objects a filed store exports have one cursor. -/
theorem Filed.keyed (h : Filed crypto s) (nowMs : Int64) :
    Keyed RetainedObject.cursor (s.retainedObjects crypto nowMs) := by
  have hquarantines := h.quarantines_export nowMs
  have hentries := entries_export crypto s nowMs
  have hleases := h.leases_export nowMs
  have htombstones := tombstones_export crypto s nowMs
  have hgroups := h.groups_export
  refine keyed_append hquarantines.keyed (keyed_append hentries.keyed (keyed_append hleases.keyed
    (keyed_append htombstones.keyed hgroups.keyed ?_) ?_) ?_) ?_
  · exact htombstones.apart hgroups nofun
  · exact fun x hx =>
      forall_mem_append.mpr ⟨hleases.apart htombstones nofun x hx, hleases.apart hgroups nofun x hx⟩
  · exact fun x hx =>
      forall_mem_append.mpr ⟨hentries.apart hleases nofun x hx, forall_mem_append.mpr
      ⟨hentries.apart htombstones nofun x hx, hentries.apart hgroups nofun x hx⟩⟩
  · exact fun x hx => forall_mem_append.mpr ⟨h.evidence_apart nowMs x hx, forall_mem_append.mpr
      ⟨hquarantines.apart hleases nofun x hx, forall_mem_append.mpr
        ⟨hquarantines.apart htombstones nofun x hx, hquarantines.apart hgroups nofun x hx⟩⟩⟩

end Store

/-! ## Pulls between calls -/

inductive PullEvent where
  | mutate (call : Call)
  | page (nowMs : Int64) (room : Nat)

/-- A store and where the peer that pages through it stands. -/
structure Puller where
  store : Store
  after : Option RetainedCursor

namespace Puller

variable (crypto : Crypto)

/-- A page continues from the last object of the page before. -/
def step (self : Puller) : PullEvent → List RetainedObject × Puller
  | .mutate call => ([], { self with store := (self.store.step crypto call).2 })
  | .page nowMs room =>
    let page := self.store.retainedObjectsAfter crypto nowMs self.after room
    (page, { self with after := (page.getLast?.map RetainedObject.cursor).or self.after })

abbrev PullVisit := Visit Puller PullEvent (List RetainedObject)

def query (v : PullVisit) : Option (Query RetainedObject) :=
  match v.input with
  | .mutate _ => none
  | .page nowMs room => some { scan := v.before.store.retainedObjects crypto nowMs, room, page :=
      v.output }

/-- The pages of a run, each with what the store exports when it is pulled. -/
def queries (vs : List PullVisit) : List (Query RetainedObject) := vs.filterMap (query crypto)

/-- The transcripts of the OFFERs that a run is handed or holds in entries. -/
def offerTranscripts (vs : List PullVisit) : List Bytes :=
  vs.flatMap fun v =>
    (match v.input with
      | .mutate (.applySignedOffer signed _ _ _) => [signed.transcript]
      | _ => []) ++ v.before.store.entries.entries.map fun slot => slot.2.wire.transcript

variable {crypto} {p : Puller} {events : List PullEvent} {v : PullVisit} {cfg : Config}

theorem queries_chained (crypto : Crypto) (p : Puller) (events : List PullEvent) :
    Chained RetainedObject.cursor p.after (queries crypto (visits (step crypto) p events)) := by
  induction events generalizing p with
  | nil => trivial
  | cons event events ih =>
    cases event with
    | mutate call => exact ih (p.step crypto (.mutate call)).2
    | page nowMs room =>
      exact ⟨p.store.retainedObjectsAfter_smallest crypto nowMs p.after room,
        ih (p.step crypto (.page nowMs room)).2⟩

theorem page_ordered (hv : v ∈ visits (step crypto) p events) :
    (v.output.Pairwise fun x y => x.cursor < y.cursor) ∧
      ∀ x ∈ v.output, behind RetainedObject.cursor v.before.after x = true := by
  have hanswer : (v.before.step crypto v.input).1 = v.output := congrArg Prod.fst (visit_step hv)
  rw [← hanswer]
  cases v.input with
  | mutate call => exact ⟨List.Pairwise.nil, nofun⟩
  | page nowMs room =>
    have hpage := v.before.store.retainedObjectsAfter_smallest crypto nowMs v.before.after room
    exact ⟨hpage.ascending, fun x hx => (hpage.behind_of_mem hx).2⟩

theorem step_filed (hstep : p.store.Filed crypto) {event : PullEvent}
    (htells : ∀ call, event = .mutate call → p.store.TellsCall crypto call) :
    (p.step crypto event).2.store.Filed crypto := by
  cases event with
  | mutate call => exact Store.step_filed hstep (htells call rfl)
  | page nowMs room => exact hstep

theorem tells_of_distinguishes {vs : List PullVisit}
    (hinj : Distinguishes crypto {bytes | bytes ∈ offerTranscripts vs}) (hv : v ∈ vs) {call : Call}
    (hcall : v.input = .mutate call) : v.before.store.TellsCall crypto call := by
  cases call with
  | applySignedOffer signed viaPeer nowMs alloc =>
    intro k e he
    have hhanded : signed.transcript ∈ offerTranscripts vs :=
      mem_flatMap.mpr ⟨v, hv, mem_append_left _ (by rw [hcall]; exact mem_singleton_self _)⟩
    have hheld : e.wire.transcript ∈ offerTranscripts vs :=
      mem_flatMap.mpr ⟨v, hv, mem_append_right _
        (mem_map_of_mem (f := fun slot => slot.2.wire.transcript) (HashMap.mem_entries.mpr he))⟩
    refine hinj.mono fun bytes hbytes => ?_
    rcases hbytes with rfl | rfl
    · exact hheld
    · exact hhanded
  | _ => trivial

/-- Every store of a run keeps its rows filed. -/
theorem run_filed (cfg : Config) (events : List PullEvent)
    (hinj : Distinguishes crypto
      {bytes | bytes ∈
        offerTranscripts (visits (step crypto) ⟨Store.initWithConfig cfg, none⟩ events)}) :
    (final (step crypto) ⟨Store.initWithConfig cfg, none⟩ events).store.Filed crypto ∧
      ∀ v ∈ visits (step crypto) ⟨Store.initWithConfig cfg, none⟩ events,
        v.before.store.Filed crypto := by
  have hrun := guarded_invariant (P := fun p => p.store.Filed crypto)
    (G := fun v => ∀ call, v.input = .mutate call → v.before.store.TellsCall crypto call)
    (fun v hstep htells hfiled => by
      have hnext := step_filed hfiled htells
      rw [hstep] at hnext
      exact hnext)
    (Store.filed_init crypto cfg) fun v hv call hcall => tells_of_distinguishes hinj hv hcall
  exact ⟨hrun.1, fun v hv => (hrun.2 v hv).1⟩

/-- What a run of pulls answers: pages in order, and every object that stays exactly once. -/
structure MissesNothing (crypto : Crypto) (vs : List PullVisit) : Prop where
  ascending : ∀ v ∈ vs, v.output.Pairwise fun x y => x.cursor.compare y.cursor = .lt
  above : ∀ v ∈ vs, ∀ lower, v.before.after = some lower →
    ∀ object ∈ v.output, object.cursor.compare lower = .gt
  once : ∀ full last rest, queries crypto vs = full ++ last :: rest → Complete full last →
    ∀ object, (∀ q ∈ full ++ [last], object ∈ q.scan) → (answers (full ++ [last])).count object = 1

/-- The pages of one store at one clock: they come to an end, and they are the objects that
`retainedCount` counts. -/
structure Enumerates (crypto : Crypto) (s : Store) (nowMs : Int64) (rooms : List Nat) : Prop where
  ends : s.retainedCount nowMs < rooms.length →
    ∃ q ∈ queries crypto (visits (step crypto) ⟨s, none⟩ (rooms.map (.page nowMs))),
      q.page.length < q.room
  counted : (s.retainedObjects crypto nowMs).length = s.retainedCount nowMs
  all : ∀ full last rest,
    queries crypto (visits (step crypto) ⟨s, none⟩ (rooms.map (.page nowMs))) =
      full ++ last :: rest →
    Complete full last → (answers (full ++ [last])).Perm (s.retainedObjects crypto nowMs)

theorem mem_queries {vs : List PullVisit} {q : Query RetainedObject} (hq : q ∈ queries crypto vs) :
    ∃ v ∈ vs, ∃ nowMs, q.scan = v.before.store.retainedObjects crypto nowMs := by
  obtain ⟨v, hv, hquery⟩ := mem_filterMap.mp hq
  unfold query at hquery
  split at hquery
  · cases hquery
  · next nowMs room _ => exact ⟨v, hv, nowMs, by rw [← Option.some.inj hquery]⟩

theorem pulls_miss_nothing {s : Store}
    (hfiled : ∀ v ∈ visits (step crypto) ⟨s, none⟩ events, v.before.store.Filed crypto) :
    MissesNothing crypto (visits (step crypto) ⟨s, none⟩ events) where
  ascending v hv := (page_ordered hv).1.imp RetainedCursor.compare_lt.mpr
  above v hv lower hlower object hobject := by
    have hbehind := (page_ordered hv).2 object hobject
    rw [hlower] at hbehind
    exact RetainedCursor.compare_gt.mpr (behind_some.mp hbehind)
  once full last rest hsplit hcomplete object hstays := by
    have hchained := queries_chained crypto ⟨s, none⟩ events
    have hsplit' :
        full ++ last :: rest = full ++ [last] ++ rest := by rw [append_assoc, singleton_append]
    rw [hsplit, hsplit'] at hchained
    refine hchained.left.once hcomplete (fun q hq => ?_) (behind_none _ _) hstays
    have hin : q ∈ queries crypto (visits (step crypto) ⟨s, none⟩ events) := by
      rw [hsplit, hsplit']
      exact mem_append_left rest hq
    obtain ⟨v, hv, nowMs, hscan⟩ := mem_queries hin
    rw [hscan]
    exact (hfiled v hv).keyed nowMs

/-- Pulls without a call between them are of one scan. -/
theorem queries_still (crypto : Crypto) (s : Store) (after : Option RetainedCursor) (nowMs : Int64)
    (rooms : List Nat) :
    (queries crypto (visits (step crypto) ⟨s, after⟩ (rooms.map (.page nowMs)))).map
      (fun q => (q.scan, q.room)) =
      rooms.map fun room => (s.retainedObjects crypto nowMs, room) := by
  induction rooms generalizing after with
  | nil => rfl
  | cons room rooms ih =>
    exact congrArg (List.cons (s.retainedObjects crypto nowMs, room))
      (ih ((s.retainedObjectsAfter crypto nowMs after room).getLast?.map RetainedObject.cursor
        |>.or after))

theorem enumerates {s : Store} {nowMs : Int64} {rooms : List Nat} (hfiled : s.Filed crypto)
    (hrooms : ∀ room ∈ rooms, 1 ≤ room) : Enumerates crypto s nowMs rooms := by
  have hchained := queries_chained crypto ⟨s, none⟩ (rooms.map (.page nowMs))
  have hstill := queries_still crypto s none nowMs rooms
  have hscans : ∀ q ∈ queries crypto (visits (step crypto) ⟨s, none⟩ (rooms.map (.page nowMs))),
      q.scan = s.retainedObjects crypto nowMs ∧ 1 ≤ q.room := by
    intro q hq
    have hpair :
        (q.scan, q.room) ∈ rooms.map fun room => (s.retainedObjects crypto nowMs, room) := by
      rw [← hstill]
      exact mem_map_of_mem hq
    obtain ⟨room, hroom, heq⟩ := mem_map.mp hpair
    obtain ⟨hscan, rfl⟩ := Prod.mk.inj heq
    exact ⟨hscan.symm, hrooms _ hroom⟩
  refine ⟨fun hlong => ?_, (s.retainedCount_eq nowMs).symm,
    fun full last rest hsplit hcomplete => ?_⟩
  · by_contra hnone
    push Not at hnone
    -- then every page is full, and there are more of them than objects
    have hends := hchained.ends (fun q hq => (hscans q hq).1) (fun q hq => (hscans q hq).2)
      fun q hq => le_antisymm (hchained.fits q hq) (hnone q hq)
    have hlength := congrArg List.length hstill
    rw [length_map, length_map] at hlength
    rw [hlength, ← s.retainedCount_eq] at hends
    exact absurd hlong (not_lt.mpr hends)
  · have hsplit' :
        full ++ last :: rest = full ++ [last] ++ rest := by rw [append_assoc, singleton_append]
    rw [hsplit, hsplit'] at hchained hscans
    exact hchained.left.perm hcomplete (hfiled.keyed nowMs) fun q hq =>
      (hscans q (mem_append_left rest hq)).1

/-- Paging the retained objects misses nothing: in every run of pulls and calls each page
ascends behind its cursor and what stays is answered once, and the pages of a store at rest
are the objects it counts. -/
theorem retained_paging (cfg : Config) (events : List PullEvent)
    (hinj : Distinguishes crypto
      {bytes | bytes ∈
        offerTranscripts (visits (step crypto) ⟨Store.initWithConfig cfg, none⟩ events)}) :
    MissesNothing crypto (visits (step crypto) ⟨Store.initWithConfig cfg, none⟩ events) ∧
      ∀ nowMs rooms, (∀ room ∈ rooms, 1 ≤ room) →
        Enumerates crypto (final (step crypto) ⟨Store.initWithConfig cfg, none⟩ events).store nowMs
          rooms := by
  obtain ⟨hfinal, hvisits⟩ := run_filed cfg events hinj
  exact ⟨pulls_miss_nothing hvisits, fun nowMs rooms hrooms => enumerates hfinal hrooms⟩

/-- An OFFER for another token. -/
def secondUpsert : SignedOffer :=
  { sampleOffer [98] 5 5 105 with token := FixedBytes.ofSlice 16 [8] }.signedBy sampleKey
    sampleSignature (by decide) (by decide)

/-- Two pulls of one object after two OFFERs, with the entries rehashed between them. -/
def samplePulls : List PullEvent := [
  .mutate (.applySignedOffer sampleUpsert 0 5 fun _ => true),
  .mutate (.applySignedOffer secondUpsert 0 6 fun _ => true),
  .page 7 1,
  .mutate (.rehash .entries 1), .page 8 1]

theorem retained_paging_sample :
    (visits (step sampleCrypto) ⟨Store.initWithConfig sampleConfig, none⟩ samplePulls).map
        (fun visit => visit.output.map fun object => object.cursor.token) =
      [[], [], [sampleToken], [], [FixedBytes.ofSlice 16 [8]]] ∧
    MissesNothing sampleCrypto
      (visits (step sampleCrypto) ⟨Store.initWithConfig sampleConfig, none⟩ samplePulls) ∧
      ∀ nowMs rooms, (∀ room ∈ rooms, 1 ≤ room) → Enumerates sampleCrypto
        (final (step sampleCrypto) ⟨Store.initWithConfig sampleConfig, none⟩ samplePulls).store
          nowMs rooms := by
  refine ⟨by decide +kernel, retained_paging sampleConfig samplePulls ?_⟩
  intro a ha b hb hsame
  have hall :
      let vs := visits (step sampleCrypto) ⟨Store.initWithConfig sampleConfig, none⟩ samplePulls
      ∀ a ∈ offerTranscripts vs, ∀ b ∈ offerTranscripts vs,
        sampleCrypto.blake3 a = sampleCrypto.blake3 b → a = b := by decide +kernel
  exact hall a ha b hb hsame

end Puller

end OnyxServer.SessionReplica
