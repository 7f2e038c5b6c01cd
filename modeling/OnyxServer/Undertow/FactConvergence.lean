import OnyxServer.Lib.Wire
import OnyxServer.Undertow.ChannelFacts

/-!
# Convergence of channel facts

Every record holds an event of the highest clock that was applied to it. Records of two
tables agree unless events that differ share that clock.
-/
namespace OnyxServer.Undertow

open Lib List AList

variable {table next : RouteTable}

def ChannelListEntry.key (entry : ChannelListEntry) : ListKind × Bytes := (entry.kind, entry.mask)

def entryOf (list : List ChannelListEntry) (key : ListKind × Bytes) : Option ChannelListEntry :=
  list.find? fun entry => decide (entry.key = key)

theorem entryOf_eq (list : List ChannelListEntry) (kind : ListKind) (mask : Bytes) :
    (list.find? fun entry => decide (entry.kind = kind ∧ entry.mask = mask)) =
      entryOf list (kind, mask) := by
  simp only [entryOf, ChannelListEntry.key, Prod.mk.injEq]

variable {list : List ChannelListEntry}

theorem entryOf_append {entry : ChannelListEntry}
    (h : entryOf list entry.key = none) (key : ListKind × Bytes) :
    entryOf (list ++ [entry]) key = if key = entry.key then some entry else entryOf list key := by
  rw [entryOf, List.find?_append]
  by_cases hkey : key = entry.key
  · rw [if_pos hkey, hkey, ← entryOf, h]
    simp
  · rw [if_neg hkey]
    simp [Ne.symm hkey, entryOf]

theorem entryOf_set {l r : List ChannelListEntry} {cur entry : ChannelListEntry}
    (hkey : entry.key = cur.key) (hfirst : ∀ e ∈ l, e.key ≠ cur.key) (key : ListKind × Bytes) :
    entryOf (l ++ entry :: r) key =
      if key = entry.key then some entry else entryOf (l ++ cur :: r) key := by
  rw [entryOf, entryOf, List.find?_append, List.find?_append]
  by_cases h : key = entry.key
  · have hnone : l.find? (fun e => decide (e.key = key)) = none :=
      List.find?_eq_none.mpr fun e he => by
        rw [h, hkey]
        simpa using hfirst e he
    rw [if_pos h, hnone]
    simp [h]
  · have h' : cur.key ≠ key := fun heq => h (heq.symm.trans hkey.symm)
    rw [if_neg h]
    simp [Ne.symm h, h']

variable {kind : ListKind}

theorem findMask_none {mask : Bytes}
    (h : findMask list kind mask = none) : entryOf list (kind, mask) = none := by
  rw [← entryOf_eq]
  exact List.find?_eq_none.mpr (by simpa using List.findIdx?_eq_none_iff.mp h)

theorem findMask_some {mask : Bytes} {i : Nat}
    (h : findMask list kind mask = some i) :
    ∃ l cur r, list = l ++ cur :: r ∧ l.length = i ∧ cur.key = (kind, mask) ∧
      ∀ e ∈ l, e.key ≠ cur.key := by
  obtain ⟨l, cur, r, hlist, hlen, hcur, hfirst⟩ := findIdx?_split h
  obtain ⟨hkind, hmask⟩ := of_decide_eq_true hcur
  refine ⟨l, cur, r, hlist, hlen, Prod.ext hkind hmask, fun e he heq => ?_⟩
  obtain ⟨h1, h2⟩ := Prod.mk.inj heq
  exact of_decide_eq_false (hfirst e he) ⟨h1.trans hkind, h2.trans hmask⟩

/-- The masks of a list are distinct. -/
def ListsOk (table : RouteTable) : Prop :=
  ∀ chan list, table.channelLists.lookup chan = some list →
    DistinctKeys ChannelListEntry.key list

/-- An event was applied: its record holds the later of the two, all others what they held. -/
def Applied (event : FactEvent) (table next : RouteTable) : Prop :=
  ∀ record, next.held record =
    if record = event.record then some (latest (table.held record) event) else table.held record

theorem applied_stale {event : FactEvent} {cur : FactEvent}
    (hheld : table.held event.record = some cur) (hle : event.hlc ≤ cur.hlc) :
    Applied event table table := by
  intro record
  by_cases h : record = event.record
  · rw [if_pos h, h, hheld, latest, if_pos hle]
  · rw [if_neg h]

theorem applied_write {event : FactEvent} (hheld : next.held event.record = some event)
    (hother : ∀ record, record ≠ event.record → next.held record = table.held record)
    (hnewer : ∀ cur, table.held event.record = some cur → ¬ event.hlc ≤ cur.hlc) :
    Applied event table next := by
  intro record
  by_cases h : record = event.record
  · rw [if_pos h, h, hheld]
    cases hcur : table.held event.record with
    | none => rfl
    | some cur => rw [latest, if_neg (hnewer cur hcur)]
  · rw [if_neg h, hother record h]

variable {alloc : Bool}

theorem topic_applied {event : TopicEvent} {outcome : ApplyFactOutcome}
    (hok : (table.applyTopic event alloc).1 = .ok outcome) :
    Applied (.topic event) table (table.applyTopic event alloc).2 ∧
      (table.applyTopic event alloc).2.channelLists = table.channelLists := by
  have hheld : table.held (.topic event.chan) =
      (table.channelTopics.lookup event.chan).map fun cur => .topic (cur.event event.chan) := rfl
  have hwrite (hnewer : ∀ cur, table.channelTopics.lookup event.chan = some cur →
      ¬ event.hlc ≤ cur.hlc) : Applied (.topic event) table
        { table with channelTopics := table.channelTopics.insert event.chan event.clock } := by
    refine applied_write ?_ ?_ fun held h => ?_
    · simp [RouteTable.held, FactEvent.record, TopicClock.event, TopicEvent.clock]
    · rintro (_ | _ | chan) hne <;> try rfl
      have hchan : chan ≠ event.chan := fun heq => hne (congrArg Record.topic heq)
      simp only [RouteTable.held, lookup_insert_ne hchan]
    · obtain ⟨cur, hcur, rfl⟩ := Option.map_eq_some_iff.mp (hheld.symm.trans h)
      exact hnewer cur hcur
  revert hok
  fun_cases RouteTable.applyTopic table event alloc <;> intro hok
  case case2 cur hcur hle =>
    rw [hcur] at hheld
    exact ⟨applied_stale hheld hle, rfl⟩
  case case4 cur hcur hle _ =>
    refine ⟨hwrite fun held h => ?_, rfl⟩
    rwa [← Option.some.inj (hcur.symm.trans h)]
  case case7 hnone _ _ => exact ⟨hwrite fun _ h => (nomatch hnone.symm.trans h), rfl⟩
  all_goals cases hok

theorem flags_applied {event : ModeEvent} {outcome : ApplyFactOutcome}
    (hok : (table.applyChannelModeFlags event alloc).1 = .ok outcome) :
    Applied (.flags event) table (table.applyChannelModeFlags event alloc).2 ∧
      (table.applyChannelModeFlags event alloc).2.channelLists = table.channelLists := by
  have hheld : table.held (.flags event.chan) =
      (table.channelModeFlags.lookup event.chan).map fun cur => .flags (cur.event event.chan) := rfl
  have hwrite (hnewer : ∀ cur, table.channelModeFlags.lookup event.chan = some cur →
      ¬ event.hlc ≤ cur.hlc) : Applied (.flags event) table
        { table with channelModeFlags :=
          table.channelModeFlags.insert event.chan event.record } := by
    refine applied_write ?_ ?_ fun held h => ?_
    · simp [RouteTable.held, FactEvent.record, ChannelModeFlags.event, ModeEvent.record]
    · rintro (_ | chan | _) hne <;> try rfl
      have hchan : chan ≠ event.chan := fun heq => hne (congrArg Record.flags heq)
      simp only [RouteTable.held, lookup_insert_ne hchan]
    · obtain ⟨cur, hcur, rfl⟩ := Option.map_eq_some_iff.mp (hheld.symm.trans h)
      exact hnewer cur hcur
  revert hok
  fun_cases RouteTable.applyChannelModeFlags table event alloc <;> intro hok
  case case2 cur hcur hle =>
    rw [hcur] at hheld
    exact ⟨applied_stale hheld hle, rfl⟩
  case case3 cur hcur hle =>
    refine ⟨hwrite fun held h => ?_, rfl⟩
    rwa [← Option.some.inj (hcur.symm.trans h)]
  case case6 hnone _ _ => exact ⟨hwrite fun _ h => (nomatch hnone.symm.trans h), rfl⟩
  all_goals cases hok

variable {event : ListEvent}

theorem list_write
    (hold : ∀ key, entryOf ((table.channelLists.lookup event.chan).getD []) key =
      entryOf list key) {list' : List ChannelListEntry}
    (hnew : ∀ key, entryOf list' key = if key = event.entry.key then some event.entry
      else entryOf list key)
    (hnewer : ∀ cur, entryOf list event.entry.key = some cur → ¬ event.hlc ≤ cur.hlc) :
    Applied (.list event) table
      { table with channelLists := table.channelLists.insert event.chan list' } := by
  refine applied_write ?_ ?_ ?_
  · have hkey : (event.kind, event.mask) = event.entry.key := rfl
    simp only [RouteTable.held, FactEvent.record, lookup_insert, Option.getD_some, entryOf_eq,
      hnew, if_pos hkey]
    rfl
  · rintro (⟨chan, kind, mask⟩ | _ | _) hne <;> try rfl
    simp only [RouteTable.held, entryOf_eq]
    by_cases hchan : chan = event.chan
    · subst hchan
      have hkey : (kind, mask) ≠ event.entry.key := fun heq => by
        cases heq
        exact hne rfl
      rw [lookup_insert, Option.getD_some, hnew, if_neg hkey, hold]
    · rw [lookup_insert_ne hchan]
  · intro cur hcur
    simp only [RouteTable.held, FactEvent.record, entryOf_eq, hold] at hcur
    obtain ⟨entry, hentry, rfl⟩ := Option.map_eq_some_iff.mp hcur
    exact hnewer entry hentry

variable {chan : Bytes}

theorem ensureChannelList_ok
    (hok : (table.ensureChannelList chan alloc).1 = .ok list) :
    (table.ensureChannelList chan alloc).2.channelLists.lookup chan = some list ∧
      (∀ record, (table.ensureChannelList chan alloc).2.held record = table.held record) ∧
      (ListsOk table → ListsOk (table.ensureChannelList chan alloc).2) := by
  rw [RouteTable.ensureChannelList] at hok ⊢
  cases hlookup : table.channelLists.lookup chan with
  | some known =>
    simp only [hlookup] at hok ⊢
    cases hok
    exact ⟨rfl, by simp, id⟩
  | none =>
    simp only [hlookup] at hok ⊢
    split at hok
    · cases hok
    rename_i hfull
    cases alloc
    · cases hok
    · rw [if_neg hfull]
      cases hok
      refine ⟨lookup_insert _, ?_, ?_⟩
      · rintro (⟨chan', kind, mask⟩ | _ | _) <;> try rfl
        by_cases hchan : chan' = chan
        · subst hchan
          simp [RouteTable.held, lookup_insert, hlookup]
        · simp [RouteTable.held, lookup_insert_ne hchan]
      · intro hwf chan' list hlist
        by_cases hchan : chan' = chan
        · subst hchan
          obtain rfl := Option.some.inj ((lookup_insert _).symm.trans hlist)
          exact distinctKeys_nil _
        · exact hwf chan' list ((lookup_insert_ne hchan).symm.trans hlist)

theorem ListsOk.write (h : ListsOk table)
    (hdistinct : DistinctKeys ChannelListEntry.key list) :
    ListsOk { table with channelLists := table.channelLists.insert chan list } := by
  intro chan' list' hlist
  by_cases hchan : chan' = chan
  · subst hchan
    obtain rfl := Option.some.inj ((lookup_insert _).symm.trans hlist)
    exact hdistinct
  · exact h chan' list' ((lookup_insert_ne hchan).symm.trans hlist)

theorem writeMask_applied
    {outcome : ApplyListOutcome} (hlist : table.channelLists.lookup event.chan = some list)
    (hok : (table.writeMask event list (findMask list event.kind event.mask) alloc).1 =
      .ok outcome) :
    let next := (table.writeMask event list (findMask list event.kind event.mask) alloc).2
    Applied (.list event) table next ∧ (ListsOk table → ListsOk next) := by
  rw [RouteTable.writeMask] at hok ⊢
  have hold : ∀ key, entryOf ((table.channelLists.lookup event.chan).getD []) key =
      entryOf list key := fun key => by rw [hlist, Option.getD_some]
  cases hfind : findMask list event.kind event.mask with
  | none =>
    have hnone := findMask_none hfind
    simp only [hfind, Option.bind_none] at hok ⊢
    split at hok
    · cases hok
    rename_i hfull
    cases alloc
    · cases hok
    · rw [if_neg hfull]
      refine ⟨list_write hold (entryOf_append hnone) fun cur hcur => ?_, fun hwf => hwf.write ?_⟩
      · exact absurd (hnone.symm.trans hcur) (by simp)
      · refine (hwf _ _ hlist).concat fun e he heq => ?_
        exact absurd (decide_eq_true heq) (List.find?_eq_none.mp hnone e he)
  | some i =>
    obtain ⟨l, cur, r, rfl, rfl, hkey, hfirst⟩ := findMask_some hfind
    have hcur : (l ++ cur :: r)[l.length]? = some cur := by simp
    simp only [hfind, Option.bind_some, hcur, Option.map_some] at hok ⊢
    have hentry : entryOf (l ++ cur :: r) event.entry.key = some cur := by
      show entryOf (l ++ cur :: r) (event.kind, event.mask) = _
      rw [entryOf_set rfl hfirst, if_pos hkey.symm]
    by_cases hle : event.hlc ≤ cur.hlc
    · rw [if_pos hle]
      have hheld : table.held (FactEvent.list event).record =
          some (.list (cur.event event.chan)) := by
        simp only [RouteTable.held, FactEvent.record, entryOf_eq, hold]
        exact congrArg _ hentry
      exact ⟨applied_stale hheld hle, id⟩
    obtain ⟨hkind, hmask⟩ := Prod.mk.inj hkey
    have hsame : { event.entry with kind := cur.kind, mask := cur.mask } = event.entry := by
      rw [hkind, hmask]
      rfl
    cases alloc
    · rw [if_neg hle] at hok
      cases hok
    · rw [if_neg hle]
      simp only [hsame, set_split]
      refine ⟨list_write hold (entryOf_set hkey.symm hfirst) fun cur' hcur' => ?_, fun hwf =>
        hwf.write ((hwf _ _ hlist).replace hkey.symm)⟩
      obtain rfl := Option.some.inj (hentry.symm.trans hcur')
      exact hle

theorem list_applied {ensure alloc : Bool} {outcome : ApplyListOutcome}
    (hok : (table.applyChannelList event ensure alloc).1 = .ok outcome) :
    Applied (.list event) table (table.applyChannelList event ensure alloc).2 ∧
      (ListsOk table → ListsOk (table.applyChannelList event ensure alloc).2) := by
  rw [RouteTable.applyChannelList] at hok ⊢
  cases hvalid : table.validateListEvent event with
  | error e =>
    simp only [hvalid] at hok
    cases hok
  | ok _ =>
    simp only [hvalid] at hok ⊢
    rcases hensure : table.ensureChannelList event.chan ensure with ⟨answer, ensured⟩
    cases answer with
    | error e =>
      simp only [hensure] at hok
      cases hok
    | ok list =>
      have hspec := ensureChannelList_ok (congrArg Prod.fst hensure)
      simp only [hensure] at hok hspec ⊢
      obtain ⟨hlookup, hheld, hwf⟩ := hspec
      obtain ⟨happlied, hnext⟩ := writeMask_applied hlookup hok
      refine ⟨fun record => ?_, fun h => hnext (hwf h)⟩
      rw [happlied record, hheld]

theorem applyFact_applied {op : FactOp} {reply : ApplyListOutcome ⊕ ApplyFactOutcome}
    (hok : (applyFact table op).1 = .ok reply) :
    Applied op.event table (applyFact table op).2 ∧
    (ListsOk table → ListsOk (applyFact table op).2) := by
  obtain ⟨event, ensure, alloc⟩ := op
  cases event with
  | list event =>
    obtain ⟨outcome, houtcome, -⟩ := map_ok hok
    exact list_applied houtcome
  | flags event =>
    obtain ⟨outcome, houtcome, -⟩ := map_ok hok
    obtain ⟨happlied, hlists⟩ := flags_applied houtcome
    exact ⟨happlied, fun h => by rwa [ListsOk, applyFact, hlists]⟩
  | topic event =>
    obtain ⟨outcome, houtcome, -⟩ := map_ok hok
    obtain ⟨happlied, hlists⟩ := topic_applied houtcome
    exact ⟨happlied, fun h => by rwa [ListsOk, applyFact, hlists]⟩

/-- The events that were applied to a record. -/
def Wrote (seen : List FactEvent) (record : Record) (event : FactEvent) : Prop :=
  event ∈ seen ∧ event.record = record

/-- Every record holds a latest event of those applied to it. -/
structure HoldsLatest (seen : List FactEvent) (table : RouteTable) : Prop where
  held : ∀ record event, table.held record = some event →
    Latest FactEvent.hlc (Wrote seen record) event
  blank : ∀ record, table.held record = none → ∀ event, ¬ Wrote seen record event
  lists : ListsOk table

variable {seen : List FactEvent} {record : Record}

theorem wrote_cons {event other : FactEvent}
    (hrecord : event.record = record) :
    Wrote (event :: seen) record other ↔ other = event ∨ Wrote seen record other := by
  rw [Wrote, Wrote, mem_cons, or_and_right,
    and_iff_left_of_imp fun heq => (congrArg _ heq).trans hrecord]

theorem wrote_cons_other {event other : FactEvent}
    (hrecord : event.record ≠ record) :
    Wrote (event :: seen) record other ↔ Wrote seen record other := by
  rw [Wrote, Wrote, mem_cons, or_and_right, or_iff_right]
  rintro ⟨rfl, heq⟩
  exact hrecord heq

theorem HoldsLatest.step (h : HoldsLatest seen table) {event : FactEvent}
    (happlied : Applied event table next) (hlists : ListsOk next) :
    HoldsLatest (event :: seen) next := by
  refine ⟨fun record => ?_, fun record => ?_, hlists⟩ <;> rw [happlied record]
  · intro kept hkept
    by_cases hrecord : record = event.record
    · rw [if_pos hrecord] at hkept
      have hiff : ∀ other, Wrote (event :: seen) record other ↔ other = event ∨
          Wrote seen record other :=
        fun _ => wrote_cons hrecord.symm
      rw [← Option.some.inj hkept]
      cases hcur : table.held record with
      | none =>
        refine (Latest.replace fun z hz => ?_).congr hiff
        exact absurd hz (h.blank record hcur z)
      | some cur =>
        have hlatest := h.held record cur hcur
        rw [latest]
        split
        · rename_i hle
          exact (hlatest.keep hle).congr hiff
        · rename_i hnewer
          exact (Latest.replace fun z hz => (hlatest.max z hz).trans (le_of_not_ge hnewer)).congr
            hiff
    · rw [if_neg hrecord] at hkept
      exact (h.held record kept hkept).congr fun z => wrote_cons_other (Ne.symm hrecord)
  · intro hnone other hwrote
    by_cases hrecord : record = event.record
    · rw [if_pos hrecord] at hnone
      cases hnone
    · rw [if_neg hrecord] at hnone
      exact h.blank record hnone other ((wrote_cons_other (Ne.symm hrecord)).mp hwrote)

theorem holdsLatest_empty (cfg : Config) : HoldsLatest [] (RouteTable.empty cfg) := by
  refine ⟨?_, fun _ _ _ hwrote => not_mem_nil hwrote.1, ?_⟩
  · rintro (_ | _ | _) event h <;> cases h
  · intro chan list h
    cases h

/-- A run in which every application succeeds. -/
def Succeeds (table : RouteTable) (ops : List FactOp) : Prop :=
  ∀ v ∈ visits applyFact table ops, ∃ reply, v.output = .ok reply

theorem run_holdsLatest (ops : List FactOp) (h : HoldsLatest seen table)
    (hok : Succeeds table ops) :
    HoldsLatest ((ops.map FactOp.event).reverse ++ seen) (final applyFact table ops) := by
  induction ops generalizing table seen with
  | nil => exact h
  | cons op ops ih =>
    obtain ⟨⟨reply, hreply⟩, hrest⟩ := forall_mem_cons.mp hok
    obtain ⟨happlied, hlists⟩ := applyFact_applied hreply
    have hend := ih (h.step happlied (hlists h.lists)) hrest
    rw [map_cons, reverse_cons, append_assoc]
    exact hend

/-- What a table holds after it applied exactly the given events. -/
theorem final_holdsLatest {cfg : Config} {ops : List FactOp} {events : List FactEvent}
    (hok : Succeeds (RouteTable.empty cfg) ops)
    (hall : ∀ event, event ∈ ops.map FactOp.event ↔ event ∈ events) :
    HoldsLatest events (final applyFact (RouteTable.empty cfg) ops) := by
  have hrun := run_holdsLatest ops (holdsLatest_empty cfg) hok
  have hiff : ∀ record event, Wrote ((ops.map FactOp.event).reverse ++ []) record event ↔
      Wrote events record event := by
    intro record event
    rw [Wrote, Wrote, append_nil, mem_reverse, hall]
  exact ⟨fun record event h => (hrun.held record event h).congr fun z => (hiff record z).symm,
    fun record h event hwrote => hrun.blank record h event ((hiff record event).mpr hwrote),
    hrun.lists⟩

/-- The events for the record that share its highest clock are one event. -/
def TieFree (events : List FactEvent) (record : Record) : Prop :=
  ∀ e f, Latest FactEvent.hlc (Wrote events record) e →
    Latest FactEvent.hlc (Wrote events record) f → e = f

variable {here there : RouteTable} {events : List FactEvent}

theorem HoldsLatest.same_hlc (h : HoldsLatest events here) (h' : HoldsLatest events there)
    (record : Record) :
    (here.held record).map FactEvent.hlc = (there.held record).map FactEvent.hlc := by
  cases hhere : here.held record with
  | none =>
    cases hthere : there.held record with
    | none => rfl
    | some event => exact absurd (h'.held record event hthere).mem (h.blank record hhere event)
  | some event =>
    cases hthere : there.held record with
    | none => exact absurd (h.held record event hhere).mem (h'.blank record hthere event)
    | some other =>
      exact congrArg some ((h.held record event hhere).rank_eq (h'.held record other hthere))

theorem HoldsLatest.same (h : HoldsLatest events here) (h' : HoldsLatest events there)
    (htie : TieFree events record) : here.held record = there.held record := by
  have hhlc := h.same_hlc h' record
  cases hhere : here.held record with
  | none =>
    cases hthere : there.held record with
    | none => rfl
    | some event => simp [hhere, hthere] at hhlc
  | some event =>
    cases hthere : there.held record with
    | none => simp [hhere, hthere] at hhlc
    | some other =>
      exact congrArg some (htie event other (h.held record event hhere)
        (h'.held record other hthere))

theorem topic_of_held (h : here.held (.topic chan) = there.held (.topic chan)) :
    here.channelTopics.lookup chan = there.channelTopics.lookup chan := by
  have hinj : Function.Injective fun clock : TopicClock => FactEvent.topic (clock.event chan) := by
    rintro ⟨⟩ ⟨⟩ heq
    simpa [TopicClock.event, and_comm, and_left_comm, and_assoc] using heq
  exact Option.map_injective hinj h

theorem flags_of_held (h : here.held (.flags chan) = there.held (.flags chan)) :
    here.channelModeFlags.lookup chan = there.channelModeFlags.lookup chan := by
  have hinj : Function.Injective fun record : ChannelModeFlags =>
      FactEvent.flags (record.event chan) := by
    rintro ⟨⟩ ⟨⟩ heq
    simpa [ChannelModeFlags.event, and_comm, and_left_comm, and_assoc] using heq
  exact Option.map_injective hinj h

theorem entryOf_some (h : DistinctKeys ChannelListEntry.key list)
    {key : ListKind × Bytes} {entry : ChannelListEntry} :
    entryOf list key = some entry ↔ entry ∈ list ∧ entry.key = key := by
  constructor
  · intro hfind
    exact ⟨mem_of_find?_eq_some hfind, by simpa using List.find?_some hfind⟩
  · rintro ⟨hmem, rfl⟩
    cases hfind : entryOf list entry.key with
    | none => exact absurd (decide_eq_true rfl) (List.find?_eq_none.mp hfind entry hmem)
    | some other =>
      have hkey : other.key = entry.key := by simpa using List.find?_some hfind
      exact congrArg some (h.eq_of_key (mem_of_find?_eq_some hfind) hmem hkey)

/-- The masks that are shown are the present ones among those held. -/
theorem mem_presentMasks (hlists : ListsOk table)
    {mask setter : Bytes} {hlc : UInt64} :
    (kind, mask, setter, hlc) ∈ table.presentMasks chan ↔
      ∃ event : ListEvent, table.held (.mask chan kind mask) = some (.list event) ∧
        event.present = true ∧ event.setter = setter ∧ event.hlc = hlc := by
  have hdistinct :
      DistinctKeys ChannelListEntry.key ((table.channelLists.lookup chan).getD []) := by
    cases hlist : table.channelLists.lookup chan with
    | none => exact distinctKeys_nil _
    | some list => exact hlists chan list hlist
  simp only [RouteTable.presentMasks, RouteTable.held, entryOf_eq, mem_map, mem_filter,
    Option.map_eq_some_iff, Prod.mk.injEq]
  constructor
  · rintro ⟨entry, ⟨hmem, hpresent⟩, rfl, rfl, rfl, rfl⟩
    exact ⟨entry.event chan, ⟨entry, (entryOf_some hdistinct).mpr ⟨hmem, rfl⟩, rfl⟩, hpresent, rfl,
      rfl⟩
  · rintro ⟨event, ⟨entry, hentry, hevent⟩, hpresent, rfl, rfl⟩
    obtain ⟨hmem, hkey⟩ := (entryOf_some hdistinct).mp hentry
    obtain ⟨hkind, hmask⟩ := Prod.mk.inj hkey
    cases hevent
    exact ⟨entry, ⟨hmem, hpresent⟩, hkind, hmask, rfl, rfl⟩

/-- Two tables that applied the same events hold records of the same clocks, and the same
records wherever the events of the highest clock are one event. -/
theorem channel_facts_converge {cfg cfg' : Config} {ops ops' : List FactOp}
    {events : List FactEvent} (hok : Succeeds (RouteTable.empty cfg) ops)
    (hok' : Succeeds (RouteTable.empty cfg') ops')
    (hall : ∀ event, event ∈ ops.map FactOp.event ↔ event ∈ events)
    (hall' : ∀ event, event ∈ ops'.map FactOp.event ↔ event ∈ events) :
    let here := final applyFact (RouteTable.empty cfg) ops
    let there := final applyFact (RouteTable.empty cfg') ops'
    (∀ record, (here.held record).map FactEvent.hlc = (there.held record).map FactEvent.hlc) ∧
      (∀ chan, TieFree events (.topic chan) →
        here.channelTopics.lookup chan = there.channelTopics.lookup chan) ∧
      (∀ chan, TieFree events (.flags chan) →
        here.channelModeFlags.lookup chan = there.channelModeFlags.lookup chan) ∧
      ∀ chan, (∀ kind mask, TieFree events (.mask chan kind mask)) →
        ∀ x, x ∈ here.presentMasks chan ↔ x ∈ there.presentMasks chan := by
  have h := final_holdsLatest hok hall
  have h' := final_holdsLatest hok' hall'
  refine ⟨h.same_hlc h', fun chan htie => topic_of_held (h.same h' htie),
    fun chan htie => flags_of_held (h.same h' htie), fun chan htie x => ?_⟩
  obtain ⟨kind, mask, setter, hlc⟩ := x
  rw [mem_presentMasks h.lists, mem_presentMasks h'.lists, h.same h' (htie kind mask)]

def limits : Config :=
  { maxNicks := 8, maxChannels := 8, maxNodesPerChannel := 8, maxNameLen := 64 }

def firstTopic : TopicEvent :=
  { chan := [0x23, 0x61], node := 1, hlc := 7, text := [0x78], setter := [0x6E], setAt := 0
    present := true }

def secondTopic : TopicEvent := { firstTopic with node := 2, text := [0x79] }

def topicOps (first second : TopicEvent) : List FactOp :=
  [⟨.topic first, true, true⟩, ⟨.topic second, true, true⟩]

theorem succeeds_two {first second : FactOp} {reply reply' : ApplyListOutcome ⊕ ApplyFactOutcome}
    (h : (applyFact table first).1 = .ok reply)
    (h' : (applyFact (applyFact table first).2 second).1 = .ok reply') :
    Succeeds table [first, second] := by
  intro v hv
  simp only [visits, mem_cons, not_mem_nil, or_false] at hv
  rcases hv with rfl | rfl
  · exact ⟨reply, h⟩
  · exact ⟨reply', h'⟩

theorem mem_swap {first second : TopicEvent} (event : FactEvent) :
    event ∈ (topicOps first second).map FactOp.event ↔
      event ∈ (topicOps second first).map FactOp.event :=
  List.Perm.mem_iff (.swap _ _ _)

def laterTopic : TopicEvent := { secondTopic with hlc := 8 }

theorem tieFree_later :
    TieFree ((topicOps firstTopic laterTopic).map FactOp.event) (.topic [0x23, 0x61]) := by
  have only : ∀ e, Latest FactEvent.hlc
      (Wrote ((topicOps firstTopic laterTopic).map FactOp.event) (.topic [0x23, 0x61])) e →
      e = .topic laterTopic := by
    intro e he
    have hle := he.max (.topic laterTopic) ⟨by decide, rfl⟩
    obtain ⟨hmem, -⟩ := he.mem
    simp only [topicOps, map_cons, map_nil, mem_cons, not_mem_nil, or_false] at hmem
    rcases hmem with rfl | rfl
    · exact absurd hle (by decide)
    · rfl
  exact fun e f he hf => (only e he).trans (only f hf).symm

theorem channel_facts_converge_topic :
    (final applyFact (RouteTable.empty limits)
        (topicOps firstTopic laterTopic)).channelTopics.lookup [0x23, 0x61] =
      (final applyFact (RouteTable.empty limits)
        (topicOps laterTopic firstTopic)).channelTopics.lookup [0x23, 0x61] :=
  (channel_facts_converge (succeeds_two rfl rfl) (succeeds_two rfl rfl) (fun _ => Iff.rfl)
    fun event => (mem_swap event).symm).2.1 [0x23, 0x61] tieFree_later

/-- Of two topics of one clock the first to arrive stays. -/
theorem topic_order_dependent :
    Succeeds (RouteTable.empty limits) (topicOps firstTopic secondTopic) ∧
      Succeeds (RouteTable.empty limits) (topicOps secondTopic firstTopic) ∧
      (∀ event, event ∈ (topicOps firstTopic secondTopic).map FactOp.event ↔
        event ∈ (topicOps secondTopic firstTopic).map FactOp.event) ∧
      (final applyFact (RouteTable.empty limits)
          (topicOps firstTopic secondTopic)).channelTopics.lookup [0x23, 0x61] ≠
        (final applyFact (RouteTable.empty limits)
          (topicOps secondTopic firstTopic)).channelTopics.lookup [0x23, 0x61] :=
  ⟨succeeds_two rfl rfl, succeeds_two rfl rfl, mem_swap, by decide⟩

end OnyxServer.Undertow
