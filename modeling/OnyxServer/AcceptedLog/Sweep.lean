import OnyxServer.AcceptedLog.Commit
import OnyxServer.Lib.Rotation

/-!
# Paging by origin

A sweep visits the origins that still miss a row for its target in the rotation
order from the target's cursor. At each it stops at the lowest missing row, and
either hands that row out or uses up its exclusion; the cursor ends on the last
origin visited.
-/
namespace OnyxServer.AcceptedLog

open Lib List
open Relay.V2 (RelayId PublicKey Crypto)

/-- A row without its exclusions, the only part of a row a sweep changes. -/
def Row.custody (row : Row) : Row := { row with excludedOnceNodes := [] }

/-- The lowest missing row of its origin. -/
structure Head (rows : List Row) (target : UInt64) (row : Row) : Prop where
  mem : row ∈ rows
  outstanding : row.Outstanding target
  least : ∀ other ∈ rows, other.Outstanding target → other.originPubkey = row.originPubkey →
    row.hlc ≤ other.hlc

section Custody

variable {rows rows' : List Row} {row : Row}

theorem custody_mem (h : rows'.map Row.custody = rows.map Row.custody) (hrow : row ∈ rows) :
    ∃ row' ∈ rows', row'.custody = row.custody := by
  have hmem : row.custody ∈ rows'.map Row.custody := h ▸ mem_map_of_mem hrow
  obtain ⟨row', hrow', heq⟩ := mem_map.mp hmem
  exact ⟨row', hrow', heq⟩

theorem custody_fields {row row' : Row} (h : row'.custody = row.custody) :
    row' = { row with excludedOnceNodes := row'.excludedOnceNodes } := by
  cases row
  cases row'
  simp only [Row.custody, Row.mk.injEq] at h ⊢
  tauto

theorem succeeds_of_custody {row row' : Row} (h : row'.custody = row.custody) :
    Succeeds none row row' := by
  rw [custody_fields h]
  exact Succeeds.exclusions (fun _ _ => id) _

section

variable (h : rows'.map Row.custody = rows.map Row.custody)
include h

theorem effect_of_custody :
    Effect none rows rows' where
  kept row hrow _ := by
    obtain ⟨row', hrow', heq⟩ := custody_mem h hrow
    exact ⟨row', hrow', succeeds_of_custody heq⟩
  source row' hrow' := by
    obtain ⟨row, hrow, heq⟩ := custody_mem h.symm hrow'
    exact Or.inl ⟨row, hrow, succeeds_of_custody heq.symm⟩
  inserted request heq := by cases heq

theorem custody_origins :
    rows'.map Row.originPubkey = rows.map Row.originPubkey := by
  have hmap := congrArg (List.map Row.originPubkey) h
  simpa [map_map, Function.comp_def, Row.custody] using hmap

/-- Which rows are missing does not depend on exclusions. -/
theorem custody_outstanding {target : UInt64}
    (hrow : row ∈ rows) (hout : row.Outstanding target) :
    ∃ row' ∈ rows', row'.Outstanding target ∧ row'.originPubkey = row.originPubkey ∧
      row'.hlc = row.hlc := by
  obtain ⟨row', hrow', heq⟩ := custody_mem h hrow
  refine ⟨row', hrow', ?_⟩
  rw [custody_fields heq]
  exact ⟨hout, rfl, rfl⟩

end

end Custody

section Visit

variable {crypto : Crypto} {log : EventLog} {before after' : List CursorEntry} {target : UInt64}
  {start origin : PublicKey}

theorem moveCursor_spec (h : log.Wf crypto)
    (hcursors : log.cursors = before ++ ⟨target, start⟩ :: after')
    (hpresent : origin ∈ log.rows.map Row.originPubkey) :
    (log.moveCursor before.length origin).Wf crypto ∧
      (log.moveCursor before.length origin).cursors = before ++ ⟨target, origin⟩ :: after' ∧
      (log.moveCursor before.length origin).rows = log.rows ∧
      (log.moveCursor before.length origin).config = log.config ∧
      (log.moveCursor before.length origin).preparedActive = log.preparedActive := by
  have hat : log.cursors[before.length]? = some ⟨target, start⟩ := by
    rw [hcursors, getElem?_middle]
  unfold EventLog.moveCursor
  rw [hat]
  simp only
  split
  · rename_i heq
    subst heq
    exact ⟨h, hcursors, rfl, rfl, rfl⟩
  have hset : log.cursors.set before.length ⟨target, origin⟩ =
      before ++ ⟨target, origin⟩ :: after' := by
    rw [hcursors, set_append_right _ _ (Nat.le_refl _)]
    simp
  rw [hset]
  have hlen : (before ++ ⟨target, origin⟩ :: after').length = log.cursors.length := by
    rw [hcursors]
    simp
  refine ⟨EventLog.Shape.flags (h.setCursors ?_ ?_ ?_ ?_ ?_ ?_ h.aggregateBound h.bodyBound) _ _,
    rfl, rfl, rfl, rfl⟩
  · have hasc := h.cursorsAscending
    rw [hcursors, Ascending, ← pairwise_map] at hasc
    rw [Ascending, ← pairwise_map]
    simpa using hasc
  · intro cursor hcursor
    have hnode : cursor.node ∈ log.cursors.map CursorEntry.node := by
      rw [hcursors]
      simpa using mem_map_of_mem (f := CursorEntry.node) hcursor
    obtain ⟨old, hold, heq⟩ := mem_map.mp hnode
    rw [← heq]
    exact h.cursorNonzero old hold
  · intro cursor hcursor
    rcases mem_append.mp hcursor with hmem | hmem
    · exact h.cursorTarget cursor (by rw [hcursors]; exact mem_append_left _ hmem)
    · rcases mem_cons.mp hmem with rfl | hmem
      · exact hpresent
      · exact h.cursorTarget cursor (by rw [hcursors]; simp [hmem])
  · rw [hlen]
    exact h.cursorsBound
  · rw [hlen]
  · rw [hlen]

theorem dropExclusion_spec (h : log.Wf crypto) {l r : List Row} {row : Row}
    (hrows : log.rows = l ++ row :: r) {index : Nat}
    (hidx : nodeIndex row.excludedOnceNodes target = some index) :
    (log.dropExclusion l.length index).Wf crypto ∧
      (log.dropExclusion l.length index).rows =
        l ++ { row with excludedOnceNodes := row.excludedOnceNodes.filter (· ≠ target) } :: r := by
  have hwf := h.rows row (by simp [hrows])
  obtain ⟨hremove, hlen, -⟩ := removeNode_spec hwf.excluded hidx
  have hagg := h.aggregate
  have hbody := h.body
  have haggBound := h.aggregateBound
  have hbodyBound := h.bodyBound
  rw [hrows, bytesOf_middle] at hagg hbody
  unfold EventLog.dropExclusion
  rw [hrows, modify_split, hremove]
  rw [hremove] at hlen
  have hnew : Row.Wf crypto log.config
      { row with excludedOnceNodes := row.excludedOnceNodes.filter (· ≠ target) } :=
    { hwf with
      excluded := hwf.excluded.sublist filter_sublist
      excludedSub := fun node hnode => hwf.excludedSub node (mem_of_mem_filter hnode)
      disjoint := fun node hnode hex => hwf.disjoint node hnode (mem_of_mem_filter hex) }
  have hshrink : rowAggregateBytes row = rowAggregateBytes
      { row with excludedOnceNodes := row.excludedOnceNodes.filter (· ≠ target) } + nodeLen := by
    simp only [rowAggregateBytes, hlen, nodeLen]
    omega
  have hshrink' : rowBodyBytes row = rowBodyBytes
      { row with excludedOnceNodes := row.excludedOnceNodes.filter (· ≠ target) } + nodeLen := by
    simp only [rowBodyBytes, hshrink]
    omega
  refine ⟨EventLog.Shape.flags (h.replace hrows hnew (fun other hother =>
    h.rows other (mem_split_of hrows hother)) rfl rfl ?_ ?_ ?_ ?_) _ _, rfl⟩ <;> omega

end Visit

/-- Where a sweep from `wrapAt` can stand: on its way up, or past its wrap. -/
inductive Position (wrapAt : PublicKey) : Option PublicKey → Option PublicKey → Bool → Prop where
  | up {reached : PublicKey} (h : wrapAt ≤ reached) : Position wrapAt (some reached) none false
  | wrapped {reached : Option PublicKey} : Position wrapAt reached (some wrapAt) true

/-- The origin lies in `(after, upper]`. -/
def InRange (after upper : Option PublicKey) (origin : PublicKey) : Prop :=
  (∀ lower ∈ after, lower < origin) ∧ ∀ limit ∈ upper, origin ≤ limit

/-- The sweep has not come past the origin yet. -/
def Ahead (wrapAt : PublicKey) (after : Option PublicKey) (wrapped : Bool) (origin : PublicKey) :
    Prop :=
  if wrapped then (∀ lower ∈ after, lower < origin) ∧ origin ≤ wrapAt
  else (∀ lower ∈ after, lower < origin) ∨ origin ≤ wrapAt

instance (wrapAt : PublicKey) (after : Option PublicKey) (wrapped : Bool) (origin : PublicKey) :
    Decidable (Ahead wrapAt after wrapped origin) :=
  inferInstanceAs (Decidable (if wrapped then (∀ lower ∈ after, lower < origin) ∧ origin ≤ wrapAt
    else (∀ lower ∈ after, lower < origin) ∨ origin ≤ wrapAt))

theorem eligible_iff {target : UInt64} {after upper : Option PublicKey} {row : Row} (h : row.Sets) :
    eligible target after upper row = true ↔
      row.Outstanding target ∧ InRange after upper row.originPubkey := by
  rw [eligible, Bool.and_eq_true, Bool.and_eq_true, h.missing_iff, and_assoc, InRange]
  cases after <;> cases upper <;> simp [pubkeyLess]

section Position

variable {wrapAt x y : PublicKey} {after upper : Option PublicKey} {wrapped : Bool}

section

variable (h : Position wrapAt after upper wrapped)
include h

theorem Position.visit (hx : InRange after upper x) :
    Position wrapAt (some x) upper wrapped ∧ Ahead wrapAt after wrapped x := by
  cases h with
  | up hle => exact ⟨.up (hle.trans (hx.1 _ rfl).le), Or.inl hx.1⟩
  | wrapped => exact ⟨.wrapped, hx.1, hx.2 _ rfl⟩

theorem Position.later (hx : InRange after upper x)
    (hy : Ahead wrapAt (some x) wrapped y) : Before wrapAt x y ∧ Ahead wrapAt after wrapped y := by
  cases h with
  | up hle =>
    have hlt := hx.1 _ rfl
    rcases hy with hy | hy
    · have hxy := hy _ rfl
      refine ⟨Or.inl ⟨hle.trans_lt hlt, Or.inr hxy⟩, Or.inl fun lower hlower => ?_⟩
      exact (hx.1 lower hlower).trans hxy
    · exact ⟨Or.inl ⟨hle.trans_lt hlt, Or.inl hy⟩, Or.inr hy⟩
  | wrapped =>
    have hxy := hy.1 _ rfl
    refine ⟨Or.inr ⟨hx.2 _ rfl, hy.2, hxy⟩, fun lower hlower => ?_, hy.2⟩
    exact (hx.1 lower hlower).trans hxy

theorem Position.remains
    (hleast : InRange after upper y → x ≤ y) (hy : Ahead wrapAt after wrapped y) (hne : y ≠ x) :
    Ahead wrapAt (some x) wrapped y := by
  have hlt : InRange after upper y → ∀ lower ∈ some x, lower < y := by
    rintro hrange _ ⟨⟩
    exact lt_of_le_of_ne (hleast hrange) hne.symm
  cases h with
  | up hle =>
    rcases hy with hy | hy
    · exact Or.inl (hlt ⟨hy, nofun⟩)
    · exact Or.inr hy
  | wrapped =>
    refine ⟨hlt ⟨hy.1, ?_⟩, hy.2⟩
    rintro _ ⟨⟩
    exact hy.2

end

/-- Nothing left on the way up: the rest lies behind the wrap. -/
theorem Position.wrap (h : Position wrapAt after upper false) (hnone : ¬ InRange after upper y)
    (hy : Ahead wrapAt after false y) : Ahead wrapAt none true y := by
  cases h with
  | up hle =>
    rcases hy with hy | hy
    · exact absurd ⟨hy, nofun⟩ hnone
    · exact ⟨nofun, hy⟩

end Position

/-- The passes a sweep can still need. -/
def passesLeft (wrapAt : PublicKey) (after : Option PublicKey) (wrapped : Bool)
    (origins : List PublicKey) : Nat :=
  origins.countP (fun origin => decide (Ahead wrapAt after wrapped origin)) +
    if wrapped then 1 else 2

theorem countP_lt {α : Type} {p q : α → Bool} {xs : List α} {x : α}
    (hpq : ∀ y, p y = true → q y = true)
    (hx : x ∈ xs) (hq : q x = true) (hp : p x = false) : xs.countP p < xs.countP q := by
  induction xs with
  | nil => cases hx
  | cons y xs ih =>
    rcases mem_cons.mp hx with rfl | hx
    · rw [countP_cons_of_pos hq, countP_cons_of_neg (by simp [hp])]
      exact Nat.lt_succ_of_le (countP_mono_left fun y _ => hpq y)
    have hlt := ih hx
    by_cases hy : p y = true
    · rw [countP_cons_of_pos hy, countP_cons_of_pos (hpq y hy)]
      omega
    · rw [countP_cons_of_neg hy]
      exact hlt.trans_le ((sublist_cons_self _ _).countP_le)

/-- What a sweep that visited `visited` leaves of a log whose cursor stood at `start`. -/
structure Swept (crypto : Crypto) (target : UInt64) (wrapAt : PublicKey)
    (before after' : List CursorEntry) (start : PublicKey) (visited : List Row)
    (log log' : EventLog) : Prop where
  wf : log'.Wf crypto
  config : log'.config = log.config
  active : log'.preparedActive = log.preparedActive
  custody : log'.rows.map Row.custody = log.rows.map Row.custody
  cursors : log'.cursors =
    before ++ ⟨target, (visited.getLast?.map Row.originPubkey).getD start⟩ :: after'
  heads : ∀ row ∈ visited, Head log.rows target row
  order : visited.Pairwise fun a b => Before wrapAt a.originPubkey b.originPubkey

/-- No missing origin ahead of the sweep is passed over. -/
def Unskipped (target : UInt64) (wrapAt : PublicKey) (after : Option PublicKey) (wrapped : Bool)
    (visited rows : List Row) : Prop :=
  ∀ row ∈ rows, row.Outstanding target → Ahead wrapAt after wrapped row.originPubkey →
    (∃ other ∈ visited, Before wrapAt row.originPubkey other.originPubkey) →
    ∃ other ∈ visited, other.originPubkey = row.originPubkey

section Sweep

variable {crypto : Crypto} {target : UInt64} {wrapAt : PublicKey} {before after' : List CursorEntry}
  {start : PublicKey}

theorem Swept.refl {log : EventLog} (h : log.Wf crypto)
    (hcursors : log.cursors = before ++ ⟨target, start⟩ :: after') :
    Swept crypto target wrapAt before after' start [] log log where
  wf := h
  config := rfl
  active := rfl
  custody := rfl
  cursors := hcursors
  heads := by simp
  order := List.Pairwise.nil

theorem Head.of_custody {rows rows' : List Row} {row : Row}
    (h : rows'.map Row.custody = rows.map Row.custody) (hmem : row ∈ rows)
    (hhead : Head rows' target row) : Head rows target row where
  mem := hmem
  outstanding := hhead.outstanding
  least other hother hout horigin := by
    obtain ⟨other', hother', hout', horigin', hhlc⟩ := custody_outstanding h hother hout
    rw [← hhlc]
    exact hhead.least other' hother' hout' (horigin'.trans horigin)

/-- One visit in front of the rest of a sweep. -/
theorem Swept.cons {log middle log' : EventLog} {row : Row} {visited : List Row}
    (hhead : Head log.rows target row)
    (hcustody : middle.rows.map Row.custody = log.rows.map Row.custody)
    (hconfig : middle.config = log.config) (hactive : middle.preparedActive = log.preparedActive)
    (hsame : ∀ other ∈ middle.rows, other.originPubkey ≠ row.originPubkey → other ∈ log.rows)
    (hlater : ∀ other ∈ visited, Before wrapAt row.originPubkey other.originPubkey)
    (h : Swept crypto target wrapAt before after' row.originPubkey visited middle log') :
    Swept crypto target wrapAt before after' start (row :: visited) log log' where
  wf := h.wf
  config := h.config.trans hconfig
  active := h.active.trans hactive
  custody := h.custody.trans hcustody
  cursors := by
    rw [h.cursors, List.getLast?_cons]
    cases visited.getLast? <;> rfl
  heads other hother := by
    rcases mem_cons.mp hother with rfl | hother
    · exact hhead
    have hne : other.originPubkey ≠ row.originPubkey := fun heq =>
      before_irrefl (heq ▸ hlater other hother)
    have hmiddle := h.heads other hother
    exact hmiddle.of_custody hcustody (hsame other hmiddle.mem hne)
  order := pairwise_cons.mpr ⟨hlater, h.order⟩

theorem nextOriginHead_head {log : EventLog} (h : log.Wf crypto) {after upper : Option PublicKey}
    {index : Nat} {row : Row}
    (hnext : nextOriginHead log.rows target after upper = some (index, row)) :
    Head log.rows target row ∧ InRange after upper row.originPubkey ∧
      (∀ other ∈ log.rows, other.Outstanding target → InRange after upper other.originPubkey →
        row.originPubkey ≤ other.originPubkey) ∧
      ∃ l r, log.rows = l ++ row :: r ∧ index = l.length := by
  obtain ⟨hat, hel, hleast⟩ := nextOriginHead_some hnext
  have hmem := mem_of_getElem? hat
  obtain ⟨hout, hrange⟩ := (eligible_iff (h.rows row hmem).toSets).mp hel
  have hless : ∀ other ∈ log.rows, other.Outstanding target →
      InRange after upper other.originPubkey → headKey row ≤ headKey other :=
    fun other hother hother' hrange' => hleast other hother
      ((eligible_iff (h.rows other hother).toSets).mpr ⟨hother', hrange'⟩)
  refine ⟨⟨hmem, hout, fun other hother hother' horigin => ?_⟩, hrange,
    fun other hother hother' hrange' => (headKey_le (hless other hother hother' hrange')).1, ?_⟩
  · exact (headKey_le (hless other hother hother' (horigin ▸ hrange))).2 horigin.symm
  · obtain ⟨hlt, heq⟩ := List.getElem?_eq_some_iff.mp hat
    refine ⟨log.rows.take index, log.rows.drop (index + 1), ?_, ?_⟩
    · rw [← heq, getElem_cons_drop, take_append_drop]
    · rw [length_take]
      omega

/-- The page a sweep hands out for the rows it visited. -/
def pageOf (target : UInt64) (visited : List Row) : List PageItem :=
  (visited.filter fun row => target ∉ row.excludedOnceNodes).map pageItem

theorem pageOf_cons (row : Row) (visited : List Row) :
    pageOf target (row :: visited) =
      (if target ∈ row.excludedOnceNodes then [] else [pageItem row]) ++ pageOf target visited := by
  unfold pageOf
  by_cases hex : target ∈ row.excludedOnceNodes
  · rw [filter_cons_of_neg (by simpa using hex), if_pos hex, nil_append]
  · rw [filter_cons_of_pos (by simpa using hex), if_neg hex]
    rfl

theorem visit_rest {log middle : EventLog} {row : Row} {after upper : Option PublicKey}
    {wrapped : Bool} {visited : List Row} (hpos : Position wrapAt after upper wrapped)
    (hrange : InRange after upper row.originPubkey)
    (hleast : ∀ other ∈ log.rows, other.Outstanding target →
      InRange after upper other.originPubkey → row.originPubkey ≤ other.originPubkey)
    (hcustody : middle.rows.map Row.custody = log.rows.map Row.custody)
    (hahead : ∀ other ∈ visited, Ahead wrapAt (some row.originPubkey) wrapped other.originPubkey) :
    (∀ other ∈ visited, Before wrapAt row.originPubkey other.originPubkey) ∧
    (∀ other ∈ row :: visited, Ahead wrapAt after wrapped other.originPubkey) ∧
    (∀ other ∈ log.rows, other.Outstanding target → Ahead wrapAt after wrapped other.originPubkey →
      other.originPubkey = row.originPubkey ∨
      (Before wrapAt row.originPubkey other.originPubkey ∧
        ∃ other' ∈ middle.rows, other'.Outstanding target ∧
          Ahead wrapAt (some row.originPubkey) wrapped other'.originPubkey ∧
          other'.originPubkey = other.originPubkey)) := by
  refine ⟨fun other hother => (hpos.later hrange (hahead other hother)).1, fun other hother => ?_,
    fun other hother hout hother' => ?_⟩
  · rcases mem_cons.mp hother with rfl | hother
    · exact (hpos.visit hrange).2
    · exact (hpos.later hrange (hahead other hother)).2
  · by_cases heq : other.originPubkey = row.originPubkey
    · exact Or.inl heq
    have hremains := hpos.remains (hleast other hother hout) hother' heq
    obtain ⟨other', hmem, hout', horigin, -⟩ := custody_outstanding hcustody hother hout
    exact Or.inr ⟨(hpos.later hrange hremains).1, other', hmem, hout', horigin ▸ hremains, horigin⟩

theorem passesLeft_visit {after upper : Option PublicKey} {wrapped : Bool} {x : PublicKey}
    {origins : List PublicKey} (hpos : Position wrapAt after upper wrapped)
    (hrange : InRange after upper x) (hx : x ∈ origins) :
    passesLeft wrapAt (some x) wrapped origins < passesLeft wrapAt after wrapped origins := by
  have hlt := @countP_lt _ (fun origin => decide (Ahead wrapAt (some x) wrapped origin))
    (fun origin => decide (Ahead wrapAt after wrapped origin)) origins x
    (fun y hy => by
      rw [decide_eq_true_eq] at hy ⊢
      exact (hpos.later hrange hy).2) hx (by simpa using (hpos.visit hrange).2)
    (by
      rw [decide_eq_false_iff_not]
      exact fun hself => before_irrefl (hpos.later hrange hself).1)
  unfold passesLeft
  omega

theorem passesLeft_wrap (after : Option PublicKey) (origins : List PublicKey) :
    passesLeft wrapAt none true origins < passesLeft wrapAt after false origins := by
  have hle := @List.countP_mono_left _ (fun origin => decide (Ahead wrapAt none true origin))
    (fun origin => decide (Ahead wrapAt after false origin)) origins fun y _ hy => by
      rw [decide_eq_true_eq] at hy ⊢
      exact Or.inr hy.2
  unfold passesLeft
  simp only [Bool.false_eq_true, ↓reduceIte]
  omega

/-- One pass that finds a head: the sweep goes on from the log and the page the
visit leaves. -/
theorem sweep_visit (fuel : Nat) {log : EventLog} {room : Nat} {after upper : Option PublicKey}
    (wrapped : Bool) {page : List PageItem} {l r : List Row} {row : Row} (h : log.Wf crypto)
    (hcursors : log.cursors = before ++ ⟨target, start⟩ :: after') (hroom : page.length < room)
    (hnext : nextOriginHead log.rows target after upper = some (l.length, row))
    (hrows : log.rows = l ++ row :: r) :
    ∃ (middle : EventLog) (page' : List PageItem), middle.Wf crypto ∧
      middle.cursors = before ++ ⟨target, row.originPubkey⟩ :: after' ∧
      middle.rows.map Row.custody = log.rows.map Row.custody ∧
      middle.config = log.config ∧ middle.preparedActive = log.preparedActive ∧
      (∀ other ∈ middle.rows, other.originPubkey ≠ row.originPubkey → other ∈ log.rows) ∧
      page' = page ++ (if target ∈ row.excludedOnceNodes then [] else [pageItem row]) ∧
      EventLog.sweep target before.length room wrapAt (fuel + 1) log after upper wrapped page =
        EventLog.sweep target before.length room wrapAt fuel middle (some row.originPubkey) upper
          wrapped page' := by
  have hmem : row ∈ log.rows := by simp [hrows]
  have hwf := h.rows row hmem
  obtain ⟨hmoved, hmcursors, hmrows, hmconfig, hmactive⟩ :=
    moveCursor_spec h hcursors (mem_map_of_mem hmem)
  cases hidx : nodeIndex row.excludedOnceNodes target with
  | none =>
    have hex := (nodeIndex_none hwf.excluded).mp hidx
    refine ⟨_, _, hmoved, hmcursors, by rw [hmrows], hmconfig, hmactive,
      fun other hother _ => hmrows ▸ hother, rfl, ?_⟩
    simp only [EventLog.sweep, if_pos hroom, hnext, hidx, if_neg hex]
  | some excludedIndex =>
    have hex := (removeNode_spec hwf.excluded hidx).2.2
    obtain ⟨hdropped, hdrows⟩ := dropExclusion_spec hmoved (hmrows.trans hrows) hidx
    refine ⟨_, _, hdropped, hmcursors, ?_, hmconfig, hmactive, fun other hother hne => ?_, rfl, ?_⟩
    · rw [hdrows, hrows]
      simp [Row.custody]
    · rw [hdrows] at hother
      rw [hrows]
      simp only [mem_append, mem_cons] at hother ⊢
      rcases hother with hother | rfl | hother
      · exact Or.inl hother
      · exact absurd rfl hne
      · exact Or.inr (Or.inr hother)
    · simp only [EventLog.sweep, if_pos hroom, hnext, hidx, if_pos hex, append_nil]

/-- A sweep from any of its positions: what it hands out, what it leaves behind, the
order it visits in, and that with enough passes it ends only on a full page or with
every missing origin visited. -/
theorem sweep_spec (room : Nat) :
    ∀ (fuel : Nat) (log : EventLog) (start : PublicKey) (after upper : Option PublicKey)
      (wrapped : Bool) (page : List PageItem), log.Wf crypto →
      log.cursors = before ++ ⟨target, start⟩ :: after' → Position wrapAt after upper wrapped →
      ∃ visited,
        (EventLog.sweep target before.length room wrapAt fuel log after upper wrapped page).1 =
          page ++ pageOf target visited ∧
        Swept crypto target wrapAt before after' start visited log
          (EventLog.sweep target before.length room wrapAt fuel log after upper wrapped page).2 ∧
        (∀ row ∈ visited, Ahead wrapAt after wrapped row.originPubkey) ∧
        Unskipped target wrapAt after wrapped visited log.rows ∧
        (passesLeft wrapAt after wrapped (log.rows.map Row.originPubkey) ≤ fuel →
          (page ++ pageOf target visited).length < room →
          ∀ row ∈ log.rows, row.Outstanding target → Ahead wrapAt after wrapped row.originPubkey →
            ∃ other ∈ visited, other.originPubkey = row.originPubkey) := by
  intro fuel
  induction fuel with
  | zero =>
    intro log start after upper wrapped page h hcursors hpos
    refine ⟨[], by simp [EventLog.sweep, pageOf], Swept.refl h hcursors, by simp, ?_, ?_⟩
    · rintro row _ _ _ ⟨other, hother, -⟩
      cases hother
    · intro hpasses
      unfold passesLeft at hpasses
      split at hpasses <;> omega
  | succ fuel ih =>
    intro log start after upper wrapped page h hcursors hpos
    by_cases hroom : page.length < room
    · cases hnext : nextOriginHead log.rows target after upper with
      | none =>
        simp only [EventLog.sweep, if_pos hroom, hnext]
        have hempty : ∀ row ∈ log.rows, row.Outstanding target →
            ¬ InRange after upper row.originPubkey := fun row hrow hout hrange => by
          have hnot := nextOriginHead_none hnext row hrow
          rw [(eligible_iff (h.rows row hrow).toSets).mpr ⟨hout, hrange⟩] at hnot
          cases hnot
        cases wrapped with
        | true =>
          refine ⟨[], by simp [pageOf], Swept.refl h hcursors, by simp, ?_, ?_⟩
          · rintro row _ _ _ ⟨other, hother, -⟩
            cases hother
          · intro _ _ row hrow hout hahead
            cases hpos with
            | wrapped =>
              refine absurd ⟨hahead.1, ?_⟩ (hempty row hrow hout)
              rintro _ ⟨⟩
              exact hahead.2
        | false =>
          obtain ⟨visited, hpage, hswept, hahead, hskip, hall⟩ :=
            ih log start none (some wrapAt) true page h hcursors .wrapped
          refine ⟨visited, hpage, hswept, fun row hrow => Or.inr (hahead row hrow).2, ?_, ?_⟩
          · intro row hrow hout hrow' hlater
            exact hskip row hrow hout (hpos.wrap (hempty row hrow hout) hrow') hlater
          · intro hpasses hshort row hrow hout hrow'
            have hless := @passesLeft_wrap wrapAt after (log.rows.map Row.originPubkey)
            exact hall (by omega) hshort row hrow hout (hpos.wrap (hempty row hrow hout) hrow')
      | some found =>
        obtain ⟨index, row⟩ := found
        obtain ⟨hhead, hrange, hleast, l, r, hrows, rfl⟩ := nextOriginHead_head h hnext
        have hpresent : row.originPubkey ∈ log.rows.map Row.originPubkey :=
          mem_map_of_mem hhead.mem
        obtain ⟨middle, page', hmiddle, hcur, hcustody, hconfig, hactive, hsame, hgrow, hrun⟩ :=
          sweep_visit fuel wrapped h hcursors hroom hnext hrows
        have hnextPos := (hpos.visit hrange).1
        obtain ⟨visited, hpage, hswept, hahead, hskip, hall⟩ :=
          ih middle row.originPubkey (some row.originPubkey) upper wrapped page' hmiddle
            hcur hnextPos
        obtain ⟨hlater, hahead', hremains⟩ := visit_rest hpos hrange hleast hcustody hahead
        rw [hrun]
        refine ⟨row :: visited, ?_, Swept.cons hhead hcustody hconfig hactive hsame hlater hswept,
          hahead', ?_, ?_⟩
        · rw [hpage, hgrow, pageOf_cons, append_assoc]
        · intro other hother hout hother' hwitness
          rcases hremains other hother hout hother' with
            heq | ⟨hbefore, other', hmem, hout', hah, heq⟩
          · exact ⟨row, mem_cons_self, heq.symm⟩
          obtain ⟨v, hv, hov⟩ := hwitness
          rcases mem_cons.mp hv with rfl | hv
          · exact absurd (hbefore.trans hov) before_irrefl
          · obtain ⟨u, hu, huo⟩ := hskip other' hmem hout' hah ⟨v, hv, heq ▸ hov⟩
            exact ⟨u, mem_cons_of_mem _ hu, huo.trans heq⟩
        · intro hpasses hshort other hother hout hother'
          have hless := passesLeft_visit hpos hrange hpresent
          rcases hremains other hother hout hother' with heq | ⟨-, other', hmem, hout', hah, heq⟩
          · exact ⟨row, mem_cons_self, heq.symm⟩
          rw [pageOf_cons, ← append_assoc, ← hgrow] at hshort
          obtain ⟨u, hu, huo⟩ := hall (by rw [custody_origins hcustody]; omega) hshort other' hmem
            hout' hah
          exact ⟨u, mem_cons_of_mem _ hu, huo.trans heq⟩
    · simp only [EventLog.sweep, if_neg hroom]
      refine ⟨[], by simp [pageOf], Swept.refl h hcursors, by simp, ?_, ?_⟩
      · rintro row _ _ _ ⟨other, hother, -⟩
        cases hother
      · intro _ hshort
        simp [pageOf] at hshort
        omega

/-- The cursor a page starts from. -/
theorem ensureCursor_spec {log : EventLog} (h : log.Wf crypto) (hnonzero : target ≠ 0)
    {row : Row} (hrow : row ∈ log.rows) (hout : row.Outstanding target) (alloc : Allocator) :
    (∃ e, log.ensureCursor target alloc = .error e) ∨
    ∃ log' start, log.ensureCursor target alloc = .ok log' ∧ log'.Wf crypto ∧
      log'.rows = log.rows ∧ log'.config = log.config ∧
      log'.preparedActive = log.preparedActive ∧ ⟨target, start⟩ ∈ log'.cursors ∧
      (∀ cursor ∈ log.cursors, cursor ∈ log'.cursors) := by
  unfold EventLog.ensureCursor
  rcases h.cursorsAscending.findBy_cases target with
    ⟨l, cursor, r, hcursors, hnode, -, hfind, -⟩ | ⟨l, r, hcursors, hlb, hfind, hl, hr⟩
  · have heq : cursor = ⟨target, cursor.afterOriginPubkey⟩ := by
      rw [← hnode]
    right
    refine ⟨log, cursor.afterOriginPubkey, ?_, h, rfl, rfl, rfl, ?_, fun _ hmem => hmem⟩
    · rw [cursorAt, hfind]
    · rw [← heq, hcursors]
      simp
  rw [cursorAt, hfind]
  simp only
  by_cases hfull : log.config.maxCursorNodes ≤ log.cursors.length
  · rw [if_pos hfull]
    exact Or.inl ⟨_, rfl⟩
  rw [if_neg hfull]
  cases hroom : log.ensureProspectiveCapacity cursorEntryLen cursorEntryLen with
  | error e => exact Or.inl ⟨_, rfl⟩
  | ok u =>
    simp only
    split_ifs with halloc
    · exact Or.inl ⟨_, rfl⟩
    have hsome := @greatestOriginWhere_isSome log.rows none
      (fun row => rowMissingForTarget row target)
        (Or.inr ⟨row, hrow, (h.rows row hrow).toSets.missing_iff.mpr hout⟩)
    obtain ⟨origin, horigin⟩ := Option.isSome_iff_exists.mp hsome
    rw [← greatestMissingOrigin] at horigin
    rw [horigin]
    have hpresent : origin ∈ log.rows.map Row.originPubkey := by
      rcases greatestOriginWhere_mem horigin with hnone | ⟨other, hother, -, rfl⟩
      · cases hnone
      · exact mem_map_of_mem hother
    have hinsert : insertCursorAssumeCapacity log.cursors (lowerBoundCursors log.cursors target)
        ⟨target, origin⟩ = l ++ ⟨target, origin⟩ :: r := by
      rw [insertCursorAssumeCapacity, lowerBoundCursors, hlb, hcursors, insertShift_append]
    have hasc : Ascending CursorEntry.node (l ++ ⟨target, origin⟩ :: r) :=
      Ascending.insert (hcursors ▸ h.cursorsAscending) hl hr
    have hlen : (l ++ ⟨target, origin⟩ :: r).length = log.cursors.length + 1 := by
      rw [hcursors]
      simp only [length_append, length_cons]
      omega
    have hcap := ensureProspectiveCapacity_ok hroom
    have hcases : ∀ cursor ∈ l ++ ⟨target, origin⟩ :: r,
        cursor = ⟨target, origin⟩ ∨ cursor ∈ log.cursors := by
      intro cursor hcursor
      rw [hcursors]
      simp only [mem_append, mem_cons] at hcursor ⊢
      tauto
    right
    refine ⟨_, origin, rfl, EventLog.Shape.flags (h.setCursors (hinsert ▸ hasc) ?_ ?_ ?_ ?_ ?_
      hcap.aggregate hcap.body) _ _, rfl, rfl, rfl, ?_, fun cursor hcursor => ?_⟩
    · intro cursor hcursor
      rw [hinsert] at hcursor
      rcases hcases cursor hcursor with rfl | hcursor
      · exact hnonzero
      · exact h.cursorNonzero cursor hcursor
    · intro cursor hcursor
      rw [hinsert] at hcursor
      rcases hcases cursor hcursor with rfl | hcursor
      · exact hpresent
      · exact h.cursorTarget cursor hcursor
    · rw [hinsert, hlen]
      omega
    · rw [hinsert, hlen, Nat.add_mul]
      omega
    · rw [hinsert, hlen, Nat.add_mul]
      omega
    · show _ ∈ insertCursorAssumeCapacity _ _ _
      rw [hinsert]
      simp
    · show cursor ∈ insertCursorAssumeCapacity _ _ _
      rw [hinsert]
      rw [hcursors] at hcursor
      simp only [mem_append, mem_cons] at hcursor ⊢
      tauto

/-- What a page that swept leaves behind. -/
structure Collected (crypto : Crypto) (target : UInt64) (room : Nat) (start : PublicKey)
    (visited : List Row) (log log' : EventLog) : Prop where
  wf : log'.Wf crypto
  config : log'.config = log.config
  active : log'.preparedActive = log.preparedActive
  custody : log'.rows.map Row.custody = log.rows.map Row.custody
  heads : ∀ row ∈ visited, Head log.rows target row
  order : visited.Pairwise fun a b => Before start a.originPubkey b.originPubkey
  startAt : ∀ cursor ∈ log.cursors, cursor.node = target → cursor.afterOriginPubkey = start
  endAt : ⟨target, (visited.getLast?.map Row.originPubkey).getD start⟩ ∈ log'.cursors
  others : ∀ cursor ∈ log.cursors, cursor.node ≠ target → cursor ∈ log'.cursors
  unskipped : ∀ row ∈ log.rows, row.Outstanding target →
    (∃ other ∈ visited, Before start row.originPubkey other.originPubkey) →
    ∃ other ∈ visited, other.originPubkey = row.originPubkey
  complete : (pageOf target visited).length < room →
    ∀ row ∈ log.rows, row.Outstanding target →
      ∃ other ∈ visited, other.originPubkey = row.originPubkey

theorem ahead_all (origin : PublicKey) : Ahead wrapAt (some wrapAt) false origin := by
  rcases le_or_gt origin wrapAt with hle | hlt
  · exact Or.inr hle
  · refine Or.inl ?_
    rintro _ ⟨⟩
    exact hlt

theorem collect_cases {log : EventLog} (h : log.Wf crypto) (target : UInt64) (room : Nat)
    (alloc : Allocator) :
    (∃ e, log.collectPageForNode target room alloc = (.error e, log)) ∨
    log.collectPageForNode target room alloc = (.ok [], log) ∨
    ∃ start visited log',
      log.collectPageForNode target room alloc = (.ok (pageOf target visited), log') ∧
      Collected crypto target room start visited log log' := by
  unfold EventLog.collectPageForNode
  by_cases hzero : target = 0
  · rw [if_pos hzero]
    exact Or.inl ⟨_, rfl⟩
  rw [if_neg hzero, validateLiveConfig_ok h]
  simp only
  by_cases hactive : log.preparedActive = true
  · rw [if_pos hactive]
    exact Or.inl ⟨_, rfl⟩
  rw [if_neg hactive]
  by_cases hempty : log.rows.length = 0 ∨ room = 0
  · rw [if_pos hempty]
    exact Or.inr (Or.inl rfl)
  rw [if_neg hempty]
  by_cases hmissing : log.rows.any (fun row => rowMissingForTarget row target) = true
  · obtain ⟨row, hrow, hout⟩ := any_eq_true.mp hmissing
    rw [(h.rows row hrow).toSets.missing_iff] at hout
    simp only [hmissing, Bool.not_true, Bool.false_eq_true, ↓reduceIte]
    rcases ensureCursor_spec h hzero hrow hout alloc with
      ⟨e, herror⟩ | ⟨log₁, start, hensure, hwf, hrows, hconfig, hactive', hstart, hkept⟩
    · rw [herror]
      exact Or.inl ⟨_, rfl⟩
    right
    right
    obtain ⟨before, after', hcursors, hfind⟩ := hwf.cursorsAscending.findBy_mem hstart
    have hcursorAt : cursorAt log₁.cursors target = some (before.length, ⟨target, start⟩) := hfind
    simp only [hensure, hcursorAt]
    obtain ⟨visited, hpage, hswept, -, hskip, hall⟩ := sweep_spec room (log₁.rows.length + 2) log₁
      start (some start) none false [] hwf hcursors (.up (le_refl start))
    rw [nil_append] at hpage hall
    refine ⟨start, visited, _, by rw [hpage], ?_⟩
    rw [hrows] at hskip hall
    refine {
      wf := hswept.wf, config := hswept.config.trans hconfig
      active := hswept.active.trans hactive', custody := hrows ▸ hswept.custody
      heads := hrows ▸ hswept.heads, order := hswept.order, startAt :=
        fun cursor hcursor hnode => ?_
      endAt := ?_, others := fun cursor hcursor hnode => ?_
      unskipped := fun row hrow hout => hskip row hrow hout (ahead_all _)
      complete := fun hshort row hrow hout => hall ?_ hshort row hrow hout (ahead_all _) }
    · rw [hwf.cursorsAscending.eq_of_key (hkept cursor hcursor) hstart hnode]
    · rw [hswept.cursors]
      simp
    · have hmem := hkept cursor hcursor
      rw [hcursors] at hmem
      rw [hswept.cursors]
      simp only [mem_append, mem_cons] at hmem ⊢
      rcases hmem with hmem | rfl | hmem
      · exact Or.inl hmem
      · exact absurd rfl hnode
      · exact Or.inr (Or.inr hmem)
    · have hle := @List.countP_le_length _
        (fun origin => decide (Ahead start (some start) false origin))
        (log.rows.map Row.originPubkey)
      rw [length_map] at hle
      simp only [passesLeft, Bool.false_eq_true, ↓reduceIte]
      omega
  · have hnone : log.rows.any (fun row => rowMissingForTarget row target) = false := by
      simpa using hmissing
    rw [hnone]
    exact Or.inr (Or.inl rfl)

end Sweep

end OnyxServer.AcceptedLog
