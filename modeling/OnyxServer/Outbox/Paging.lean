import OnyxServer.Lib.Rounds
import OnyxServer.Lib.Search
import OnyxServer.Outbox.Obligations

/-!
# Pages of rows to retry

The cursor of a list of rows makes a line of them: from the cursor to the end, then the
rows before it. A page takes from the front of the line, a removal repairs the cursor so
that the others keep their order, and admitted rows join at the end of the list.
-/
namespace OnyxServer.Outbox

open Lib List Option
open Relay.V2 (RelayId)

inductive RetryOp where
  | putBatchExcluding (peers : List UInt64) (receiptPeer : Option UInt64) (relayId : RelayId)
      (wire : Bytes)
      (retryAfterMs unboundExcludedPeer : UInt64) (alloc : Allocator)
  | acknowledge (peer : UInt64) (relayId : RelayId)
  | removeAt (index : Nat)
  | confirmReceipt (peer : UInt64) (relayId : RelayId)
  | collectDueEntries (nowMs : UInt64) (room : Nat)
  | collectDueReceipts (nowMs : UInt64) (room : Nat)

def retryStep (outbox : Outbox) : RetryOp → Option (Answer × Outbox)
  | .putBatchExcluding peers receiptPeer relayId wire retryAfterMs unboundExcludedPeer alloc =>
    let (result, outbox) :=
      outbox.putBatchExcluding peers receiptPeer relayId wire retryAfterMs unboundExcludedPeer alloc
    some (.status result, outbox)
  | .acknowledge peer relayId =>
    let (removed, outbox) := outbox.acknowledge peer relayId
    some (.found removed, outbox)
  | .removeAt index => (outbox.removeAt index).map fun outbox => (.found true, outbox)
  | .confirmReceipt peer relayId =>
    let (removed, outbox) := outbox.confirmReceipt peer relayId
    some (.found removed, outbox)
  | .collectDueEntries nowMs room =>
    let (page, outbox) := outbox.collectDueEntries nowMs room
    some (.entries page, outbox)
  | .collectDueReceipts nowMs room =>
    let (page, outbox) := outbox.collectDueReceipts nowMs room
    some (.receipts page, outbox)

section Line

variable {α κ : Type} {rows : List α} {cursor index : Nat} {key : α → κ}

def lineUp (rows : List α) (cursor : Nat) : List α := rows.drop cursor ++ rows.take cursor

theorem lineUp_perm : (lineUp rows cursor).Perm rows :=
  perm_append_comm.trans (by rw [take_append_drop])

theorem lineUp_mod (h : cursor ≤ rows.length) :
    lineUp rows (cursor % rows.length) = lineUp rows cursor := by
  rcases Nat.lt_or_eq_of_le h with hlt | rfl
  · rw [Nat.mod_eq_of_lt hlt]
  · simp [lineUp]

theorem lineUp_front (h : index < rows.length) :
    lineUp rows index = rows[index] :: (rows.drop (index + 1) ++ rows.take index) := by
  rw [lineUp, drop_eq_getElem_cons h]
  rfl

/-- The next row in turn goes to the back. -/
theorem lineUp_next (h : index < rows.length) :
    lineUp rows ((index + 1) % rows.length) = rows.drop (index + 1) ++ rows.take index ++
      [rows[index]] := by
  rw [lineUp_mod h, lineUp, append_assoc, take_concat_get']

/-- The sweep takes rows from the front until it has scanned them all, or the page is full. -/
theorem collectLoop_line (due : α → Bool) (room : Nat) {scanned : Nat}
    (hscanned : scanned ≤ rows.length) (hindex : index < rows.length) :
    ∃ k ≤ scanned, (collectLoop due rows scanned index room).1 =
      ((lineUp rows index).take k).filter due ∧
      lineUp rows (collectLoop due rows scanned index room).2 =
        (lineUp rows index).drop k ++ (lineUp rows index).take k ∧
      (k = scanned ∨ (collectLoop due rows scanned index room).1.length = room) ∧
      (collectLoop due rows scanned index room).2 ≤ rows.length := by
  induction scanned generalizing index room with
  | zero =>
    refine ⟨0, Nat.le_refl 0, ?_, ?_, .inl rfl, ?_⟩ <;> cases room <;>
      simp [collectLoop, Nat.le_of_lt hindex]
  | succ scanned ih =>
    cases room with
    | zero =>
      exact ⟨0, Nat.zero_le _, by
        simp [collectLoop], by simp [collectLoop], .inr rfl, Nat.le_of_lt hindex⟩
    | succ room =>
      have hnext : (index + 1) % rows.length < rows.length := Nat.mod_lt _ (by omega)
      have hline : ∀ k ≤ scanned, (lineUp rows ((index + 1) % rows.length)).take k =
          (rows.drop (index + 1) ++ rows.take index).take k ∧
          (lineUp rows ((index + 1) % rows.length)).drop k =
            (rows.drop (index + 1) ++ rows.take index).drop k ++ [rows[index]] := by
        intro k hk
        have hlength : k ≤ (rows.drop (index + 1) ++ rows.take index).length := by
          simp only [length_append, length_drop, length_take]
          omega
        rw [lineUp_next hindex]
        exact ⟨take_append_of_le_length hlength, drop_append_of_le_length hlength⟩
      rw [collectLoop, List.getElem?_eq_getElem hindex, lineUp_front hindex]
      dsimp only
      by_cases hdue : due rows[index] = true
      · rw [if_pos hdue]
        obtain ⟨k, hk, hpage, hrest, hfull, hbound⟩ := ih room (by omega) hnext
        obtain ⟨htake, hdrop⟩ := hline k hk
        refine ⟨k + 1, by omega, ?_, ?_, ?_, hbound⟩
        · rw [take_succ_cons, filter_cons_of_pos hdue, hpage, htake]
        · rw [hrest, htake, hdrop]
          simp
        · exact hfull.imp (congrArg (· + 1)) (congrArg (· + 1))
      · rw [if_neg hdue]
        obtain ⟨k, hk, hpage, hrest, hfull, hbound⟩ := ih (room + 1) (by omega) hnext
        obtain ⟨htake, hdrop⟩ := hline k hk
        refine ⟨k + 1, by omega, ?_, ?_, ?_, hbound⟩
        · rw [take_succ_cons, filter_cons_of_neg hdue, hpage, htake]
        · rw [hrest, htake, hdrop]
          simp
        · exact hfull.imp (congrArg (· + 1)) id

theorem collectDue_line (due : α → Bool) (room : Nat) (hcursor : cursor ≤ rows.length) :
    ∃ taken rest, lineUp rows cursor = taken ++ rest ∧
    (collectDue due rows cursor room).1 = taken.filter due ∧
      lineUp rows (collectDue due rows cursor room).2 = rest ++ taken ∧
      (rest = [] ∨ (taken.filter due).length = room) ∧
      (collectDue due rows cursor room).2 ≤ rows.length := by
  unfold collectDue
  split_ifs with hempty hroom
  · obtain rfl := length_eq_zero_iff.mp hempty
    exact ⟨[], [], by simp [lineUp], rfl, by simp [lineUp], .inl rfl, Nat.le_refl 0⟩
  · exact ⟨[], lineUp rows cursor, rfl, rfl, (append_nil _).symm, .inr hroom.symm, hcursor⟩
  · have hindex : cursor % rows.length < rows.length := Nat.mod_lt _ (by omega)
    obtain ⟨k, hk, hpage, hrest, hfull, hbound⟩ := collectLoop_line due room (Nat.le_refl _) hindex
    rw [lineUp_mod hcursor] at hpage hrest
    rw [hpage] at hfull
    refine ⟨_, _, (take_append_drop k _).symm, hpage, hrest, hfull.imp (fun hall => ?_) id, hbound⟩
    rw [hall, ← (lineUp_perm : (lineUp rows cursor).Perm rows).length_eq, List.drop_length]

/-- The cursor is repaired so that the other rows stay in line. -/
theorem lineUp_erase (hcursor : cursor ≤ rows.length) (hindex : index < rows.length) :
    ∃ front z back, lineUp rows cursor = front ++ z :: back ∧
      lineUp (rows.eraseIdx index) (repairCursor cursor index (rows.eraseIdx index).length) =
        front ++ back ∧
      repairCursor cursor index (rows.eraseIdx index).length ≤ (rows.eraseIdx index).length := by
  obtain ⟨l, r, hsplit, rfl⟩ := getElem?_split (List.getElem?_eq_getElem hindex)
  generalize rows[l.length] = z at hsplit
  subst hsplit
  rw [length_append, length_cons] at hcursor
  have hrepair : repairCursor cursor l.length (l ++ r).length =
      if l.length < cursor then cursor - 1 else cursor := by
    unfold repairCursor
    rw [length_append]
    split_ifs <;> omega
  rw [eraseIdx_split, hrepair]
  split_ifs with hbehind
  · obtain ⟨j, rfl⟩ := Nat.exists_eq_add_of_lt hbehind
    refine ⟨r.drop j ++ l, z, r.take j, ?_, ?_, ?_⟩
    · have hcut : l.length + j + 1 = l.length + (j + 1) := by omega
      rw [lineUp, hcut, drop_length_add_append, take_length_add_append]
      simp
    · have hcut : l.length + j + 1 - 1 = l.length + j := by omega
      rw [lineUp, hcut, drop_length_add_append, take_length_add_append]
      simp
    · rw [length_append]
      omega
  · have hle : cursor ≤ l.length := Nat.le_of_not_lt hbehind
    refine ⟨l.drop cursor, z, r ++ l.take cursor, ?_, ?_, ?_⟩
    · rw [lineUp, drop_append_of_le_length hle, take_append_of_le_length hle]
      simp
    · rw [lineUp, drop_append_of_le_length hle, take_append_of_le_length hle]
      simp
    · rw [length_append]
      omega

theorem lineUp_append (hcursor : cursor ≤ rows.length) (news : List α) :
    lineUp (rows ++ news) cursor = rows.drop cursor ++ news ++ rows.take cursor := by
  rw [lineUp, drop_append_of_le_length hcursor, take_append_of_le_length hcursor]

theorem lineUp_keys (cursor : Nat) (h : (rows.map key).Nodup) :
    ((lineUp rows cursor).map key).Nodup :=
  (lineUp_perm.map key).nodup_iff.mpr h

end Line

section Turn

variable {α κ : Type} [DecidableEq α] {due : UInt64 → α → Bool} {key : α → κ} {rows : List α}
    {cursor : Nat}

/-- What an operation does to rows and their cursor is one stop of their line. -/
structure Turn (due : UInt64 → α → Bool) (key : α → κ) (rows : List α) (cursor : Nat)
    (call : Option (UInt64 × Nat)) (page after : List α) (cursor' : Nat) : Prop where
  bound : cursor' ≤ after.length
  stop : ∀ stops, Rounds due key (lineUp after cursor') stops →
    Rounds due key (lineUp rows cursor)
      (⟨rows, call, page, after, after.length - rows.length⟩ :: stops)

theorem Turn.idle (hkeys : (rows.map key).Nodup) (hcursor : cursor ≤ rows.length) :
    Turn due key rows cursor none [] rows cursor := by
  refine ⟨hcursor, fun stops hstops => ?_⟩
  rw [Nat.sub_self]
  exact .other lineUp_perm.symm lineUp_perm.symm (Kept.refl (lineUp_keys cursor hkeys)) hstops

theorem Turn.collect (hcursor : cursor ≤ rows.length) (nowMs : UInt64) (room : Nat) :
    Turn due key rows cursor (some (nowMs, room)) (collectDue (due nowMs) rows cursor room).1 rows
      (collectDue (due nowMs) rows cursor room).2 := by
  obtain ⟨taken, rest, hline, hpage, hnext, hfull, hbound⟩ :=
    collectDue_line (due nowMs) room hcursor
  refine ⟨hbound, fun stops hstops => ?_⟩
  rw [hnext] at hstops
  rw [hpage, hline, Nat.sub_self]
  exact .page (hline ▸ lineUp_perm.symm) (hnext ▸ lineUp_perm.symm) hfull hstops

theorem Turn.erase (hkeys : (rows.map key).Nodup) (hcursor : cursor ≤ rows.length) {index : Nat}
    (hindex : index < rows.length) :
    Turn due key rows cursor none [] (rows.eraseIdx index)
      (repairCursor cursor index (rows.eraseIdx index).length) := by
  obtain ⟨front, z, back, hline, hnext, hbound⟩ := lineUp_erase hcursor hindex
  have hlength : (rows.eraseIdx index).length - rows.length = 0 := by
    have := length_eraseIdx_le rows index
    omega
  refine ⟨hbound, fun stops hstops => ?_⟩
  rw [hlength]
  have hkept := Kept.leave (hline ▸ lineUp_keys cursor hkeys : ((front ++ z :: back).map key).Nodup)
  rw [← hline, ← hnext] at hkept
  exact .other lineUp_perm.symm lineUp_perm.symm hkept hstops

theorem Turn.arrive {news : List α} (hkeys : ((rows ++ news).map key).Nodup)
    (hcursor : cursor ≤ rows.length) :
    Turn due key rows cursor none [] (rows ++ news) cursor := by
  have hlength : (rows ++ news).length - rows.length = news.length := by
    rw [length_append, Nat.add_sub_cancel_left]
  refine ⟨by rw [length_append]; omega, fun stops hstops => ?_⟩
  rw [hlength]
  have hline : ((rows.drop cursor ++ news ++ rows.take cursor).map key).Nodup :=
    lineUp_append hcursor news ▸ lineUp_keys cursor hkeys
  have hkept := Kept.join hline
  rw [← lineUp_append hcursor] at hkept
  exact .other lineUp_perm.symm lineUp_perm.symm hkept hstops

end Turn

def entryDue (nowMs : UInt64) (entry : Entry) : Bool :=
  entry.peer != unboundPeer && decide (entry.retryAfterMs ≤ nowMs)

def receiptDue (nowMs : UInt64) (receipt : Receipt) : Bool := decide (receipt.retryAfterMs ≤ nowMs)

def RetryOp.entryCall : RetryOp → Option (UInt64 × Nat)
  | .collectDueEntries nowMs room => some (nowMs, room)
  | _ => none

def RetryOp.receiptCall : RetryOp → Option (UInt64 × Nat)
  | .collectDueReceipts nowMs room => some (nowMs, room)
  | _ => none

def Answer.entryPage : Answer → List Entry
  | .entries page => page
  | _ => []

def Answer.receiptPage : Answer → List Receipt
  | .receipts page => page
  | _ => []

variable {outbox after : Outbox} {op : RetryOp} {answer : Answer}

/-- Both lists of an outbox, with their cursors. -/
structure Turns (outbox : Outbox) (op : RetryOp) (answer : Answer) (after : Outbox) : Prop where
  wf : Wf after
  entries : Turn entryDue Entry.key outbox.entries outbox.entryRetryCursor op.entryCall
    answer.entryPage after.entries
    after.entryRetryCursor
  receipts : Turn receiptDue Receipt.key outbox.receipts outbox.receiptRetryCursor op.receiptCall
    answer.receiptPage
    after.receipts after.receiptRetryCursor

section

variable (hwf : Wf outbox) (hentries : outbox.entryRetryCursor ≤ outbox.entries.length)
variable (hreceipts : outbox.receiptRetryCursor ≤ outbox.receipts.length)
include hwf hentries hreceipts

theorem Turns.same (hentryCall : op.entryCall = none)
    (hreceiptCall : op.receiptCall = none) (hentryPage : answer.entryPage = [])
    (hreceiptPage : answer.receiptPage = []) :
    Turns outbox op answer outbox := by
  refine ⟨hwf, ?_, ?_⟩
  · rw [hentryCall, hentryPage]
    exact .idle hwf.entryKeys hentries
  · rw [hreceiptCall, hreceiptPage]
    exact .idle hwf.receiptKeys hreceipts

theorem putBatchExcluding_turns {peers : List UInt64} {receiptPeer : Option UInt64}
    {relayId : RelayId} {wire : Bytes} {retryAfterMs unboundExcludedPeer : UInt64}
    {alloc : Allocator} {result : Except Error Unit}
    (hput : outbox.putBatchExcluding peers receiptPeer relayId wire retryAfterMs
      unboundExcludedPeer alloc = (result, after)) :
    Turns outbox
      (.putBatchExcluding peers receiptPeer relayId wire retryAfterMs unboundExcludedPeer alloc)
      (.status result) after := by
  have hafter :
      Wf (outbox.putBatchExcluding peers receiptPeer relayId wire retryAfterMs unboundExcludedPeer
        alloc).2 :=
    (putBatchExcluding_spec hwf peers receiptPeer wire retryAfterMs unboundExcludedPeer alloc).1
  have hcases :
      (outbox.putBatchExcluding peers receiptPeer relayId wire retryAfterMs unboundExcludedPeer
        alloc).2 =
      outbox ∨
        _ := putBatchExcluding_cases peers receiptPeer wire retryAfterMs unboundExcludedPeer alloc
  rw [hput] at hafter hcases
  dsimp only at hafter hcases
  rcases hcases with rfl | hadmits
  · exact .same hwf hentries hreceipts rfl rfl rfl rfl
  · have hpublished := hadmits.published
    subst hpublished
    exact ⟨hafter, .arrive hafter.entryKeys hentries, .arrive hafter.receiptKeys hreceipts⟩

theorem acknowledge_turns (peer : UInt64) (relayId : RelayId) :
    Turns outbox (.acknowledge peer relayId) (.found (outbox.acknowledge peer relayId).1)
      (outbox.acknowledge peer relayId).2 := by
  have hafter := (acknowledge_spec hwf peer relayId).1
  unfold acknowledge at hafter ⊢
  cases hfind : outbox.entries.findIdx? fun entry => entry.holds peer relayId with
  | none => exact .same hwf hentries hreceipts rfl rfl rfl rfl
  | some index =>
    rw [hfind] at hafter
    obtain ⟨hindex, -⟩ := List.findIdx?_eq_some_iff_getElem.mp hfind
    exact ⟨hafter, .erase hwf.entryKeys hentries hindex, .idle hwf.receiptKeys hreceipts⟩

theorem removeAt_turns {index : Nat}
    (hremove : outbox.removeAt index = some after) :
    Turns outbox (.removeAt index) (.found true) after := by
  unfold removeAt at hremove
  split_ifs at hremove with hindex
  cases hremove
  refine ⟨?_, .erase hwf.entryKeys hentries hindex, .idle hwf.receiptKeys hreceipts⟩
  obtain ⟨l, r, hsplit, rfl⟩ := getElem?_split (List.getElem?_eq_getElem hindex)
  generalize outbox.entries[l.length] = removed at hsplit
  have herase : outbox.entries.eraseIdx l.length = l ++ r := by
    rw [hsplit, eraseIdx_split]
  rw [herase]
  exact hwf.without hsplit _

theorem confirmReceipt_turns (peer : UInt64) (relayId : RelayId) :
    Turns outbox (.confirmReceipt peer relayId) (.found (outbox.confirmReceipt peer relayId).1)
      (outbox.confirmReceipt peer relayId).2 := by
  have hafter := (confirmReceipt_spec hwf peer relayId).1
  unfold confirmReceipt at hafter ⊢
  cases hfind : outbox.receipts.findIdx? fun receipt => receipt.holds peer relayId with
  | none => exact .same hwf hentries hreceipts rfl rfl rfl rfl
  | some index =>
    rw [hfind] at hafter
    obtain ⟨hindex, -⟩ := List.findIdx?_eq_some_iff_getElem.mp hfind
    exact ⟨hafter, .idle hwf.entryKeys hentries, .erase hwf.receiptKeys hreceipts hindex⟩

theorem retryStep_turns
    (hstep : retryStep outbox op = some (answer, after)) : Turns outbox op answer after := by
  cases op with
  | putBatchExcluding peers receiptPeer relayId wire retryAfterMs unboundExcludedPeer alloc =>
    cases hput : outbox.putBatchExcluding peers receiptPeer relayId wire retryAfterMs
      unboundExcludedPeer alloc with
    | mk result next =>
      rw [retryStep, hput] at hstep
      cases hstep
      exact putBatchExcluding_turns hwf hentries hreceipts hput
  | acknowledge peer relayId =>
    cases hstep
    exact acknowledge_turns hwf hentries hreceipts peer relayId
  | removeAt index =>
    obtain ⟨next, hremove, hnext⟩ := Option.map_eq_some_iff.mp hstep
    cases hnext
    exact removeAt_turns hwf hentries hreceipts hremove
  | confirmReceipt peer relayId =>
    cases hstep
    exact confirmReceipt_turns hwf hentries hreceipts peer relayId
  | collectDueEntries nowMs room =>
    cases hstep
    exact ⟨hwf.cursors _ _, .collect hentries nowMs room, .idle hwf.receiptKeys hreceipts⟩
  | collectDueReceipts nowMs room =>
    cases hstep
    exact ⟨hwf.cursors _ _, .idle hwf.entryKeys hentries, .collect hreceipts nowMs room⟩

end

def entryStop (visit : Visit Outbox RetryOp Answer) : Stop UInt64 Entry where
  before := visit.before.entries
  call := visit.input.entryCall
  page := visit.output.entryPage
  after := visit.after.entries
  joined := visit.after.entries.length - visit.before.entries.length

def receiptStop (visit : Visit Outbox RetryOp Answer) : Stop UInt64 Receipt where
  before := visit.before.receipts
  call := visit.input.receiptCall
  page := visit.output.receiptPage
  after := visit.after.receipts
  joined := visit.after.receipts.length - visit.before.receipts.length

theorem trace_rounds {ops : List RetryOp} {visits : List (Visit Outbox RetryOp Answer)}
    (hwf : Wf outbox) (hentries : outbox.entryRetryCursor ≤ outbox.entries.length)
    (hreceipts : outbox.receiptRetryCursor ≤ outbox.receipts.length)
    (hrun : trace retryStep outbox ops = some visits) :
    Rounds entryDue Entry.key (lineUp outbox.entries outbox.entryRetryCursor)
    (visits.map entryStop) ∧
      Rounds receiptDue Receipt.key (lineUp outbox.receipts outbox.receiptRetryCursor)
      (visits.map receiptStop) := by
  induction ops generalizing outbox visits with
  | nil =>
    cases hrun
    exact ⟨.done _, .done _⟩
  | cons op ops ih =>
    obtain ⟨answer, next, rest, hstep, hrest, rfl⟩ := trace_cons hrun
    have hturns := retryStep_turns hwf hentries hreceipts hstep
    obtain ⟨hentryRounds, hreceiptRounds⟩ :=
      ih hturns.wf hturns.entries.bound hturns.receipts.bound hrest
    exact ⟨hturns.entries.stop _ hentryRounds, hturns.receipts.stop _ hreceiptRounds⟩

/-- Two rows that stay take turns, no row is twice on a page, and a row that stays is
served within as many pages as there were rows and rows joined. -/
structure Fair {α κ : Type} (due : UInt64 → α → Bool) (key : α → κ) (stops : List (Stop UInt64 α)) :
    Prop where
  roundRobin : RoundRobin due stops
  distinct : ∀ stop ∈ stops, (stop.page.map key).Nodup
  served : ServedWithin due rowsMet stops

theorem retry_pages_fair {maxEntries : Nat} {start : Outbox} {ops : List RetryOp}
    {visits : List (Visit Outbox RetryOp Answer)} (hinit : init maxEntries = .ok start)
    (hrun : trace retryStep start ops = some visits) :
    Fair entryDue Entry.key (visits.map entryStop) ∧
    Fair receiptDue Receipt.key (visits.map receiptStop) := by
  have hwf := init_wf hinit
  have hcursors : start.entryRetryCursor = 0 ∧ start.receiptRetryCursor = 0 := by
    unfold init at hinit
    split_ifs at hinit
    cases hinit
    exact ⟨rfl, rfl⟩
  obtain ⟨hentries, hreceipts⟩ :=
    trace_rounds hwf (hcursors.1 ▸ Nat.zero_le _) (hcursors.2 ▸ Nat.zero_le _) hrun
  have hentryKeys := lineUp_keys start.entryRetryCursor hwf.entryKeys
  have hreceiptKeys := lineUp_keys start.receiptRetryCursor hwf.receiptKeys
  exact ⟨⟨hentries.roundRobin hentryKeys, hentries.distinct hentryKeys,
    hentries.servedWithin hentryKeys⟩,
    ⟨hreceipts.roundRobin hreceiptKeys, hreceipts.distinct hreceiptKeys,
    hreceipts.servedWithin hreceiptKeys⟩⟩

/-! ## A row that is never reached

Three rows at most: `1` waits, and of `2` and `3` one joins in front of every page and is
acknowledged after it. -/

def rowId (n : UInt8) : RelayId := ⟨List.replicate 16 n, by simp⟩

def waitingRow (n : UInt8) : Entry := ⟨7, rowId n, 0, 0, 0, [1]⟩

def joinOp (n : UInt8) : RetryOp := .putBatchExcluding [7] none (rowId n) [1] 0 9 fun _ => true

def behindRow (n : UInt8) : Outbox := ⟨3, [waitingRow 1, waitingRow n], [], 1, 0⟩

/-- The visits of one page that row `n` fills while row `k` is behind it. -/
def busyVisits (n k : UInt8) : List (Visit Outbox RetryOp Answer) :=
  [⟨behindRow n, joinOp k, .status (.ok ()),
    ⟨3, [waitingRow 1, waitingRow n, waitingRow k], [], 1, 0⟩⟩,
    ⟨⟨3, [waitingRow 1, waitingRow n, waitingRow k], [], 1, 0⟩, .collectDueEntries 1 1,
    .entries [waitingRow n], ⟨3, [waitingRow 1, waitingRow n, waitingRow k], [], 2, 0⟩⟩,
    ⟨⟨3, [waitingRow 1, waitingRow n, waitingRow k], [], 2, 0⟩, .acknowledge 7 (rowId n),
    .found true, behindRow k⟩]

def busyOps (n k : UInt8) : List RetryOp :=
  [joinOp k, .collectDueEntries 1 1, .acknowledge 7 (rowId n)]

theorem trace_busy {ops : List RetryOp} {rest : List (Visit Outbox RetryOp Answer)}
    (h : trace retryStep (behindRow 2) ops = some rest) :
    trace retryStep (behindRow 2) (busyOps 2 3 ++ (busyOps 3 2 ++ ops)) =
      some (busyVisits 2 3 ++ (busyVisits 3 2 ++ rest)) :=
  trace_next rfl
    (trace_next rfl (trace_next rfl (trace_next rfl (trace_next rfl (trace_next rfl h)))))

def starvingOps : Nat → List RetryOp
  | 0 => []
  | n + 1 => busyOps 2 3 ++ (busyOps 3 2 ++ starvingOps n)

def starvingVisits : Nat → List (Visit Outbox RetryOp Answer)
  | 0 => []
  | n + 1 => busyVisits 2 3 ++ (busyVisits 3 2 ++ starvingVisits n)

theorem trace_starving (n : Nat) :
    trace retryStep (behindRow 2) (starvingOps n) = some (starvingVisits n) := by
  induction n with
  | zero => rfl
  | succ n ih => exact trace_busy ih

/-- Row `1` is there and due all the time, and on no page. -/
def Starves (stop : Stop UInt64 Entry) : Prop :=
  waitingRow 1 ∈ stop.after ∧ waitingRow 1 ∉ stop.page ∧
    (stop.call = none ∨ stop.call = some (1, 1))

theorem starves_busy : (∀ visit ∈ busyVisits 2 3, Starves (entryStop visit)) ∧
    ∀ visit ∈ busyVisits 3 2, Starves (entryStop visit) := by
  unfold Starves
  decide +kernel

theorem starves (n : Nat) : ∀ visit ∈ starvingVisits n, Starves (entryStop visit) := by
  induction n with
  | zero => nofun
  | succ n ih =>
    exact forall_mem_append.mpr ⟨starves_busy.1, forall_mem_append.mpr ⟨starves_busy.2, ih⟩⟩

theorem calls_starving (n : Nat) : calls ((starvingVisits n).map entryStop) = 2 * n := by
  induction n with
  | zero => rfl
  | succ n ih =>
    rw [starvingVisits, map_append, map_append, calls, countP_append, countP_append]
    change _ + (_ + calls _) = _
    rw [ih]
    change 1 + (1 + 2 * n) = _
    omega

/-- The times at which pages of entries are asked for do not decrease. -/
def InTime (ops : List RetryOp) : Prop :=
  (ops.filterMap RetryOp.entryCall).Pairwise fun earlier later => earlier.1 ≤ later.1

def startOps (n : Nat) : List RetryOp :=
  joinOp 1 :: joinOp 2 :: .collectDueEntries 1 1 :: starvingOps n

theorem inTime_start (n : Nat) : InTime (startOps n) := by
  have hcalls : ∀ call ∈ (startOps n).filterMap RetryOp.entryCall, call = (1, 1) := by
    have hbusy : ∀ n, ∀ call ∈ (starvingOps n).filterMap RetryOp.entryCall, call = (1, 1) := by
      intro n
      induction n with
      | zero => nofun
      | succ n ih => exact forall_mem_cons.mpr ⟨rfl, forall_mem_cons.mpr ⟨rfl, ih⟩⟩
    exact forall_mem_cons.mpr ⟨rfl, hbusy n⟩
  refine List.Pairwise.imp_of_mem (R := fun _ _ => True) (fun ha hb _ => ?_)
    (pairwise_of_forall fun _ _ => trivial)
  rw [hcalls _ ha, hcalls _ hb]

/-- The rows join, and the one that will wait is on the first page. -/
def startVisits (n : Nat) : List (Visit Outbox RetryOp Answer) :=
  ⟨⟨3, [], [], 0, 0⟩, joinOp 1, .status (.ok ()), ⟨3, [waitingRow 1], [], 0, 0⟩⟩ ::
    ⟨⟨3, [waitingRow 1], [], 0, 0⟩, joinOp 2, .status (.ok ()),
      ⟨3, [waitingRow 1, waitingRow 2], [], 0, 0⟩⟩ ::
      ⟨⟨3, [waitingRow 1, waitingRow 2], [], 0, 0⟩, .collectDueEntries 1 1, .entries [waitingRow 1],
        behindRow 2⟩ ::
        starvingVisits n

theorem trace_start (n : Nat) :
    trace retryStep ⟨3, [], [], 0, 0⟩ (startOps n) = some (startVisits n) :=
  trace_next rfl (trace_next rfl (trace_next rfl (trace_starving n)))

theorem retry_pages_fair_busy :
    Fair entryDue Entry.key ((startVisits 1).map entryStop) ∧
      Fair receiptDue Receipt.key ((startVisits 1).map receiptStop) :=
  retry_pages_fair (rfl : init 3 = .ok ⟨3, [], [], 0, 0⟩) (trace_start 1)

/-- No number of pages is enough for every row, however small the outbox. -/
theorem retry_pages_unbounded :
    ¬ ∃ bound : Nat, ∀ (start : Outbox) (ops : List RetryOp)
      (visits : List (Visit Outbox RetryOp Answer)),
      init 3 = .ok start → InTime ops → trace retryStep start ops = some visits →
        ServedWithin entryDue (fun _ => bound) (visits.map entryStop) := by
  rintro ⟨bound, hserved⟩
  have hall := starves (bound + 1)
  have hcalls := calls_starving (bound + 1)
  have hstops := hserved _ _ _ rfl (inTime_start (bound + 1)) (trace_start (bound + 1))
  -- The pages after the one that the row itself was on.
  obtain ⟨visit, rest, hcons⟩ : ∃ visit rest, starvingVisits (bound + 1) = visit :: rest :=
    ⟨_, _, rfl⟩
  rw [startVisits, hcons] at hstops
  rw [hcons] at hall hcalls
  have hbefore : waitingRow 1 ∈ (entryStop visit).before := by
    cases hcons
    decide +kernel
  have hstarves : ∀ stop ∈ entryStop visit :: rest.map entryStop, Starves stop := by
    intro stop hstop
    obtain ⟨v, hv, rfl⟩ := mem_map.mp (show stop ∈ (visit :: rest).map entryStop from hstop)
    exact hall v hv
  have hdue : DueAt entryDue (waitingRow 1) (entryStop visit :: rest.map entryStop) := by
    intro stop hstop t room hcall
    rcases (hstarves stop hstop).2.2 with hnone | hone
    · rw [hnone] at hcall
      cases hcall
    · rw [hone] at hcall
      cases hcall
      decide +kernel
  obtain ⟨stop, hstop, hpage⟩ :=
    hstops [_, _, _] (entryStop visit) (rest.map entryStop) [] (waitingRow 1)
    (by rw [append_nil]; rfl) hbefore (fun stop hstop => (hstarves stop hstop).1) hdue (by
      change bound ≤ calls ((visit :: rest).map entryStop)
      omega)
  exact (hstarves stop hstop).2.1 hpage

end OnyxServer.Outbox
