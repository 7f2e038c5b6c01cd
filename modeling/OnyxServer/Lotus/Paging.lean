import OnyxServer.Lib.Paging
import OnyxServer.Lotus.History

/-!
# Reading a ring by time

The queries walk a ring in the order of insertion and are bounded by time. A client pages
with the time of the message of its last page that lies farthest.
-/
namespace OnyxServer

open Lib Lotus List

namespace Lotus

variable (params : Params) (store : Lotus)

/-- The newest entry first. `remaining` entries are still to be looked at. -/
def collectNewest (log : TargetLog) (n : Nat) (bound : Option UInt64) :
    Nat → List StoredMessage → List StoredMessage
  | 0, out => out
  | remaining + 1, out =>
    if n ≤ out.length then out
    else
      let entry := log.entry params.maxPerTarget remaining
      if entry.tombstone then collectNewest log n bound remaining out
      else if bound.any fun timestamp => decide (timestamp ≤ entry.timestamp) then
        collectNewest log n bound remaining out
      else collectNewest log n bound remaining (out ++ [entry])

def collectAfter (log : TargetLog) (timestamp : UInt64) (n : Nat) :
    Nat → List StoredMessage → List StoredMessage
  | 0, out => out
  | remaining + 1, out =>
    if n ≤ out.length then out
    else
      let entry := log.entry params.maxPerTarget (log.len - (remaining + 1))
      if entry.tombstone then collectAfter log timestamp n remaining out
      else if entry.timestamp ≤ timestamp then collectAfter log timestamp n remaining out
      else collectAfter log timestamp n remaining (out ++ [entry])

/-- `outLen` is the room in the caller's buffer. -/
def validateQuery (target : Bytes) (n outLen : Nat) : Except Error Unit :=
  if target.length = 0 then .error .invalidTarget
  else if outLen < n then .error .outputTooSmall
  else .ok ()

def latest (target : Bytes) (n outLen : Nat) : Except Error (List StoredMessage) :=
  match validateQuery target n outLen with
  | .error e => .error e
  | .ok () =>
    match store.targets.lookup target with
    | none => .ok []
    | some log => .ok (collectNewest params log n none log.len [])

def before (target : Bytes) (timestamp : UInt64) (n outLen : Nat) :
    Except Error (List StoredMessage) :=
  match validateQuery target n outLen with
  | .error e => .error e
  | .ok () =>
    match store.targets.lookup target with
    | none => .ok []
    | some log => .ok (collectNewest params log n (some timestamp) log.len [])

/-- The visible entries after a time, oldest first. -/
def after (target : Bytes) (timestamp : UInt64) (n outLen : Nat) :
    Except Error (List StoredMessage) :=
  match validateQuery target n outLen with
  | .error e => .error e
  | .ok () =>
    match store.targets.lookup target with
    | none => .ok []
    | some log => .ok (collectAfter params log timestamp n log.len [])

/-- Pages back in time, from the smallest time of one page to the next, to an empty page. -/
def pagesBefore (target : Bytes) (n : Nat) : Nat → UInt64 → List StoredMessage
  | 0, _ => []
  | rounds + 1, timestamp =>
    match store.before params target timestamp n n with
    | .ok (first :: rest) =>
      first :: rest ++
        pagesBefore target n rounds
          (rest.foldl (fun least message => min message.timestamp least) first.timestamp)
    | _ => []

/-- Pages forward in time, from the greatest time of one page to the next. -/
def pagesAfter (target : Bytes) (n : Nat) : Nat → UInt64 → List StoredMessage
  | 0, _ => []
  | rounds + 1, timestamp =>
    match store.after params target timestamp n n with
    | .ok (first :: rest) =>
      first :: rest ++
        pagesAfter target n rounds
          (rest.foldl (fun greatest message => max message.timestamp greatest) first.timestamp)
    | _ => []

end Lotus

namespace Lotus

variable {params : Params} {store : Lotus} {target : Bytes} {n : Nat}

/-- The messages that a query may show, in the order of insertion. -/
def visible (params : Params) (store : Lotus) (target : Bytes) : List StoredMessage :=
  (history params store target).filter fun message => !message.tombstone

section Collect

variable {log : TargetLog}

def entries (params : Params) (log : TargetLog) (count : Nat) : List StoredMessage :=
  (List.range count).map (log.entry params.maxPerTarget)

theorem collectNewest_eq (bound : UInt64) (remaining : Nat) (out : List StoredMessage) :
    collectNewest params log n (some bound) remaining out =
      out ++
        (((entries params log remaining).filter fun message => !message.tombstone).reverse.filter
        fun message => decide (message.timestamp < bound)).take (n - out.length) := by
  induction remaining generalizing out with
  | zero => simp [collectNewest, entries]
  | succ remaining ih =>
    have hstep : entries params log (remaining + 1) =
        entries params log remaining ++ [log.entry params.maxPerTarget remaining] := by
      rw [entries, range_succ, map_append]
      rfl
    rw [hstep, filter_append, reverse_append, filter_append]
    unfold collectNewest
    by_cases hfull : n ≤ out.length
    · rw [if_pos hfull, Nat.sub_eq_zero_of_le hfull, take_zero, append_nil]
    rw [if_neg hfull]
    simp only [Option.any_some]
    cases htombstone : (log.entry params.maxPerTarget remaining).tombstone with
    | true => simp [ih, htombstone]
    | false =>
      by_cases hbound : bound ≤ (log.entry params.maxPerTarget remaining).timestamp
      · have hnot : ¬ (log.entry params.maxPerTarget remaining).timestamp < bound :=
          not_lt.mpr hbound
        simp [ih, htombstone, hbound, hnot]
      · have hlt : (log.entry params.maxPerTarget remaining).timestamp < bound := not_le.mp hbound
        obtain ⟨k, hk⟩ : ∃ k, n - out.length = k + 1 := ⟨n - out.length - 1, by omega⟩
        have hk' : n - (out.length + 1) = k := by omega
        simp [ih, htombstone, hbound, hlt, hk, hk']

theorem collectAfter_eq (bound : UInt64) {remaining : Nat} (hremaining : remaining ≤ log.len)
    (out : List StoredMessage) :
    collectAfter params log bound n remaining out =
      out ++
        ((((List.range' (log.len - remaining) remaining).map (log.entry params.maxPerTarget)).filter
        fun message => !message.tombstone).filter fun message =>
          decide (bound < message.timestamp)).take
          (n - out.length) := by
  induction remaining generalizing out with
  | zero => simp [collectAfter]
  | succ remaining ih =>
    have hrest := @ih (by omega)
    have hnext : log.len - (remaining + 1) + 1 = log.len - remaining := by omega
    rw [List.range'_succ, hnext, map_cons]
    unfold collectAfter
    by_cases hfull : n ≤ out.length
    · rw [if_pos hfull, Nat.sub_eq_zero_of_le hfull, take_zero, append_nil]
    rw [if_neg hfull]
    cases htombstone : (log.entry params.maxPerTarget (log.len - (remaining + 1))).tombstone with
    | true => simp [hrest, htombstone]
    | false =>
      by_cases hbound : (log.entry params.maxPerTarget (log.len - (remaining + 1))).timestamp ≤
        bound
      · have hnot :
            ¬ bound < (log.entry params.maxPerTarget (log.len - (remaining + 1))).timestamp :=
          not_lt.mpr hbound
        simp [hrest, htombstone, hbound, hnot]
      · have hlt :
            bound < (log.entry params.maxPerTarget (log.len - (remaining + 1))).timestamp :=
          not_le.mp hbound
        obtain ⟨k, hk⟩ : ∃ k, n - out.length = k + 1 := ⟨n - out.length - 1, by omega⟩
        have hk' : n - (out.length + 1) = k := by omega
        simp [hrest, htombstone, hbound, hlt, hk, hk']

end Collect

/-- A query back in time is a page of the visible messages, newest insertion first. -/
theorem before_eq (htarget : target ≠ []) (timestamp : UInt64) :
    store.before params target timestamp n n =
      .ok (page (· < ·) StoredMessage.timestamp n
        (visible params store target).reverse timestamp) := by
  have hquery : validateQuery target n n = .ok () := by
    rw [validateQuery, if_neg (mt length_eq_zero_iff.mp htarget), if_neg (lt_irrefl n)]
  rw [before, hquery, visible, history]
  cases store.targets.lookup target with
  | none => simp [page, beyond]
  | some log =>
    simp only
    rw [collectNewest_eq]
    rfl

theorem after_eq (htarget : target ≠ []) (timestamp : UInt64) :
    store.after params target timestamp n n =
      .ok (page (· > ·) StoredMessage.timestamp n (visible params store target) timestamp) := by
  have hquery : validateQuery target n n = .ok () := by
    rw [validateQuery, if_neg (mt length_eq_zero_iff.mp htarget), if_neg (lt_irrefl n)]
  rw [after, hquery, visible, history]
  cases store.targets.lookup target with
  | none => simp [page, beyond]
  | some log =>
    simp only
    rw [collectAfter_eq timestamp le_rfl, Nat.sub_self, ← range_eq_range']
    rfl

theorem least_eq (first : UInt64) (rest : List StoredMessage) :
    rest.foldl (fun least message => min message.timestamp least) first =
      farthest (· < ·) StoredMessage.timestamp first rest := by
  rw [farthest]
  congr 1
  funext least message
  split
  · next hlt => exact min_eq_left hlt.le
  · next hle => exact min_eq_right (not_lt.mp hle)

theorem greatest_eq (first : UInt64) (rest : List StoredMessage) :
    rest.foldl (fun greatest message => max message.timestamp greatest) first =
      farthest (· > ·) StoredMessage.timestamp first rest := by
  rw [farthest]
  congr 1
  funext greatest message
  split
  · next hlt => exact max_eq_left (le_of_lt hlt)
  · next hle => exact max_eq_right (not_lt.mp hle)

theorem pagesBefore_eq (htarget : target ≠ []) (rounds : Nat) (timestamp : UInt64) :
    store.pagesBefore params target n rounds timestamp =
      pages (· < ·) StoredMessage.timestamp n
        (visible params store target).reverse rounds timestamp := by
  induction rounds generalizing timestamp with
  | zero => rfl
  | succ rounds ih =>
    rw [pagesBefore, before_eq htarget, pages]
    cases page (· < ·) StoredMessage.timestamp n
      (visible params store target).reverse timestamp with
    | nil => rfl
    | cons first rest =>
      simp only
      rw [ih, least_eq]

theorem pagesAfter_eq (htarget : target ≠ []) (rounds : Nat) (timestamp : UInt64) :
    store.pagesAfter params target n rounds timestamp =
      pages (· > ·) StoredMessage.timestamp n (visible params store target) rounds timestamp := by
  induction rounds generalizing timestamp with
  | zero => rfl
  | succ rounds ih =>
    rw [pagesAfter, after_eq htarget, pages]
    cases page (· > ·) StoredMessage.timestamp n (visible params store target) timestamp with
    | nil => rfl
    | cons first rest =>
      simp only
      rw [ih, greatest_eq]

/-- Paging with pages of `n` visits every visible message once and in the order of time:
backwards from any time above all of them, and forwards from zero. -/
structure PagesAll (params : Params) (store : Lotus) (target : Bytes) (n : Nat) : Prop where
  before : ∀ timestamp, (∀ message ∈ visible params store target, message.timestamp < timestamp) →
    ∀ rounds, (visible params store target).length ≤ rounds →
      (store.pagesBefore params target n rounds timestamp).Perm (visible params store target) ∧
        (store.pagesBefore params target n rounds timestamp).Pairwise fun x y => y.timestamp <
          x.timestamp
  after : ∀ rounds, (visible params store target).length ≤ rounds →
    (store.pagesAfter params target n rounds 0).Perm
        ((visible params store target).filter fun message => decide (0 < message.timestamp)) ∧
      (store.pagesAfter params target n rounds 0).Pairwise fun x y => x.timestamp < y.timestamp

def InTimeOrder (messages : List StoredMessage) : Prop :=
  messages.Pairwise fun x y => x.timestamp < y.timestamp

/-- The visible messages were inserted in the order of their times. Where one has the last
time of all, no time lies above it; and none after time zero is after the first page. -/
structure OrderedByTime (params : Params) (store : Lotus) (target : Bytes) : Prop where
  all : (∀ message ∈ visible params store target, message.timestamp < UInt64.ofNat (2 ^ 64 - 1)) →
    InTimeOrder (visible params store target)
  positive : InTimeOrder
    ((visible params store target).filter fun message => decide (0 < message.timestamp))

theorem inTimeOrder_reverse {messages : List StoredMessage} :
    Outward (· < ·) StoredMessage.timestamp messages.reverse ↔ InTimeOrder messages :=
  pairwise_reverse

theorem pagesBefore_iff (htarget : target ≠ []) (hn : 1 ≤ n) {timestamp : UInt64}
    (habove : ∀ message ∈ visible params store target, message.timestamp < timestamp) {rounds : Nat}
    (hrounds : (visible params store target).length ≤ rounds) :
    ((store.pagesBefore params target n rounds timestamp).Perm (visible params store target) ∧
        (store.pagesBefore params target n rounds timestamp).Pairwise fun x y => y.timestamp <
          x.timestamp) ↔
      InTimeOrder (visible params store target) := by
  have hall :
      beyond (· < ·) StoredMessage.timestamp (visible params store target).reverse timestamp =
      (visible params store target).reverse :=
    filter_eq_self.mpr fun message hmem => decide_eq_true (habove message (mem_reverse.mp hmem))
  have hlen :
      (beyond (· < ·) StoredMessage.timestamp
        (visible params store target).reverse timestamp).length ≤
      rounds := by
    rwa [hall, length_reverse]
  have hwalk := pages_ordered_iff (r := (· < ·)) hn hlen
  rw [hall, inTimeOrder_reverse] at hwalk
  rw [pagesBefore_eq htarget, ← hwalk]
  exact and_congr_left fun _ =>
    ⟨fun h => h.trans (reverse_perm _).symm, fun h => h.trans (reverse_perm _)⟩

theorem pagesAfter_iff (htarget : target ≠ []) (hn : 1 ≤ n) {rounds : Nat}
    (hrounds : (visible params store target).length ≤ rounds) :
    ((store.pagesAfter params target n rounds 0).Perm
          ((visible params store target).filter fun message => decide (0 < message.timestamp)) ∧
        (store.pagesAfter params target n rounds 0).Pairwise fun x y => x.timestamp < y.timestamp) ↔
      InTimeOrder
        ((visible params store target).filter fun message => decide (0 < message.timestamp)) := by
  rw [pagesAfter_eq htarget]
  exact pages_ordered_iff (r := (· > ·)) hn ((length_filter_le _ _).trans hrounds)

/-- Paging loses nothing exactly where the visible messages are in the order of time. -/
theorem pages_all_iff (params : Params) (store : Lotus) (target : Bytes) (n : Nat)
    (htarget : target ≠ [])
    (hn : 1 ≤ n) : PagesAll params store target n ↔ OrderedByTime params store target := by
  constructor
  · intro h
    refine ⟨fun hbelow => ?_, (pagesAfter_iff htarget hn le_rfl).mp (h.after _ le_rfl)⟩
    exact (pagesBefore_iff htarget hn hbelow le_rfl).mp (h.before _ hbelow _ le_rfl)
  · intro h
    refine ⟨fun timestamp habove rounds hrounds => ?_, fun rounds hrounds => ?_⟩
    · refine (pagesBefore_iff htarget hn habove hrounds).mpr (h.all fun message hmem => ?_)
      exact (habove message hmem).trans_le (by
        rw [UInt64.le_iff_toNat_le]
        have hword := timestamp.toNat_lt
        have hlast : (UInt64.ofNat (2 ^ 64 - 1)).toNat = 2 ^ 64 - 1 := by decide
        omega)
    · exact (pagesAfter_iff htarget hn hrounds).mpr h.positive

/-! Two messages in a ring of two. -/

def relayedParams : Params := { sampleParams with maxPerTarget := 2 }

def ringAt (first second : UInt64) : Lotus :=
  final (step relayedParams constantHash) Lotus.init
    [.append [97] ⟨[1], [2], [5], first, [3], none⟩ fun _ => true,
      .append [97] ⟨[2], [2], [5], second, [3], none⟩ fun _ => true]

theorem pages_all_iff_one : (visible relayedParams (ringAt 1 5) [97]).length = 2 ∧
    PagesAll relayedParams (ringAt 1 5) [97] 1 := by
  refine ⟨by decide +kernel,
    (pages_all_iff relayedParams _ [97] 1 (by decide) (by decide)).mpr ⟨fun _ => ?_, ?_⟩⟩
  · unfold InTimeOrder
    decide +kernel
  · unfold InTimeOrder
    decide +kernel

/-- A message of time 5, and behind it one that another node sent at time 1. -/
def relayedRing : Lotus := ringAt 5 1

/-- Paging back by single messages from time 6 never shows the message of time 5. -/
theorem paging_loses_message :
    (visible relayedParams relayedRing [97]).map StoredMessage.timestamp = [5, 1] ∧
      (relayedRing.pagesBefore relayedParams [97] 1 8 6).map StoredMessage.timestamp = [1] ∧
      ¬ PagesAll relayedParams relayedRing [97] 1 := by
  have hvisible : (visible relayedParams relayedRing [97]).map StoredMessage.timestamp =
      [5, 1] := by decide +kernel
  have hlost :
      (relayedRing.pagesBefore relayedParams [97] 1 8 6).map StoredMessage.timestamp = [1] := by
    decide +kernel
  refine ⟨hvisible, hlost, fun h => ?_⟩
  obtain ⟨hperm, -⟩ := h.before 6 (by decide +kernel) 8 (by decide +kernel)
  have hlen := (hperm.map StoredMessage.timestamp).length_eq
  rw [hlost, hvisible] at hlen
  exact absurd hlen (by decide)

end Lotus

end OnyxServer
