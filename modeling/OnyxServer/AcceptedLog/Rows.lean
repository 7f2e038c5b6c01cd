import Mathlib.Data.Prod.Lex
import OnyxServer.Relay.V2

/-!
# Retained rows and cursors

The rows, node sets and per-target cursors of the accepted-event log, with the
searches and shifts of `rows.zig`. Node sets and both tables are flat arrays in
ascending order.
-/
namespace OnyxServer.AcceptedLog

open Lib List
open Relay.V2 (RelayId PublicKey)

structure Row where
  relayId : RelayId
  originPubkey : PublicKey
  originNode : UInt64
  hlc : UInt64
  wire : Bytes
  requiredNodes : List UInt64
  confirmedNodes : List UInt64
  excludedOnceNodes : List UInt64
  deriving DecidableEq

/-- The last origin considered for a target. -/
structure CursorEntry where
  node : UInt64
  afterOriginPubkey : PublicKey
  deriving DecidableEq

def lowerBoundNodes (nodes : List UInt64) (node : UInt64) : Nat :=
  lowerBoundBy (fun entry => entry) nodes node

def nodeIndex (nodes : List UInt64) (node : UInt64) : Option Nat :=
  (findBy (fun entry => entry) nodes node).map Prod.fst

def containsNode (nodes : List UInt64) (node : UInt64) : Bool :=
  (findBy (fun entry => entry) nodes node).isSome

def insertNodeAssumeCapacity (nodes : List UInt64) (index : Nat) (node : UInt64) : List UInt64 :=
  insertShift nodes index node

def removeNodeAt (nodes : List UInt64) (index : Nat) : List UInt64 := removeShift nodes index

/-- A node set: ascending without repetition. -/
abbrev Ordered (nodes : List UInt64) : Prop := Ascending (fun node : UInt64 => node) nodes

section Nodes

variable {nodes : List UInt64} {node : UInt64}

theorem containsNode_iff (h : Ordered nodes) : containsNode nodes node = true ↔ node ∈ nodes := by
  rw [containsNode, h.findBy_isSome]
  simp

/-- Insertion at the lower bound adds one member. -/
theorem insertNode_spec (h : Ordered nodes) (hn : node ∉ nodes) :
    Ordered (insertNodeAssumeCapacity nodes (lowerBoundNodes nodes node) node) ∧
    (∀ x, x ∈ insertNodeAssumeCapacity nodes (lowerBoundNodes nodes node) node ↔
      x = node ∨ x ∈ nodes) ∧
    (insertNodeAssumeCapacity nodes (lowerBoundNodes nodes node) node).length =
      nodes.length + 1 := by
  rcases h.findBy_cases node with ⟨l, x, r, hxs, hx, -⟩ | ⟨l, r, hxs, hlb, -, hl, hr⟩
  · exact absurd (by simp [hxs, ← hx]) hn
  rw [lowerBoundNodes, hlb, insertNodeAssumeCapacity, hxs, insertShift_append]
  refine ⟨Ascending.insert (hxs ▸ h) hl hr, fun x => ?_, ?_⟩
  · simp only [mem_append, mem_cons]
    exact or_left_comm
  · simp only [length_append, length_cons]
    omega

/-- Removal at the index of a node leaves the other members. -/
theorem removeNode_spec (h : Ordered nodes) {index : Nat} (hi : nodeIndex nodes node = some index) :
    removeNodeAt nodes index = nodes.filter (· ≠ node) ∧
    nodes.length = (removeNodeAt nodes index).length + 1 ∧ node ∈ nodes := by
  rcases h.findBy_cases node with ⟨l, x, r, hxs, rfl, -, hf, hl, hr⟩ | ⟨l, r, -, -, hf, -⟩
  · obtain rfl : l.length = index := by simpa [nodeIndex, hf] using hi
    rw [removeNodeAt, hxs, removeShift_append, filter_append, filter_cons_of_neg (by simp),
      filter_eq_self.mpr fun y hy => by simpa using ne_of_lt (hl y hy),
      filter_eq_self.mpr fun y hy => by simpa using ne_of_gt (hr y hy)]
    refine ⟨rfl, ?_, by simp⟩
    simp only [length_append, length_cons]
    omega
  · simp [nodeIndex, hf] at hi

theorem filter_ne_of_not_mem (h : node ∉ nodes) : nodes.filter (· ≠ node) = nodes := by
  apply filter_eq_self.mpr
  intro other hother
  have hne : other ≠ node := by
    rintro rfl
    exact h hother
  simpa using hne

theorem nodeIndex_none (h : Ordered nodes) : nodeIndex nodes node = none ↔ node ∉ nodes := by
  rw [← containsNode_iff h, nodeIndex, containsNode]
  simp

theorem nodeIndex_of_mem (h : Ordered nodes) (hn : node ∈ nodes) :
    nodeIndex nodes node = some (lowerBoundNodes nodes node) := by
  rcases h.findBy_cases node with ⟨l, x, r, -, -, hlb, hf, -⟩ | ⟨l, r, -, -, hf, -⟩
  · rw [nodeIndex, hf, lowerBoundNodes, hlb]
    rfl
  · rw [← containsNode_iff h, containsNode, hf] at hn
    cases hn

end Nodes

def lowerBoundRows (rows : List Row) (relayId : RelayId) : Nat :=
  lowerBoundBy Row.relayId rows relayId

def lowerBoundCursors (cursors : List CursorEntry) (node : UInt64) : Nat :=
  lowerBoundBy CursorEntry.node cursors node

def insertCursorAssumeCapacity (cursors : List CursorEntry) (index : Nat) (entry : CursorEntry) :
    List CursorEntry :=
  insertShift cursors index entry

def removeRowSlot (rows : List Row) (index : Nat) : List Row := removeShift rows index

def removeCursorSlot (cursors : List CursorEntry) (index : Nat) : List CursorEntry :=
  removeShift cursors index

/-- The row a search for `relayId` hits, with its index. -/
def rowAt (rows : List Row) (relayId : RelayId) : Option (Nat × Row) :=
  findBy Row.relayId rows relayId

/-- The cursor a search for `node` hits, with its index. -/
def cursorAt (cursors : List CursorEntry) (node : UInt64) : Option (Nat × CursorEntry) :=
  findBy CursorEntry.node cursors node

def containsOrigin (rows : List Row) (originPubkey : PublicKey) : Bool :=
  rows.any fun row => decide (row.originPubkey = originPubkey)

theorem containsOrigin_iff {rows : List Row} {origin : PublicKey} :
    containsOrigin rows origin = true ↔ ∃ row ∈ rows, row.originPubkey = origin := by
  simp only [containsOrigin, any_eq_true, decide_eq_true_eq]

/-! ## Heads of origins -/

def rowMissingForTarget (row : Row) (targetNode : UInt64) : Bool :=
  containsNode row.requiredNodes targetNode && !containsNode row.confirmedNodes targetNode

def pubkeyLess (a b : PublicKey) : Bool := decide (a < b)

def headLess (a b : Row) : Bool :=
  decide (a.hlc < b.hlc) || (decide (a.hlc = b.hlc) && decide (a.relayId < b.relayId))

/-- The row competes for the head of `(after, upper]`; a missing bound is open. -/
def eligible (targetNode : UInt64) (after upper : Option PublicKey) (row : Row) : Bool :=
  rowMissingForTarget row targetNode &&
    after.all (fun lower => pubkeyLess lower row.originPubkey) &&
    upper.all (fun limit => !pubkeyLess limit row.originPubkey)

/-- The row replaces the selected one. -/
def replaces (row selected : Row) : Bool :=
  pubkeyLess row.originPubkey selected.originPubkey ||
    (decide (row.originPubkey = selected.originPubkey) && headLess row selected)

def nextOriginHeadLoop (targetNode : UInt64) (after upper : Option PublicKey) :
    List Row → Nat → Option (Nat × Row) → Option (Nat × Row)
  | [], _, best => best
  | row :: rest, index, best =>
    nextOriginHeadLoop targetNode after upper rest (index + 1)
      (if eligible targetNode after upper row then
        match best with
        | some selected => if replaces row selected.2 then some (index, row) else best
        | none => some (index, row)
      else best)

/-- The lowest missing row of the first origin in `(after, upper]`, with its index. -/
def nextOriginHead (rows : List Row) (targetNode : UInt64) (after upper : Option PublicKey) :
    Option (Nat × Row) :=
  nextOriginHeadLoop targetNode after upper rows 0 none

/-- The scan both greatest-origin searches make. -/
def greatestOriginWhere (counts : Row → Bool) : List Row → Option PublicKey → Option PublicKey
  | [], greatest => greatest
  | row :: rest, greatest =>
    greatestOriginWhere counts rest
      (if counts row && greatest.all (fun key => pubkeyLess key row.originPubkey)
        then some row.originPubkey else greatest)

def greatestMissingOrigin (rows : List Row) (targetNode : UInt64) : Option PublicKey :=
  greatestOriginWhere (fun row => rowMissingForTarget row targetNode) rows none

def greatestOrigin (rows : List Row) : Option PublicKey :=
  greatestOriginWhere (fun _ => true) rows none

section Heads

variable {targetNode : UInt64} {after upper : Option PublicKey}

/-- Rows in the order heads are chosen: by origin, then by HLC, then by id. -/
def headKey (row : Row) : PublicKey ×ₗ (UInt64 ×ₗ RelayId) :=
  toLex (row.originPubkey, toLex (row.hlc, row.relayId))

theorem replaces_iff (row selected : Row) :
    replaces row selected = true ↔ headKey row < headKey selected := by
  simp only [replaces, pubkeyLess, headLess, headKey, Prod.Lex.toLex_lt_toLex, Bool.or_eq_true,
    Bool.and_eq_true, decide_eq_true_eq]

theorem headKey_le {a b : Row} (h : headKey a ≤ headKey b) :
    a.originPubkey ≤ b.originPubkey ∧ (a.originPubkey = b.originPubkey → a.hlc ≤ b.hlc) := by
  simp only [headKey, Prod.Lex.toLex_le_toLex] at h
  rcases h with h | ⟨heq, h⟩
  · exact ⟨h.le, fun heq => absurd heq h.ne⟩
  refine ⟨heq.le, fun _ => ?_⟩
  rcases h with h | ⟨heq, -⟩
  · exact h.le
  · exact heq.le

/-- The scan keeps the least eligible row met so far. -/
theorem nextOriginHeadLoop_spec (rest : List Row) :
    ∀ (done : List Row) (best : Option (Nat × Row)),
      (∀ found, best = some found → (done ++ rest)[found.1]? = some found.2 ∧
        eligible targetNode after upper found.2 = true ∧
        ∀ row ∈ done, eligible targetNode after upper row = true → headKey found.2 ≤ headKey row) →
      (best = none → ∀ row ∈ done, eligible targetNode after upper row = false) →
      match nextOriginHeadLoop targetNode after upper rest done.length best with
      | some found => (done ++ rest)[found.1]? = some found.2 ∧
          eligible targetNode after upper found.2 = true ∧
          ∀ row ∈ done ++ rest, eligible targetNode after upper row = true →
            headKey found.2 ≤ headKey row
      | none => ∀ row ∈ done ++ rest, eligible targetNode after upper row = false := by
  induction rest with
  | nil =>
    intro done best hsome hnone
    simp only [nextOriginHeadLoop, append_nil] at hsome hnone ⊢
    cases best with
    | none => exact hnone rfl
    | some found => exact hsome found rfl
  | cons row rest ih =>
    intro done best hsome hnone
    have hassoc : done ++ row :: rest = done ++ [row] ++ rest := by simp
    have hat : (done ++ row :: rest)[done.length]? = some row := getElem?_middle done rest row
    rw [hassoc] at hsome hat ⊢
    simp only [nextOriginHeadLoop]
    rw [show done.length + 1 = (done ++ [row]).length by simp]
    apply ih
    · intro found hfound
      by_cases hel : eligible targetNode after upper row = true
      · rw [if_pos hel] at hfound
        cases best with
        | none =>
          cases hfound
          refine ⟨hat, hel, fun other hother hoe => ?_⟩
          rcases mem_append.mp hother with hother | hother
          · exact absurd hoe (by simp [hnone rfl other hother])
          · rw [mem_singleton.mp hother]
        | some selected =>
          obtain ⟨hidx, hsel, hleast⟩ := hsome selected rfl
          simp only at hfound
          split at hfound
          · rename_i hrep
            cases hfound
            refine ⟨hat, hel, fun other hother hoe => ?_⟩
            rcases mem_append.mp hother with hother | hother
            · exact ((replaces_iff _ _).mp hrep).le.trans (hleast other hother hoe)
            · rw [mem_singleton.mp hother]
          · rename_i hrep
            cases hfound
            refine ⟨hidx, hsel, fun other hother hoe => ?_⟩
            rcases mem_append.mp hother with hother | hother
            · exact hleast other hother hoe
            · rw [mem_singleton.mp hother]
              exact not_lt.mp (mt (replaces_iff _ _).mpr hrep)
      · rw [if_neg hel] at hfound
        obtain ⟨hidx, hsel, hleast⟩ := hsome found hfound
        refine ⟨hidx, hsel, fun other hother hoe => ?_⟩
        rcases mem_append.mp hother with hother | hother
        · exact hleast other hother hoe
        · exact absurd (mem_singleton.mp hother ▸ hoe) hel
    · intro hbest other hother
      by_cases hel : eligible targetNode after upper row = true
      · rw [if_pos hel] at hbest
        cases best with
        | none => cases hbest
        | some selected => simp only at hbest; split at hbest <;> cases hbest
      · rw [if_neg hel] at hbest
        rcases mem_append.mp hother with hother | hother
        · exact hnone hbest other hother
        · rw [mem_singleton.mp hother]
          simpa using hel

variable {rows : List Row}

theorem nextOriginHead_some {index : Nat} {row : Row}
    (h : nextOriginHead rows targetNode after upper = some (index, row)) :
    rows[index]? = some row ∧ eligible targetNode after upper row = true ∧
      ∀ other ∈ rows, eligible targetNode after upper other = true →
        headKey row ≤ headKey other := by
  have hspec := @nextOriginHeadLoop_spec targetNode after upper rows [] none (by simp) (by simp)
  rw [length_nil, ← nextOriginHead, h] at hspec
  exact hspec

theorem nextOriginHead_none
    (h : nextOriginHead rows targetNode after upper = none) :
    ∀ row ∈ rows, eligible targetNode after upper row = false := by
  have hspec := @nextOriginHeadLoop_spec targetNode after upper rows [] none (by simp) (by simp)
  rw [length_nil, ← nextOriginHead, h] at hspec
  exact hspec

variable {greatest : Option PublicKey}

/-- The greatest-origin scan answers with the origin of a counted row. -/
theorem greatestOriginWhere_mem {counts : Row → Bool}
    {origin : PublicKey} (h : greatestOriginWhere counts rows greatest = some origin) :
    greatest = some origin ∨ ∃ row ∈ rows, counts row = true ∧ row.originPubkey = origin := by
  induction rows generalizing greatest with
  | nil => exact Or.inl h
  | cons row rest ih =>
    rcases ih h with h | ⟨other, hother, hcounts, horigin⟩
    · split at h
      · rename_i hrow
        exact Or.inr ⟨row, mem_cons_self, (Bool.and_eq_true _ _ ▸ hrow).1, Option.some.inj h⟩
      · exact Or.inl h
    · exact Or.inr ⟨other, mem_cons_of_mem _ hother, hcounts, horigin⟩

theorem greatestOriginWhere_isSome (counts : Row → Bool)
    (h : greatest.isSome = true ∨ ∃ row ∈ rows, counts row = true) :
    (greatestOriginWhere counts rows greatest).isSome = true := by
  induction rows generalizing greatest with
  | nil => simpa [greatestOriginWhere] using h
  | cons row rest ih =>
    apply ih
    by_cases hrow : counts row = true
    · left
      cases greatest with
      | none => simp [hrow]
      | some key => split <;> rfl
    · rcases h with h | ⟨other, hother, hcounts⟩
      · left
        simpa [hrow] using h
      right
      rcases mem_cons.mp hother with rfl | hother
      · exact absurd hcounts hrow
      · exact ⟨other, hother, hcounts⟩

end Heads

end OnyxServer.AcceptedLog
