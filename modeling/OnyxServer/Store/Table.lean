import OnyxServer.Store.Wal

/-!
# The slots of a table

A table of rows is open-addressed: a key is looked for from its hash on until a free slot.
A plan for a batch of edits is made beside the table, as patches of single slots or as new
backing, and published at once. Planning is metered; the digests by which a plan is
validated against its table are not modelled, but their work is.
-/
namespace OnyxServer.Store

open Lib

inductive SlotState where
  | free
  | used
  | tombstone
  deriving DecidableEq

structure Slot where
  state : SlotState
  hash : UInt64
  key : Bytes
  value : Bytes
  deriving DecidableEq

def freeSlot : Slot := ⟨.free, 0, [], []⟩

def tombstoneSlot : Slot := ⟨.tombstone, 0, [], []⟩

structure Edit where
  key : Bytes
  value : Option Bytes
  deriving DecidableEq

def maxEdits : Nat := maxBatchMutations * 2

/-- The hash of the standard library. -/
abbrev KeyHash := Bytes → UInt64

/-- The counters of single kinds of work are no more than the total, and bound nothing. -/
structure Work where
  total : Nat
  limit : Nat
  deriving DecidableEq

/-- What is done on account, or without one. -/
abbrev Metered := StateT (Option Work) (Except StoreError)

def charge (n : Nat) : Metered Unit := fun account =>
  match account with
  | none => .ok ((), none)
  | some work =>
    if maxU64 < work.total + n ∨ work.limit < work.total + n then .error .tableWorkExceeded
    else .ok ((), some { work with total := work.total + n })

def compare (a b : Bytes) : Metered Bool := do
  charge 1
  if a.length ≠ b.length then pure false
  else do
    charge a.length
    pure (a == b)

def chargeSlot (slot : Slot) : Metered Unit := do
  charge (if slot.state = .used then 32 else 16)
  if slot.state = .used then do
    charge slot.key.length
    charge slot.value.length
  else pure ()

def chargeEdits : List Edit → Metered Unit
  | [] => pure ()
  | edit :: rest => do
    charge (24 + edit.key.length)
    charge ((edit.value.map List.length).getD 0)
    chargeEdits rest

def chargeBacking : List Slot → Metered Unit
  | [] => pure ()
  | slot :: rest => do
    charge 1
    charge 64
    chargeSlot slot
    chargeBacking rest

/-- The hash wraps around the word, then around the slots, whose number is a power of two. -/
def probeIndex (cap : Nat) (hash : UInt64) (probe : Nat) : Nat :=
  ((hash.toNat + probe) % 2 ^ 64) &&& (cap - 1)

def maxLoad (cap : Nat) : Nat := cap - cap / 4

/-- A word overflows before 64 doublings, `capacityLoop_rounds` below. -/
def capacityLoop (required : Nat) : Nat → Nat → Option Nat
  | 0, _ => none
  | rounds + 1, cap =>
    if required ≤ maxLoad cap then some cap
    else
      match checkedMul cap 2 with
      | none => none
      | some cap => capacityLoop required rounds cap

def capacityFor (required initial : Nat) : Except StoreError Nat :=
  match capacityLoop required 64 (max initial 8) with
  | none => .error .outOfMemory
  | some cap => if maxU32 < cap then .error .outOfMemory else .ok cap

theorem capacityLoop_rounds {required rounds cap : Nat} (hpos : 0 < cap) (hcap : cap < usizeLimit)
    (hrounds : usizeLimit ≤ cap * 2 ^ rounds) :
    capacityLoop required (rounds + 1) cap = capacityLoop required rounds cap := by
  induction rounds generalizing cap with
  | zero => omega
  | succ rounds ih =>
    rw [capacityLoop, capacityLoop]
    split
    · rfl
    cases hmul : checkedMul cap 2 with
    | none => rfl
    | some next =>
      have hnext : next = cap * 2 ∧ next < usizeLimit := by
        unfold checkedMul at hmul
        split at hmul
        · cases hmul
          exact ⟨rfl, by assumption⟩
        · cases hmul
      obtain ⟨rfl, hlt⟩ := hnext
      refine ih (by omega) hlt ?_
      rwa [Nat.mul_assoc, ← Nat.pow_succ']

variable (keyHash : KeyHash)

def findFrom (slots : List Slot) (key : Bytes) : Nat → Nat → Metered (Option Nat)
  | 0, _ => pure none
  | remaining + 1, probe => do
    charge 1
    let index := probeIndex slots.length (keyHash key) probe
    let slot := slots.getD index freeSlot
    match slot.state with
    | .free => pure none
    | .used =>
      if slot.hash = keyHash key then do
        let equal ← compare slot.key key
        if equal then pure (some index) else findFrom slots key remaining (probe + 1)
      else findFrom slots key remaining (probe + 1)
    | .tombstone => findFrom slots key remaining (probe + 1)

def find (slots : List Slot) (key : Bytes) : Metered (Option Nat) :=
  if slots.length = 0 then pure none
  else do
    charge key.length
    findFrom keyHash slots key slots.length 0

def insertDetachedFrom (slots : List Slot) (slot : Slot) : Nat → Nat → Metered (List Slot)
  | 0, _ => throw .invalidTablePlan
  | remaining + 1, probe => do
    charge 1
    let index := probeIndex slots.length slot.hash probe
    let there := slots.getD index freeSlot
    if there.state = .free then pure (slots.set index slot)
    else if there.hash = slot.hash then do
      let equal ← compare there.key slot.key
      if equal then throw .invalidTablePlan else insertDetachedFrom slots slot remaining (probe + 1)
    else insertDetachedFrom slots slot remaining (probe + 1)

def insertDetached (slots : List Slot) (slot : Slot) : Metered (List Slot) :=
  insertDetachedFrom slots slot slots.length 0

structure KvTable where
  slots : List Slot
  used : Nat
  tombstones : Nat
  revision : Nat
  deriving DecidableEq

namespace KvTable

def init : KvTable := ⟨[], 0, 0, 0⟩

variable (table : KvTable)

/-- A search without an account does not fail. -/
def getEntry (key : Bytes) : Option Nat :=
  match find keyHash table.slots key none with
  | .ok (index, _) => index
  | .error _ => none

def get (key : Bytes) : Option Bytes :=
  (table.getEntry keyHash key).map fun index => (table.slots.getD index freeSlot).value

def reinsert : List Slot → List Slot → Metered (List Slot)
  | [], next => pure next
  | slot :: rest, next =>
    if slot.state = .used then do
      let next ← insertDetached next slot
      reinsert rest next
    else reinsert rest next

def ensureUnusedCapacity (additional : Nat) (alloc : Bool) : Except StoreError Unit × KvTable :=
  if table.revision = maxU64 then (.error .sequenceExhausted, table)
  else
    match capacityFor (table.used + additional) table.slots.length with
    | .error e => (.error e, table)
    | .ok cap =>
      if cap = table.slots.length ∧ table.used + table.tombstones + additional ≤ maxLoad cap then
        (.ok (), table)
      else if !alloc then (.error .outOfMemory, table)
      else
        match reinsert table.slots (List.replicate cap freeSlot) (some ⟨0, maxU64⟩) with
        | .error e => (.error e, table)
        | .ok (next, _) => (.ok (), ⟨next, table.used, 0, table.revision + 1⟩)

/-- The first tombstone before a free slot, or the free slot. -/
def placeFrom (slots : List Slot) (hash : UInt64) : Nat → Nat → Option Nat → Option Nat
  | 0, _, _ => none
  | remaining + 1, probe, tomb =>
    let index := probeIndex slots.length hash probe
    match (slots.getD index freeSlot).state with
    | .free => some (tomb.getD index)
    | .tombstone => placeFrom slots hash remaining (probe + 1) (some (tomb.getD index))
    | .used => placeFrom slots hash remaining (probe + 1) tomb

/-- The slot of the key and whether it was there. There is no answer where an assertion of
the program fails, here and below. -/
def getOrPutAssumeCapacity (key : Bytes) : Option ((Nat × Bool) × KvTable) :=
  if table.revision = maxU64 then none
  else
    let table := { table with revision := table.revision + 1 }
    match table.getEntry keyHash key with
    | some index => some ((index, true), table)
    | none =>
      match placeFrom table.slots (keyHash key) table.slots.length 0 none with
      | none => none
      | some index =>
        some ((index, false), { table with
          slots := table.slots.set index ⟨.used, keyHash key, key, []⟩
          used := table.used + 1
          tombstones :=
            if (table.slots.getD index freeSlot).state = .tombstone then table.tombstones - 1
            else table.tombstones })

def getOrPut (key : Bytes) (alloc : Bool) : Option (Except StoreError (Nat × Bool) × KvTable) :=
  if table.revision = maxU64 then some (.error .sequenceExhausted, table)
  else
    match table.getEntry keyHash key with
    | some index => some (.ok (index, true), { table with revision := table.revision + 1 })
    | none =>
      if maxU64 - 3 < table.revision then some (.error .sequenceExhausted, table)
      else
        match table.ensureUnusedCapacity 1 alloc with
        | (.error e, table) => some (.error e, table)
        | (.ok (), table) =>
          (table.getOrPutAssumeCapacity keyHash key).map fun answer => (.ok answer.1, answer.2)

def removeByPtr (index : Nat) : Option KvTable :=
  if table.revision = maxU64 ∨ (table.slots.getD index freeSlot).state ≠ .used then none
  else
    some
      { slots := table.slots.set index tombstoneSlot
        used := table.used - 1
        tombstones := table.tombstones + 1
        revision := table.revision + 1 }

def setValue (index : Nat) (value : Bytes) : KvTable :=
  { table with slots := table.slots.set index { table.slots.getD index freeSlot with value } }

/-- The growth of the table, then the copies of the key and of the value. -/
structure PutAllocs where
  grow : Bool
  key : Bool
  value : Bool

def put (key value : Bytes) (allocs : PutAllocs) : Option (Except StoreError Unit × KvTable) :=
  match table.getOrPut keyHash key allocs.grow with
  | none => none
  | some (.error e, table) => some (.error e, table)
  | some (.ok (index, true), table) =>
    if !allocs.value then some (.error .outOfMemory, table)
    else some (.ok (), table.setValue index value)
  | some (.ok (index, false), table) =>
    if !allocs.key then
      match table.getEntry keyHash key with
      | none => some (.error .outOfMemory, table)
      | some index => (table.removeByPtr index).map fun table => (.error .outOfMemory, table)
    else if !allocs.value then
      (table.removeByPtr index).map fun table => (.error .outOfMemory, table)
    else some (.ok (), table.setValue index value)

def delete (key : Bytes) : Option KvTable :=
  match table.getEntry keyHash key with
  | none => some table
  | some index => table.removeByPtr index

end KvTable

structure Patch where
  index : Nat
  before : Slot
  after : Slot
  deriving DecidableEq

structure TablePlan where
  expectedSlots : List Slot
  expectedRevision : Nat
  patches : List Patch
  replacement : Option (List Slot)
  finalCount : Nat
  finalTombstones : Nat
  edits : List Edit
  deriving DecidableEq

def patchAt (index : Nat) : List Patch → Metered (Option Slot)
  | [] => pure none
  | patch :: rest => do
    charge 1
    if patch.index = index then pure (some patch.after) else patchAt index rest

def replacePatch (index : Nat) (after : Slot) : List Patch → Metered (Option (List Patch))
  | [] => pure none
  | patch :: rest => do
    charge 1
    if patch.index = index then do
      chargeSlot after
      pure (some ({ patch with after } :: rest))
    else do
      let found ← replacePatch index after rest
      pure (found.map fun patches => patch :: patches)

namespace TablePlan

variable (plan : TablePlan)

/-- The slot as the plan leaves it. -/
def slotAt (index : Nat) : Metered Slot := do
  let found ← patchAt index plan.patches
  pure (found.getD (plan.expectedSlots.getD index freeSlot))

def set (index : Nat) (after : Slot) : Metered TablePlan := do
  let found ← replacePatch index after plan.patches
  match found with
  | some patches => pure { plan with patches }
  | none =>
    if plan.patches.length = maxEdits then throw .invalidTablePlan
    else do
      let before := plan.expectedSlots.getD index freeSlot
      chargeSlot before
      chargeSlot after
      pure { plan with patches := plan.patches ++ [⟨index, before, after⟩] }

def insertionFrom (hash : UInt64) (key : Bytes) : Nat → Nat → Option Nat → Metered Nat
  | 0, _, tombstone =>
    match tombstone with
    | some index => pure index
    | none => throw .invalidTablePlan
  | remaining + 1, probe, tombstone => do
    charge 1
    let index := probeIndex plan.expectedSlots.length hash probe
    let slot ← plan.slotAt index
    match slot.state with
    | .free => pure (tombstone.getD index)
    | .tombstone => insertionFrom hash key remaining (probe + 1) (some (tombstone.getD index))
    | .used =>
      if slot.hash = hash then do
        let equal ← compare slot.key key
        if equal then throw .invalidTablePlan
        else insertionFrom hash key remaining (probe + 1) tombstone
      else insertionFrom hash key remaining (probe + 1) tombstone

def insertion (hash : UInt64) (key : Bytes) : Metered Nat :=
  if plan.expectedSlots.length = 0 then throw .invalidTablePlan
  else plan.insertionFrom hash key plan.expectedSlots.length 0 none

def sealByteCount : Nat :=
  32 + 14 * 8 + 32 + plan.edits.length * 32 + plan.patches.length * 136 +
    if plan.replacement.isSome then 48 else 8

end TablePlan

/-- The last edit of a key takes the place of the first. -/
def replaceEdit (edit : Edit) : List Edit → Metered (List Edit)
  | [] => pure [edit]
  | prior :: rest => do
    let equal ← compare prior.key edit.key
    if equal then pure (edit :: rest)
    else do
      let rest ← replaceEdit edit rest
      pure (prior :: rest)

def lastEdits : List Edit → List Edit → Metered (List Edit)
  | [], final => pure final
  | edit :: rest, final => do
    let final ← replaceEdit edit final
    lastEdits rest final

/-- One edit sinks into those before it, the last of them first. -/
def sinkEdit (edit : Edit) : List Edit → Metered (List Edit)
  | [] => pure [edit]
  | prior :: rest => do
    charge 1
    charge (min edit.key.length prior.key.length)
    if edit.key < prior.key then do
      let rest ← sinkEdit edit rest
      pure (prior :: rest)
    else pure (edit :: prior :: rest)

/-- The edits before are held in reverse. -/
def sortEdits : List Edit → List Edit → Metered (List Edit)
  | [], sorted => pure sorted.reverse
  | edit :: rest, sorted => do
    let sorted ← sinkEdit edit sorted
    sortEdits rest sorted

/-- An edit, and the slot of its key in the table. -/
abbrev Located := Edit × Option Nat

/-- Updates and deletions are patched at once, insertions are counted. -/
def locateEdit (slots : List Slot) (edit : Edit) (old : Option Nat) (plan : TablePlan) :
    Metered TablePlan :=
  match old, edit.value with
  | some index, some value => plan.set index { slots.getD index freeSlot with value }
  | some index, none =>
    { plan with
      finalCount := plan.finalCount - 1
      finalTombstones := plan.finalTombstones + 1 : TablePlan }.set index tombstoneSlot
  | none, some _ =>
    if maxU32 < plan.finalCount + 1 then throw .outOfMemory
    else pure { plan with finalCount := plan.finalCount + 1 }
  | none, none => pure plan

def locateEdits (slots : List Slot) : List Edit → TablePlan → Metered (List Located × TablePlan)
  | [], plan => pure ([], plan)
  | edit :: rest, plan => do
    let old ← find keyHash slots edit.key
    let plan ← locateEdit slots edit old plan
    let (located, plan) ← locateEdits slots rest plan
    pure ((edit, old) :: located, plan)

def insertEdit (key value : Bytes) (plan : TablePlan) : Metered TablePlan := do
  charge key.length
  let index ← plan.insertion (keyHash key) key
  let there ← plan.slotAt index
  let plan :=
    if there.state = .tombstone then { plan with finalTombstones := plan.finalTombstones - 1 }
      else plan
  plan.set index ⟨.used, keyHash key, key, value⟩

def insertEdits : List Located → TablePlan → Metered TablePlan
  | [], plan => pure plan
  | (edit, old) :: rest, plan =>
    match old, edit.value with
    | none, some value => do
      let plan ← insertEdit keyHash edit.key value plan
      insertEdits rest plan
    | _, _ => insertEdits rest plan

/-- A row as the edits leave it. -/
def editedSlot (slot : Slot) : List Located → Metered Slot
  | [] => pure slot
  | (edit, _) :: rest => do
    let equal ← compare edit.key slot.key
    if equal then
      match edit.value with
      | some value => pure { slot with value }
      | none => pure { slot with state := .tombstone }
    else editedSlot slot rest

def copyLive (located : List Located) : List Slot → List Slot → Metered (List Slot)
  | [], replacement => pure replacement
  | slot :: rest, replacement => do
    charge 1
    if slot.state ≠ .used then copyLive located rest replacement
    else do
      let next ← editedSlot slot located
      if next.state = .used then do
        let replacement ← insertDetached replacement next
        copyLive located rest replacement
      else copyLive located rest replacement

def insertNew : List Located → List Slot → Metered (List Slot)
  | [], replacement => pure replacement
  | (edit, old) :: rest, replacement =>
    match old, edit.value with
    | none, some value => do
      charge edit.key.length
      let replacement ← insertDetached replacement ⟨.used, keyHash edit.key, edit.key, value⟩
      insertNew rest replacement
    | _, _ => insertNew rest replacement

def slotSize : Nat := 48

/-- New backing for the rows that are left and the new ones. -/
def rebuild (slots : List Slot) (located : List Located) (alloc : Bool) (plan : TablePlan) :
    Metered TablePlan := do
  let cap ← liftM (capacityFor plan.finalCount slots.length)
  match checkedMul cap slotSize with
  | none => throw .tableWorkExceeded
  | some rebuiltBytes => do
    charge rebuiltBytes
    if !alloc then throw .outOfMemory
    else do
      let replacement ← copyLive located slots (List.replicate cap freeSlot)
      let replacement ← insertNew keyHash located replacement
      chargeBacking replacement
      pure { plan with replacement := some replacement, patches := [], finalTombstones := 0 }

/-- The patches in place, unless they leave too few free slots. -/
def patchInPlace (slots : List Slot) (located : List Located) (cap : Nat) (alloc : Bool)
    (plan : TablePlan) :
    Metered TablePlan := do
  let plan ← insertEdits keyHash located plan
  if maxLoad cap < plan.finalCount + plan.finalTombstones then
    rebuild keyHash slots located alloc plan
  else pure plan

namespace KvTable

variable (table : KvTable)

/-- A table that no operation leaves. -/
def malformed : Bool :=
  (decide (table.slots.length = 0) && (decide (table.used ≠ 0) || decide (table.tombstones ≠ 0))) ||
    (decide (table.slots.length ≠ 0) &&
      (decide (table.slots.length &&& (table.slots.length - 1) ≠ 0) ||
        decide (table.slots.length < 8) ||
        decide (maxLoad table.slots.length < table.used + table.tombstones)))

def planEdits (edits : List Edit) (alloc : Bool) : Metered TablePlan := do
  chargeEdits edits
  let final ← lastEdits edits []
  let final ← sortEdits final []
  let (located, plan) ← locateEdits keyHash table.slots final
    { expectedSlots := table.slots, expectedRevision := table.revision, patches :=
      [], replacement := none
      finalCount := table.used, finalTombstones := table.tombstones, edits }
  let cap ← liftM (capacityFor plan.finalCount table.slots.length)
  let plan ←
    if cap ≠ table.slots.length then rebuild keyHash table.slots located alloc plan
    else patchInPlace keyHash table.slots located cap alloc plan
  charge plan.sealByteCount
  pure plan

def prepareStorage (edits : List Edit) (alloc : Bool) : Metered TablePlan :=
  if edits.length = 0 ∨ maxEdits < edits.length then throw .invalidTablePlan
  else if table.revision = maxU64 then throw .sequenceExhausted
  else if table.malformed then throw .invalidTablePlan
  else table.planEdits keyHash edits alloc

def prepare (edits : List Edit) (workLimit : Nat) (alloc : Bool) : Except StoreError TablePlan :=
  match table.prepareStorage keyHash edits alloc (some ⟨0, workLimit⟩) with
  | .error e => .error e
  | .ok (plan, _) => .ok plan

def publish (plan : TablePlan) : KvTable where
  slots :=
    match plan.replacement with
    | some slots => slots
    | none => plan.patches.foldl (fun slots patch => slots.set patch.index patch.after) table.slots
  used := plan.finalCount
  tombstones := plan.finalTombstones
  revision := plan.expectedRevision + 1

end KvTable

end OnyxServer.Store
