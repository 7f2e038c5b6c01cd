import OnyxServer.Lib.Trace
import OnyxServer.Text.Ascii

/-!
# The operator grant registry

`oper_cred_share.zig`: a bounded table that merges verified operator grants by
account. A slot owns bounded copies of the strings of its grant. The freshness of a
grant is its incarnation, then its issue time.
-/
namespace OnyxServer.OperGrant

open Lib Text

def maxFieldLen : Nat := 255
def defaultCapacity : Nat := 256

structure GrantFields where
  account : Bytes
  privilegeBits : UInt64
  operClass : Bytes
  title : Bytes
  issuerNode : Bytes
  incarnation : UInt64
  issuedMs : UInt64
  expiryMs : UInt64
  deriving DecidableEq

def copyInto (src : Bytes) : Bytes := src.take maxFieldLen

/-- A grant whose strings fit the buffers of a slot. -/
structure OwnedFields extends GrantFields where
  accountFits : account.length ≤ maxFieldLen
  classFits : operClass.length ≤ maxFieldLen
  titleFits : title.length ≤ maxFieldLen
  issuerFits : issuerNode.length ≤ maxFieldLen
  deriving DecidableEq

def OwnedFields.store (f : GrantFields) : OwnedFields :=
  { f with
    account := copyInto f.account
    operClass := copyInto f.operClass
    title := copyInto f.title
    issuerNode := copyInto f.issuerNode
    accountFits := List.length_take_le _ _
    classFits := List.length_take_le _ _
    titleFits := List.length_take_le _ _
    issuerFits := List.length_take_le _ _ }

def OwnedFields.view (owned : OwnedFields) : GrantFields := owned.toGrantFields

/-- A higher incarnation always wins; on equal incarnation a later issue time wins. -/
def supersedes (incoming : GrantFields) (stored : OwnedFields) : Bool :=
  if incoming.incarnation ≠ stored.incarnation then
    decide (stored.incarnation < incoming.incarnation)
  else decide (stored.issuedMs < incoming.issuedMs)

inductive UpsertResult where
  | inserted
  | superseded
  | staleIgnored
  deriving DecidableEq

/-- `cap` slots; a slot in use holds its grant. -/
structure Registry (cap : Nat) where
  slots : List (Option OwnedFields)
  len : Nat
  size : slots.length = cap

namespace Registry

variable {cap : Nat}

def init (cap : Nat) : Registry cap := ⟨List.replicate cap none, 0, List.length_replicate⟩

def findIndex (registry : Registry cap) (account : Bytes) : Option Nat :=
  registry.slots.findIdx? fun slot => slot.any fun owned => eqlIgnoreCase owned.account account

def firstFree (registry : Registry cap) : Option Nat :=
  registry.slots.findIdx? fun slot => slot.isNone

/-- The grant of a slot in use. -/
def slot (registry : Registry cap) (idx : Nat) : Option OwnedFields := registry.slots[idx]?.join

def setSlot (registry : Registry cap) (idx : Nat) (f : GrantFields) : Registry cap :=
  { registry with
    slots := registry.slots.set idx (some (OwnedFields.store f))
    size := List.length_set.trans registry.size }

def upsert (registry : Registry cap) (fields : GrantFields) : UpsertResult × Registry cap :=
  match registry.findIndex fields.account with
  | some idx =>
    match registry.slot idx with
    | some stored =>
      if !supersedes fields stored then (.staleIgnored, registry)
      else (.superseded, registry.setSlot idx fields)
    | none => (.staleIgnored, registry)
  | none =>
    match registry.firstFree with
    | none => (.staleIgnored, registry)
    | some free => (.inserted, { registry.setSlot free fields with len := registry.len + 1 })

def lookup (registry : Registry cap) (account : Bytes) (nowMs : UInt64) : Option GrantFields :=
  match registry.findIndex account with
  | none => none
  | some idx =>
    match registry.slot idx with
    | none => none
    | some owned => if owned.expiryMs ≤ nowMs then none else some owned.view

/-- The grants that the iterator yields, in the order of the slots. -/
def liveIterator (registry : Registry cap) (nowMs : UInt64) : List GrantFields :=
  registry.slots.filterMap fun slot =>
    match slot with
    | none => none
    | some owned => if owned.expiryMs ≤ nowMs then none else some owned.view

def expired (nowMs : UInt64) (owned : OwnedFields) : Bool := decide (owned.expiryMs ≤ nowMs)

def prune (registry : Registry cap) (nowMs : UInt64) : Nat × Registry cap :=
  let removed := registry.slots.countP fun slot => slot.any (expired nowMs)
  (removed,
    { slots := registry.slots.map fun slot => slot.filter fun owned => !expired nowMs owned
      len := registry.len - removed
      size := (List.length_map _).trans registry.size })

end Registry

inductive Op where
  | upsert (fields : GrantFields)
  | prune (nowMs : UInt64)

inductive Answer where
  | upserted (result : UpsertResult)
  | pruned (removed : Nat)
  deriving DecidableEq

def step {cap : Nat} (registry : Registry cap) : Op → Answer × Registry cap
  | .upsert fields => (.upserted (registry.upsert fields).1, (registry.upsert fields).2)
  | .prune nowMs => (.pruned (registry.prune nowMs).1, (registry.prune nowMs).2)

/-- The grants that a run offers to the registry. -/
def offered : List Op → List GrantFields
  | [] => []
  | .upsert fields :: ops => fields :: offered ops
  | .prune _ :: ops => offered ops

/-- The registry answers `fields` to a lookup or to an iteration at some clock. -/
def Shows {cap : Nat} (registry : Registry cap) (nowMs : UInt64) (fields : GrantFields) : Prop :=
  fields ∈ registry.liveIterator nowMs ∨ ∃ account, registry.lookup account nowMs = some fields

/-- A prune at `nowMs` gives up the slot of the account: the grant held has expired. -/
def Reclaims {cap : Nat} (registry : Registry cap) (account : Bytes) : Op → Prop
  | .upsert _ => False
  | .prune nowMs =>
    ∃ owned, some owned ∈ registry.slots ∧ lowerString owned.account = lowerString account ∧
      owned.expiryMs ≤ nowMs

/-- A grant `a` that is lower than `b` in (incarnation, issued). -/
def Lower (a b : GrantFields) : Prop :=
  a.incarnation < b.incarnation ∨ (a.incarnation = b.incarnation ∧ a.issuedMs < b.issuedMs)

instance (a b : GrantFields) : Decidable (Lower a b) := inferInstanceAs (Decidable (_ ∨ _))

end OnyxServer.OperGrant
