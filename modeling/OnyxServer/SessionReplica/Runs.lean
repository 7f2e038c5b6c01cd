import OnyxServer.Lib.Trace
import OnyxServer.SessionReplica.Checkpoint

/-!
# Runs of the store

The calls the daemon makes on the store, each with the clock it reads and the allocations
that succeed. A restore takes any octets; an upgrade restores the image the store encodes of
itself. The order in which an iterator meets the rows may change between any two calls.
-/
namespace OnyxServer.SessionReplica

open Lib Text

inductive Table where
  | entries
  | tombstones
  | quarantines
  | attachmentLeases
  | groupRevocations
  deriving DecidableEq

inductive Call where
  | applySignedOffer (signed : SignedOffer) (viaPeer : NodeId) (nowMs : Int64) (alloc : Allocator)
  | groupRevoke (signed : SignedOffer) (nowMs : Int64) (alloc : Allocator) (commit : Bool)
  | applySignedAttachmentLease (signed : SignedAttachmentLease) (nowMs : Int64) (alloc : Allocator)
  | sweep (nowMs : Int64)
  | removePeer (peer : NodeId)
  | restore (bytes : Bytes) (restoreNowMs : Int64) (alloc : Allocator)
  | upgrade (capturedAtMs restoreNowMs : Int64) (encodeAlloc restoreAlloc : Allocator)
  | rehash (table : Table) (i : Nat)

/-- The clock when a call starts. -/
def Call.startMs : Call → Option Int64
  | .applySignedOffer _ _ nowMs _ => some nowMs
  | .groupRevoke _ nowMs _ _ => some nowMs
  | .applySignedAttachmentLease _ nowMs _ => some nowMs
  | .sweep nowMs => some nowMs
  | .removePeer _ => none
  | .restore _ restoreNowMs _ => some restoreNowMs
  | .upgrade capturedAtMs _ _ _ => some capturedAtMs
  | .rehash _ _ => none

/-- The clock when a call ends. -/
def Call.endMs : Call → Option Int64
  | .upgrade _ restoreNowMs _ _ => some restoreNowMs
  | call => call.startMs

inductive Answer where
  | offer (answer : Except ApplyError ApplyResult)
  | groupRevoke (answer : Except ApplyError Unit)
  | lease (answer : Except Store.AttachmentLeaseError Store.AttachmentLeaseDisposition)
  | checkpoint (answer : Except UpgradeCheckpointError Unit)
  | done

namespace Store

variable (crypto : Crypto) (self : Store)

def rehash (i : Nat) : Table → Store
  | .entries => { self with entries := HashMap.rehash i self.entries }
  | .tombstones => { self with tombstones := HashMap.rehash i self.tombstones }
  | .quarantines => { self with quarantines := HashMap.rehash i self.quarantines }
  | .attachmentLeases => { self with attachmentLeases := HashMap.rehash i self.attachmentLeases }
  | .groupRevocations => { self with groupRevocations := HashMap.rehash i self.groupRevocations }

/-- `prepareGroupRevoke`, then `commit` or `abort` of what it prepared. -/
def revokeGroup (signed : SignedOffer) (nowMs : Int64) (alloc : Allocator) (commit : Bool) :
    Outcome ApplyError Unit :=
  match self.prepareGroupRevoke crypto signed nowMs alloc with
  | (.error e, left) => (.error e, left)
  | (.ok prepared, left) =>
    (.ok (), if commit then (left.commitGroupRevoke crypto prepared).2
      else left.abortGroupRevoke crypto prepared)

/-- A store takes the place of this one when it was restored. -/
def replaced (restored : Except UpgradeCheckpointError Store) : Answer × Store :=
  (.checkpoint (restored.map fun _ => ()), match restored with
    | .ok replacement => replacement
    | .error _ => self)

/-- The image the store encodes of itself, restored. -/
def upgraded (capturedAtMs restoreNowMs : Int64) (encodeAlloc restoreAlloc : Allocator) :
    Except UpgradeCheckpointError Store :=
  match self.encodeUpgradeCheckpoint crypto capturedAtMs encodeAlloc with
  | .error e => .error e
  | .ok bytes => restoreUpgradeCheckpoint crypto self.cfg bytes restoreNowMs restoreAlloc

def step : Call → Answer × Store
  | .applySignedOffer signed viaPeer nowMs alloc =>
    let outcome := self.applySignedOffer crypto signed viaPeer nowMs alloc
    (.offer outcome.1, outcome.2)
  | .groupRevoke signed nowMs alloc commit =>
    let outcome := self.revokeGroup crypto signed nowMs alloc commit
    (.groupRevoke outcome.1, outcome.2)
  | .applySignedAttachmentLease signed nowMs alloc =>
    let outcome := self.applySignedAttachmentLease crypto signed nowMs alloc
    (.lease outcome.1, outcome.2)
  | .sweep nowMs => (.done, self.sweep crypto nowMs)
  | .removePeer peer => (.done, self.removePeer peer)
  | .restore bytes restoreNowMs alloc =>
    self.replaced (restoreUpgradeCheckpoint crypto self.cfg bytes restoreNowMs alloc)
  | .upgrade capturedAtMs restoreNowMs encodeAlloc restoreAlloc =>
    self.replaced (self.upgraded crypto capturedAtMs restoreNowMs encodeAlloc restoreAlloc)
  | .rehash table i => (.done, self.rehash i table)

end Store

end OnyxServer.SessionReplica
