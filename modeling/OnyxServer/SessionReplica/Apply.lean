import OnyxServer.SessionReplica.Store

/-!
# Applying signed facts

How the store takes an OFFER, a REVOKE, a group revoke and an attachment lease, and how it
sweeps. A step answers and leaves a store; a refusal under pressure may still leave deny
markers behind. Each step takes whether its allocations succeed.
-/
namespace OnyxServer.SessionReplica

open Lib Text

inductive ApplyDisposition where
  | inserted
  | duplicate
  | conflict
  | conflictReplaced
  | quarantined
  | stale
  | superseded
  | tombstoned
  deriving DecidableEq

structure ApplyResult where
  disposition : ApplyDisposition
  currentRevision : Revision
  deriving DecidableEq

inductive LifetimeError where
  | expired
  | invalidLifetime
  deriving DecidableEq

inductive ApplyError where
  | verify (e : VerifyError)
  | lifetime (e : LifetimeError)
  | entryFull
  | identityConflict
  | invalidOffer
  | quarantineFull
  | routeFull
  | tombstoneFull
  | groupRevokeFull
  | accountMismatch
  | outOfMemory
  deriving DecidableEq

/-- The errors of a full table or a failed allocation. -/
def ApplyError.pressure : ApplyError → Bool
  | .entryFull | .quarantineFull | .routeFull | .tombstoneFull | .groupRevokeFull | .outOfMemory =>
      true
  | _ => false

/-- What a step answers, and the store it leaves. -/
abbrev Outcome (ε α : Type) := Except ε α × Store

def validateLifetime (issuedAtMs expiresAtMs nowMs : Int64) (maxLifetimeMs maxFutureSkewMs : Nat) :
    Except LifetimeError Unit :=
  if issuedAtMs < 0 ∨ expiresAtMs < issuedAtMs then .error .invalidLifetime
  else if (maxLifetimeMs : Int) < expiresAtMs.toInt - issuedAtMs.toInt then .error .invalidLifetime
  else if (maxFutureSkewMs : Int) < issuedAtMs.toInt - nowMs.toInt then .error .invalidLifetime
  else if expiresAtMs < nowMs then .error .expired
  else .ok ()

/-- Whether the revision is canonical and no further ahead than the skew allows. -/
def revisionWithin (revision : Revision) (nowMs : Int64) (maxFutureSkewMs : Nat) : Bool :=
  revision.isCanonical && !decide (nowMs.toInt + maxFutureSkewMs < revision.epoch.toNat)

namespace Store

variable (crypto : Crypto) (self : Store)

def validateOfferForStore (offer : Offer) (nowMs : Int64) : Except ApplyError Unit :=
  match validateOfferShape offer with
  | .error _ => .error .invalidOffer
  | .ok () =>
    if self.cfg.maxAccountBytes < offer.account.length ∨ self.cfg.maxNickBytes < offer.nick.length ∨
        self.cfg.maxSnapshotBytes < offer.snapshot.length then .error .invalidOffer
    else
      match validateLifetime offer.issuedAtMs offer.expiresAtMs nowMs self.cfg.maxOfferLifetimeMs
          self.cfg.maxFutureSkewMs with
      | .error .invalidLifetime => .error (.lifetime .invalidLifetime)
      | .error .expired =>
        -- a group revoke is a fence for ever; only its own span is checked
        if offer.operation ≠ .groupRevoke then .error (.lifetime .expired)
        else if !revisionWithin offer.revision nowMs self.cfg.maxFutureSkewMs then
          .error (.lifetime .invalidLifetime)
        else .ok ()
      | .ok () =>
        if !revisionWithin offer.revision nowMs self.cfg.maxFutureSkewMs then
          .error (.lifetime .invalidLifetime)
        else .ok ()

/-- Full evidence against a token, or deny markers when there is no room for it. -/
def installQuarantine (incoming existing : SignedOffer) (existingExpiresAtMs nowMs : Int64)
    (alloc : Allocator) : Outcome ApplyError Unit :=
  let token := incoming.offer.token
  let untilMs := min existingExpiresAtMs incoming.offer.expiresAtMs
  if self.cfg.maxQuarantines ≤ HashMap.count self.quarantines then
    (.error .quarantineFull, self.markTokenDenied token untilMs)
  else if !alloc 0 ∨ !alloc 1 ∨
    !alloc 2 then (.error .outOfMemory, self.markTokenDenied token untilMs)
  else
    let existingFirst :=
      decide (digestBytes crypto existing.transcript < digestBytes crypto incoming.transcript)
    let quarantine : Quarantine := {
      firstWire := if existingFirst then existing else incoming
      secondWire := if existingFirst then incoming else existing
      expiresAtMs := untilMs
      detectedAtMs := nowMs }
    let self := self.removeStateForToken crypto token
    (.ok (), { self with quarantines := self.quarantines.insert token quarantine })

/-! ## Installing an authority -/

def putRouteAssumeCapacity (key : RouteKey) (revision : Revision) (nowMs : Int64) : Store :=
  { self with routes := self.routes.insert key { revision, lastSeenMs := nowMs } }

/-- The high-water marks a replacement carries on. -/
def carriedMarks (offer : Offer) : Int64 × Int64 :=
  match self.entries.lookup offer.key with
  | some old =>
    (max offer.issuedAtMs old.authorityIssuedHighWater,
      max offer.expiresAtMs old.authorityExpiresHighWater)
  | none =>
    match self.tombstones.lookup offer.key with
    | some tomb =>
        (max offer.issuedAtMs tomb.wire.offer.issuedAtMs, max offer.expiresAtMs tomb.retainUntilMs)
    | none => (offer.issuedAtMs, offer.expiresAtMs)

/-- The row an OFFER leaves. -/
def offeredEntry (signed : SignedOffer) (viaPeer : NodeId) (nowMs : Int64) : Entry where
  wire := signed
  updatedAtMs := nowMs
  ingressPeer := if viaPeer = 0 then none else some viaPeer
  quarantineUntilMs := none
  authorityIssuedHwmMs := (self.carriedMarks signed.offer).1
  authorityExpiresHwmMs := (self.carriedMarks signed.offer).2

/-- An expired row of another account leaves its index before it is replaced. -/
def retireAccount (account : Bytes) (key : OriginKey) : Store :=
  match self.entries.lookup key with
  | some old => if !eqlIgnoreCase old.account account then
      self.removeAccountOrigin crypto old.account key else self
  | none => self

/-- The index with the key under its account, and under no other one. -/
def reindex (addAccountOrigin : Bool) (account : Bytes) (key : OriginKey) : Store :=
  let indexed := if addAccountOrigin then self.appendAccountOrigin crypto account key else self
  indexed.retireAccount crypto account key

def installUpsert (signed : SignedOffer) (viaPeer : NodeId) (nowMs : Int64) (alloc : Allocator) :
    Outcome ApplyError Unit :=
  let offer := signed.offer
  let key := offer.key
  let replacingEntry := (self.entries.lookup key).isSome
  let admitted := admitNewEntry {
    entries := HashMap.count self.entries
    tombstones := HashMap.count self.tombstones
    replacingEntry
    convertingTombstone := !replacingEntry && (self.tombstones.lookup key).isSome }
    self.cfg.retention
  if !admitted then (.error .entryFull, self)
  else
    let removableRoutes := self.routeCountForOrigin key
    let wantsRoute := viaPeer != 0 && offer.allowsResume
    if wantsRoute ∧ self.cfg.maxRoutes ≤ HashMap.count self.routes - removableRoutes then
      (.error .routeFull, self)
    else if !alloc 0 then (.error .outOfMemory, self)
    else if !replacingEntry ∧ !alloc 1 then (.error .outOfMemory, self)
    else if wantsRoute ∧ removableRoutes = 0 ∧ !alloc 2 then (.error .outOfMemory, self)
    else
      match self.reserveAccountOrigin crypto offer.account key (fun n => alloc (3 + n)) with
      | none => (.error .outOfMemory, self)
      | some (addAccountOrigin, reserved) =>
        let entry := self.offeredEntry signed viaPeer nowMs
        let indexed := reserved.reindex crypto addAccountOrigin offer.account key
        let stored := { indexed with entries := indexed.entries.insert key entry }
        let settled := (stored.dropTombstone key).removeRoutesForOrigin key
        (.ok (), if wantsRoute then
            settled.putRouteAssumeCapacity
            ⟨offer.token, offer.revision.originNode, viaPeer⟩ offer.revision nowMs
          else settled)

/-- The account a new tombstone is bound to. -/
def tombstoneIdentity (key : OriginKey) : Option Digest :=
  match self.tombstones.lookup key with
  | some old => match old.identityDigest with
    | some bound => some bound
    | none => self.identityDigestForToken crypto key.token
  | none =>
    match self.entries.lookup key with
    | some entry => some (accountDigest crypto entry.account)
    | none => self.identityDigestForToken crypto key.token

/-- The horizon a new tombstone must not fall short of. -/
def supersededExpiresAtMs (key : OriginKey) : Option Int64 :=
  match self.tombstones.lookup key with
  | some old => some old.retainUntilMs
  | none => (self.entries.lookup key).map Entry.authorityExpiresHighWater

/-- A tombstone without live authority behind it counts against the soft cap. -/
def tombstoneSoftCapped (key : OriginKey) : Bool :=
  match self.tombstones.lookup key with
  | some old => old.softCapped
  | none => (self.entries.lookup key).isNone

/-- The row a REVOKE leaves. -/
def revokedTombstone (signed : SignedOffer) (nowMs : Int64) : Tombstone where
  wire := signed
  removedAtMs := nowMs
  retainUntilMs := tombstoneRetainUntil nowMs signed.offer.expiresAtMs
    (self.supersededExpiresAtMs signed.offer.key) self.cfg.tombstoneTtlMs
  identityDigest := self.tombstoneIdentity crypto signed.offer.key
  quarantineUntilMs := none
  softCapped := self.tombstoneSoftCapped signed.offer.key

def installTombstone (signed : SignedOffer) (nowMs : Int64) (alloc : Allocator) :
    Outcome ApplyError Unit :=
  let key := signed.offer.key
  let replacing := (self.tombstones.lookup key).isSome
  let softCapped := self.tombstoneSoftCapped key
  let admitted := admitTombstone {
    entries := HashMap.count self.entries
    tombstones := HashMap.count self.tombstones
    softCappedTombstones := self.softCappedTombstones
    replacing
    convertingLiveEntry := (self.entries.lookup key).isSome } self.cfg.retention
  if !admitted then (.error .tombstoneFull, self)
  else if !alloc 0 then (.error .outOfMemory, self)
  else if !replacing ∧ !alloc 1 then (.error .outOfMemory, self)
  else
    let tombstone := self.revokedTombstone crypto signed nowMs
    let removed := (self.dropEntry crypto key).removeRoutesForOrigin key
    (.ok (), { removed with
      tombstones := removed.tombstones.insert key tombstone
      softCappedTombstones :=
        if !replacing && softCapped then removed.softCappedTombstones + 1
        else removed.softCappedTombstones })

def install (signed : SignedOffer) (viaPeer : NodeId) (nowMs : Int64) (alloc : Allocator) :
    Outcome ApplyError Unit :=
  if signed.offer.operation = .remove then self.installTombstone crypto signed nowMs alloc
  else self.installUpsert crypto signed viaPeer nowMs alloc

/-- The answer of an install that succeeds with `result`. -/
def answered (outcome : Outcome ApplyError Unit) (result : ApplyResult) :
    Outcome ApplyError ApplyResult :=
  (outcome.1.map fun _ => result, outcome.2)

/-- Provenance of a fact that was heard again from the peer it came from. -/
def recordRoute (token : Token) (destination nextHop : NodeId) (revision : Revision) (nowMs : Int64)
    (alloc : Allocator) : Outcome ApplyError Unit :=
  match self.getOrigin ⟨token, revision.originNode⟩ with
  | none => (.ok (), self)
  | some current =>
    if !current.revision.eql revision then (.ok (), self)
    else
      let key : RouteKey := ⟨token, destination, nextHop⟩
      match self.routes.lookup key with
      | some route =>
        if revision.compare route.revision = .lt then (.ok (), self)
        else (.ok (), self.putRouteAssumeCapacity key revision nowMs)
      | none =>
        if self.cfg.maxRoutes ≤ HashMap.count self.routes then (.error .routeFull, self)
        else if !alloc 0 then (.error .outOfMemory, self)
        else (.ok (), self.putRouteAssumeCapacity key revision nowMs)

/-- The same fact once more: only the peer it came from first refreshes it. -/
def refresh (signed : SignedOffer) (viaPeer : NodeId) (nowMs : Int64) (alloc : Allocator) :
    Outcome ApplyError Unit :=
  let offer := signed.offer
  match self.entries.lookup offer.key with
  | none => (.ok (), self)
  | some entry =>
    if offer.operation = .remove ∨ !(entry.ingressPeer.getD 0 == viaPeer) then (.ok (), self)
    else
      let (recorded, routed) :=
        if viaPeer ≠ 0 then
          self.recordRoute offer.token offer.revision.originNode viaPeer offer.revision nowMs alloc
        else (.ok (), self)
      match recorded with
      | .error e => (.error e, routed)
      | .ok () =>
        (.ok (),
          { routed with entries :=
            routed.entries.insert offer.key { entry with updatedAtMs := nowMs } })

/-- The revision and the digest of the row that stands for an origin. -/
def standing (key : OriginKey) : Option (Revision × Digest) :=
  match self.entries.lookup key with
  | some entry => some (entry.revision, entry.digest crypto)
  | none => (self.tombstones.lookup key).map fun tomb => (tomb.revision, tomb.digest crypto)

/-- A fact against the row of its own origin. -/
def converge (signed : SignedOffer) (viaPeer : NodeId) (nowMs : Int64) (alloc : Allocator) :
    Outcome ApplyError ApplyResult :=
  let offer := signed.offer
  let digest := digestBytes crypto signed.transcript
  match self.standing crypto offer.key with
  | none =>
    answered (self.install crypto signed viaPeer nowMs alloc)
      ⟨if offer.operation = .remove then .tombstoned else .inserted, offer.revision⟩
  | some (current, currentDigest) =>
    match offer.revision.compare current with
    | .lt => (.ok ⟨.stale, current⟩, self)
    | .eq =>
      if digest ≠ currentDigest then
        if digest < currentDigest then
          answered (self.install crypto signed viaPeer nowMs alloc) ⟨.conflictReplaced, current⟩
        else (.ok ⟨.conflict, current⟩, self)
      else answered (self.refresh signed viaPeer nowMs alloc) ⟨.duplicate, current⟩
    | .gt => answered (self.install crypto signed viaPeer nowMs alloc) ⟨.superseded, offer.revision⟩

/-- The account checks in front of the convergence: a token in quarantine answers so, and an
OFFER of another account than the token's starts one. -/
def applyVerifiedOffer (signed : SignedOffer) (viaPeer : NodeId) (nowMs : Int64)
    (alloc : Allocator) :
    Outcome ApplyError ApplyResult :=
  let offer := signed.offer
  let quarantined : ApplyResult := ⟨.quarantined, offer.revision⟩
  if self.hasFullQuarantine offer.token then (.ok quarantined, self)
  else if offer.operation = .upsert ∨ offer.operation = .inventoryUpsert then
    match self.findIdentityConflict crypto offer.token offer.account nowMs with
    | some conflict =>
      match conflict.wire with
      | some existing =>
        answered (self.installQuarantine crypto signed existing conflict.expiresAtMs nowMs alloc)
          quarantined
      | none =>
        (.ok quarantined,
          self.markTokenDenied offer.token (min conflict.expiresAtMs offer.expiresAtMs))
    | none =>
      if self.hasDenyMarker offer.token then (.ok quarantined, self)
      else self.converge crypto signed viaPeer nowMs alloc
  else if self.hasDenyMarker offer.token then (.ok quarantined, self)
  else self.converge crypto signed viaPeer nowMs alloc

/-- A prepared group revoke. Nothing is left to do when the token is fenced already. -/
structure PreparedGroupRevoke where
  token : Token
  wire : Option SignedOffer

/-- The account a row of the token disagrees with. -/
def accountMismatch (token : Token) (account : Bytes) : Bool :=
  (self.entries.entries.any fun slot => tokenEql slot.1.token token &&
    !eqlIgnoreCase slot.2.account account) ||
    self.tombstones.entries.any fun slot => tokenEql slot.1.token token &&
      slot.2.identityDigest.any (· != accountDigest crypto account)

def prepareGroupRevoke (signed : SignedOffer) (nowMs : Int64) (alloc : Allocator) :
    Outcome ApplyError PreparedGroupRevoke :=
  let offer := signed.offer
  match verifyOffer crypto signed with
  | .error e => (.error (.verify e), self)
  | .ok () =>
    if offer.operation ≠ .groupRevoke then (.error .invalidOffer, self)
    else
      match self.validateOfferForStore offer nowMs with
      | .error e => (.error e, self)
      | .ok () =>
        match self.groupRevocations.lookup offer.token with
        | some old =>
          if !eqlIgnoreCase old.account offer.account then (.error .accountMismatch, self)
          else (.ok ⟨offer.token, none⟩, self)
        | none =>
          if self.accountMismatch crypto offer.token offer.account then
            (.error .accountMismatch, self)
          else if self.hasFullQuarantine offer.token then (.error .identityConflict, self)
          else if self.cfg.maxGroupRevocations ≤ HashMap.count self.groupRevocations then
            (.error .groupRevokeFull, self)
          else if !alloc 0 ∨ !alloc 1 then (.error .outOfMemory, self)
          else
            match self.reserveAccountOrigin crypto offer.account ⟨offer.token, 0⟩
              (fun n => alloc (2 + n)) with
            | none => (.error .outOfMemory, self)
            | some (_, reserved) => (.ok ⟨offer.token, some signed⟩, reserved)

def commitGroupRevoke (prepared : PreparedGroupRevoke) : ApplyDisposition × Store :=
  match prepared.wire with
  | none => (.duplicate, self)
  | some signed =>
    let self := self.appendAccountOrigin crypto signed.offer.account ⟨prepared.token, 0⟩
    let self :=
      { self with groupRevocations := self.groupRevocations.insert prepared.token ⟨signed⟩ }
    let self := self.removeStateForToken crypto prepared.token
    (.inserted, self.removeLeasesForToken prepared.token)

def abortGroupRevoke (prepared : PreparedGroupRevoke) : Store :=
  match prepared.wire with
  | none => self
  | some signed =>
    let digest := accountDigest crypto signed.offer.account
    match self.accountIndex.lookup digest with
    | some [] => { self with accountIndex := self.accountIndex.erase digest }
    | _ => self

def applySignedOffer (signed : SignedOffer) (viaPeer : NodeId) (nowMs : Int64) (alloc : Allocator) :
    Outcome ApplyError ApplyResult :=
  let offer := signed.offer
  if offer.operation = .groupRevoke then
    match self.prepareGroupRevoke crypto signed nowMs alloc with
    | (.error e, self) => (.error e, self)
    | (.ok prepared, self) =>
      let (disposition, self) := self.commitGroupRevoke crypto prepared
      match self.groupRevocations.lookup offer.token with
      | some group => (.ok ⟨disposition, group.revision⟩, self)
      | none => (.ok ⟨disposition, offer.revision⟩, { self with faulted := true })
  else
    match verifyOffer crypto signed with
    | .error e => (.error (.verify e), self)
    | .ok () =>
      match self.validateOfferForStore offer nowMs with
      | .error e => (.error e, self)
      | .ok () =>
        match self.groupRevocations.lookup offer.token with
        | some group => (.ok ⟨.tombstoned, group.revision⟩, self)
        | none => self.applyVerifiedOffer crypto signed viaPeer nowMs alloc

inductive AttachmentLeaseDisposition where
  | inserted
  | duplicate
  | conflict
  | stale
  | superseded
  deriving DecidableEq

inductive AttachmentLeaseError where
  | verify (e : VerifyError)
  | lifetime (e : LifetimeError)
  | attachmentLeaseFull
  | invalidAttachmentLease
  | outOfMemory
  deriving DecidableEq

/-- The lifetime of a lease. An expired one is still taken as a replay floor. -/
def validateLeaseForStore (lease : AttachmentLease) (nowMs : Int64) :
    Except AttachmentLeaseError Unit :=
  if !validateAttachmentLeaseShape lease then .error .invalidAttachmentLease
  else
    match validateLifetime lease.issuedAtMs lease.expiresAtMs nowMs
      self.cfg.maxAttachmentLeaseLifetimeMs
        self.cfg.maxFutureSkewMs with
    | .error .invalidLifetime => .error (.lifetime .invalidLifetime)
    | lifetime =>
      if lifetime = .error .expired ∧
          attachmentLeaseReplayUntil lease self.cfg.maxAttachmentLeaseLifetimeMs < nowMs then
        .error (.lifetime .expired)
      else if !revisionWithin lease.revision nowMs self.cfg.maxFutureSkewMs then
        .error (.lifetime .invalidLifetime)
      else if (lease.revision.epoch.toNat : Int) < lease.issuedAtMs.toInt then
        .error (.lifetime .invalidLifetime)
      else .ok ()

def installAttachmentLease (signed : SignedAttachmentLease) (replacing : Bool) (alloc : Allocator) :
    Outcome AttachmentLeaseError Unit :=
  if !alloc 0 ∨ (!replacing ∧ !alloc 1) then (.error .outOfMemory, self)
  else
    (.ok (), { self with attachmentLeases := self.attachmentLeases.insert signed.lease.key {
      wire := signed, conflicted := false, conflictWire := none } })

/-- Another transcript of the revision that is held. -/
def applyLeaseWitness (signed : SignedAttachmentLease) (current : AttachmentLeaseEntry)
    (alloc : Allocator) :
    Outcome AttachmentLeaseError AttachmentLeaseDisposition :=
  let digest := digestBytes crypto signed.transcript
  let put (entry : AttachmentLeaseEntry) : Store :=
    { self with attachmentLeases := self.attachmentLeases.insert signed.lease.key entry }
  if current.digest crypto = digest then (.ok .duplicate, self)
  else
    match current.conflictWire with
    | some witness =>
      if digestBytes crypto witness.transcript = digest then (.ok .duplicate, self)
        else (.ok .conflict, self)
    | none =>
      if !alloc 0 then (.error .outOfMemory, put { current with conflicted := true })
      else (.ok .conflict, put { current with conflicted := true, conflictWire := some signed })

def applySignedAttachmentLease (signed : SignedAttachmentLease) (nowMs : Int64)
    (alloc : Allocator) :
    Outcome AttachmentLeaseError AttachmentLeaseDisposition :=
  let lease := signed.lease
  match verifyAttachmentLease crypto signed with
  | .error e => (.error (.verify e), self)
  | .ok () =>
    if self.isGroupRevoked lease.token then (.ok .stale, self)
    else
      match self.validateLeaseForStore lease nowMs with
      | .error e => (.error e, self)
      | .ok () =>
        match self.attachmentLeases.lookup lease.key with
        | some current =>
          match lease.revision.compare current.revision with
          | .lt => (.ok .stale, self)
          | .eq => self.applyLeaseWitness crypto signed current alloc
          | .gt =>
            let outcome := self.installAttachmentLease signed true alloc
            (outcome.1.map fun _ => .superseded, outcome.2)
        | none =>
          if self.cfg.maxAttachmentLeases ≤ HashMap.count self.attachmentLeases then
            (.error .attachmentLeaseFull, self)
          else
            let outcome := self.installAttachmentLease signed false alloc
            (outcome.1.map fun _ => .inserted, outcome.2)

def positiveLeaseCoversUnexpiredOffer (key : OriginKey) (lease : AttachmentLeaseEntry)
    (nowMs : Int64) : Bool :=
  if lease.conflicted || self.isQuarantined key.token then false
  else
    match self.getOrigin key with
    | none => false
    | some offer =>
      if offer.quarantineUntilMs.isSome ∨ offer.expiresAtMs < nowMs then false
      else if lease.revision.compare offer.revision ≠ .gt then false
      else offer.wire.signer == lease.signer

def hasAttachedOriginOtherThan (token : Token) (excludedOrigin : NodeId) (nowMs : Int64) : Bool :=
  if self.isQuarantined token then false
  else self.attachmentLeases.entries.any fun slot =>
    tokenEql slot.1.token token && !(slot.1.originNode == excludedOrigin) &&
      self.positiveLeaseCoversUnexpiredOffer slot.1 slot.2 nowMs

def nonNegativeAge (nowMs thenMs : Int64) : Nat := (nowMs.toInt - thenMs.toInt).toNat

def sweepQuarantines (nowMs : Int64) : Store :=
  { self with quarantines :=
    HashMap.keep (fun _ q => !decide (q.expiresAtMs < nowMs)) self.quarantines }

/-- The keys of the entries past their window. -/
def expiredEntries (nowMs : Int64) : List OriginKey :=
  (self.entries.entries.filter fun slot => decide (slot.2.expiresAtMs < nowMs)).map (·.1)

def sweepEntries (nowMs : Int64) : Store :=
  (self.expiredEntries nowMs).foldl
    (fun self key => (self.dropEntry crypto key).removeRoutesForOrigin key) self

def sweepLeases (nowMs : Int64) : Store :=
  { self with attachmentLeases := HashMap.keep (fun key lease =>
      !(decide (lease.replayUntilMs self.cfg < nowMs) &&
        !self.positiveLeaseCoversUnexpiredOffer key lease nowMs)) self.attachmentLeases }

def sweepRoutes (nowMs : Int64) : Store :=
  { self with routes := HashMap.keep (fun key route =>
      let invalidRevision := match self.getOrigin ⟨key.token, route.revision.originNode⟩ with
        | some entry => !entry.revision.eql route.revision
        | none => true
      !(invalidRevision ||
        decide (self.cfg.routeTtlMs ≤ nonNegativeAge nowMs route.lastSeenMs))) self.routes }

/-- The keys of the tombstones past their horizon. -/
def matureTombstones (nowMs : Int64) : List OriginKey :=
  (self.tombstones.entries.filter fun slot => !tombstoneRetained nowMs slot.2.retainUntilMs).map
    (·.1)

def sweepTombstones (nowMs : Int64) : Store := self.dropTombstones (self.matureTombstones nowMs)

/-- A deny marker once its time is past. -/
def clearMarker (nowMs : Int64) (marker : Option Int64) : Option Int64 :=
  marker.filter fun untilMs => !decide (untilMs < nowMs)

def clearEntry (nowMs : Int64) (e : Entry) : Entry :=
  { e with quarantineUntilMs := clearMarker nowMs e.quarantineUntilMs }

def clearTombstone (nowMs : Int64) (t : Tombstone) : Tombstone :=
  { t with quarantineUntilMs := clearMarker nowMs t.quarantineUntilMs }

def sweepMarkers (nowMs : Int64) : Store :=
  { self with
    entries := HashMap.mapValues (fun _ => clearEntry nowMs) self.entries
    tombstones := HashMap.mapValues (fun _ => clearTombstone nowMs) self.tombstones }

def sweep (nowMs : Int64) : Store :=
  let self := self.sweepQuarantines nowMs
  let self := self.sweepEntries crypto nowMs
  let self := self.sweepLeases nowMs
  let self := self.sweepRoutes nowMs
  let self := self.sweepTombstones nowMs
  self.sweepMarkers nowMs

def removePeer (peer : NodeId) : Store :=
  { self with routes := HashMap.keep (fun k _ => !(k.nextHop == peer)) self.routes }

end Store

end OnyxServer.SessionReplica
