import OnyxServer.Lib.HashMap
import OnyxServer.Lib.Search
import OnyxServer.SessionReplica.Wire

/-!
# Retention of revocations

`session_replica_revocation.zig`: how long a tombstone blocks its authority, and when a
table of entries and tombstones still has room. The policy owns no state.
-/
namespace OnyxServer.SessionReplica

section

open Lib

structure RetentionConfig where
  maxEntries : Nat
  maxTombstones : Nat
  tombstoneTtlMs : Nat
  maxOfferLifetimeMs : Nat
  maxFutureSkewMs : Nat
  deriving DecidableEq

/-- `a +| b` of two counts. -/
def saturatingAdd (a b : Nat) : Nat := min (a + b) (usizeLimit - 1)

def combinedSlots (caps : RetentionConfig) : Nat := saturatingAdd caps.maxEntries caps.maxTombstones

def tombstoneRetainUntil (removedAtMs revokeExpiresAtMs : Int64)
    (supersededExpiresAtMs : Option Int64) (ttlMs : Nat) : Int64 :=
  let best := max (removedAtMs.toInt + ttlMs) revokeExpiresAtMs.toInt
  let best := match supersededExpiresAtMs with
    | some superseded => max best superseded.toInt
    | none => best
  saturateToI64 best

def acceptedAuthorityHorizon (removedAtMs : Int64) (caps : RetentionConfig) : Int64 :=
  saturateToI64 (removedAtMs.toInt + caps.maxOfferLifetimeMs + caps.maxFutureSkewMs)

def tombstoneRetained (nowMs retainUntilMs : Int64) : Bool := decide (nowMs ≤ retainUntilMs)

variable {removed expires superseded a : Int64} {previous : Option Int64} {ttl : Nat}

theorem le_retainUntil_superseded :
    superseded ≤ tombstoneRetainUntil removed expires (some superseded) ttl :=
  le_saturateToI64 (le_max_right _ _)

theorem le_retainUntil_ttl (h : a.toInt ≤ removed.toInt + ttl) :
    a ≤ tombstoneRetainUntil removed expires previous ttl := by
  refine le_saturateToI64 (h.trans ?_)
  cases previous with
  | none => exact le_max_left _ _
  | some s => exact (le_max_left _ _).trans (le_max_left _ _)

/-- The horizon is one of the three it is the latest of, unless it is clamped. -/
theorem retainUntil_le {bound : Int} (hlow : minI64 ≤ bound) (httl : removed.toInt + ttl ≤ bound)
    (hexpires : expires.toInt ≤ bound) (hprevious : ∀ s ∈ previous, s.toInt ≤ bound) :
    (tombstoneRetainUntil removed expires previous ttl).toInt ≤ bound := by
  refine toInt_saturateToI64_le hlow ?_
  cases previous with
  | none => exact max_le httl hexpires
  | some s => exact max_le (max_le httl hexpires) (hprevious s rfl)

structure TombstoneAdmission where
  entries : Nat
  tombstones : Nat
  softCappedTombstones : Nat
  replacing : Bool
  convertingLiveEntry : Bool

/-- Whether the table takes the tombstone; otherwise the source answers `TombstoneFull`. -/
def admitTombstone (state : TombstoneAdmission) (caps : RetentionConfig) : Bool :=
  if state.replacing then true
  else
    let combinedCap := combinedSlots caps
    if state.convertingLiveEntry then
      !(decide (state.entries = 0) ||
        decide (combinedCap < saturatingAdd state.entries state.tombstones))
    else if caps.maxTombstones ≤ state.softCappedTombstones then false
    else !decide (combinedCap ≤ saturatingAdd state.entries state.tombstones)

structure EntryAdmission where
  entries : Nat
  tombstones : Nat
  replacingEntry : Bool
  convertingTombstone : Bool

/-- Whether the table takes the entry; otherwise the source answers `EntryFull`. -/
def admitNewEntry (state : EntryAdmission) (caps : RetentionConfig) : Bool :=
  if state.replacingEntry then true
  else if caps.maxEntries ≤ state.entries then false
  else if state.convertingTombstone then true
  else !decide (combinedSlots caps ≤ saturatingAdd state.entries state.tombstones)

variable {caps : RetentionConfig}

theorem admitTombstone_new {state : TombstoneAdmission}
    (hnew : state.replacing = false) (hlive : state.convertingLiveEntry = false)
    (h : admitTombstone state caps = true) : state.softCappedTombstones < caps.maxTombstones ∧
      state.entries + state.tombstones < caps.maxEntries + caps.maxTombstones := by
  simp only [admitTombstone, hnew, hlive, Bool.false_eq_true, if_false, combinedSlots,
    saturatingAdd] at h
  split_ifs at h
  · rw [Bool.not_eq_true'] at h
    have hroom := of_decide_eq_false h
    omega

/-- A live entry always finds the slot it frees. -/
theorem admitTombstone_live {state : TombstoneAdmission}
    (hlive : state.convertingLiveEntry = true) (hpos : state.entries ≠ 0)
    (hroom : state.entries + state.tombstones ≤ caps.maxEntries + caps.maxTombstones) :
    admitTombstone state caps = true := by
  have hcap : ¬ combinedSlots caps < saturatingAdd state.entries state.tombstones := by
    simp only [combinedSlots, saturatingAdd]
    omega
  by_cases hreplacing : state.replacing = true
  · rw [admitTombstone, if_pos hreplacing]
  · rw [admitTombstone, if_neg hreplacing, if_pos hlive, decide_eq_false hpos, decide_eq_false hcap]
    rfl

theorem admitNewEntry_new {state : EntryAdmission}
    (hnew : state.replacingEntry = false) (h : admitNewEntry state caps = true) :
    state.entries < caps.maxEntries ∧ (state.convertingTombstone = false →
      state.entries + state.tombstones < caps.maxEntries + caps.maxTombstones) := by
  simp only [admitNewEntry, hnew, Bool.false_eq_true, if_false, combinedSlots, saturatingAdd] at h
  split at h
  · cases h
  rename_i hroom
  refine ⟨by omega, fun hconverting => ?_⟩
  rw [hconverting, if_neg Bool.false_ne_true, Bool.not_eq_true'] at h
  have hcombined := of_decide_eq_false h
  omega

end

/-!
## The store of session authority

Per token and origin either a live entry or a tombstone, next to quarantines, group fences,
attachment leases, provenance routes and the account index. What the source copies out of a
wire into a row is read from the wire here.
-/
section

open Lib Text

structure Config where
  maxEntries : Nat
  maxAttachmentLeases : Nat
  maxRoutes : Nat
  maxTombstones : Nat
  maxQuarantines : Nat
  maxGroupRevocations : Nat
  maxOfferLifetimeMs : Nat
  maxAttachmentLeaseLifetimeMs : Nat
  maxFutureSkewMs : Nat
  routeTtlMs : Nat
  tombstoneTtlMs : Nat
  maxAccountBytes : Nat
  maxNickBytes : Nat
  maxSnapshotBytes : Nat
  deriving DecidableEq

def Config.retention (self : Config) : RetentionConfig where
  maxEntries := self.maxEntries
  maxTombstones := self.maxTombstones
  tombstoneTtlMs := self.tombstoneTtlMs
  maxOfferLifetimeMs := self.maxOfferLifetimeMs
  maxFutureSkewMs := self.maxFutureSkewMs

/-! ## Rows -/

structure OriginKey where
  token : Token
  originNode : NodeId
  deriving DecidableEq

def Offer.key (offer : Offer) : OriginKey := ⟨offer.token, offer.revision.originNode⟩
def AttachmentLease.key (lease : AttachmentLease) : OriginKey :=
  ⟨lease.token, lease.revision.originNode⟩

structure Entry where
  wire : SignedOffer
  updatedAtMs : Int64
  ingressPeer : Option NodeId
  quarantineUntilMs : Option Int64
  authorityIssuedHwmMs : Int64
  authorityExpiresHwmMs : Int64

namespace Entry

def account (self : Entry) : Bytes := self.wire.offer.account
def nick (self : Entry) : Bytes := self.wire.offer.nick
def resumeEligible (self : Entry) : Bool := self.wire.offer.allowsResume
def revision (self : Entry) : Revision := self.wire.offer.revision
def issuedAtMs (self : Entry) : Int64 := self.wire.offer.issuedAtMs
def expiresAtMs (self : Entry) : Int64 := self.wire.offer.expiresAtMs
def digest (crypto : Crypto) (self : Entry) : Digest := digestBytes crypto self.wire.transcript

def authorityIssuedHighWater (self : Entry) : Int64 := max self.issuedAtMs self.authorityIssuedHwmMs
def authorityExpiresHighWater (self : Entry) : Int64 :=
  max self.expiresAtMs self.authorityExpiresHwmMs

end Entry

structure Tombstone where
  wire : SignedOffer
  removedAtMs : Int64
  retainUntilMs : Int64
  identityDigest : Option Digest
  quarantineUntilMs : Option Int64
  softCapped : Bool

namespace Tombstone

def revision (self : Tombstone) : Revision := self.wire.offer.revision
def offerExpiresAtMs (self : Tombstone) : Int64 := self.wire.offer.expiresAtMs
def digest (crypto : Crypto) (self : Tombstone) : Digest := digestBytes crypto self.wire.transcript

end Tombstone

structure Quarantine where
  firstWire : SignedOffer
  secondWire : SignedOffer
  expiresAtMs : Int64
  detectedAtMs : Int64

structure GroupRevocation where
  wire : SignedOffer

namespace GroupRevocation

def account (self : GroupRevocation) : Bytes := self.wire.offer.account
def revision (self : GroupRevocation) : Revision := self.wire.offer.revision

end GroupRevocation

def attachmentLeaseReplayUntil (lease : AttachmentLease) (maxLifetimeMs : Nat) : Int64 :=
  let revisionHorizon : Int := lease.revision.epoch.toNat + maxLifetimeMs
  let boundedHorizon := if maxI64 < revisionHorizon then Int64.maxValue
    else Int64.ofInt revisionHorizon
  max lease.expiresAtMs boundedHorizon

structure AttachmentLeaseEntry where
  wire : SignedAttachmentLease
  conflicted : Bool
  conflictWire : Option SignedAttachmentLease

namespace AttachmentLeaseEntry

def revision (self : AttachmentLeaseEntry) : Revision := self.wire.lease.revision
def signer (self : AttachmentLeaseEntry) : PublicKey := self.wire.signer
def digest (crypto : Crypto) (self : AttachmentLeaseEntry) : Digest :=
    digestBytes crypto self.wire.transcript
def replayUntilMs (self : AttachmentLeaseEntry) (cfg : Config) : Int64 :=
  attachmentLeaseReplayUntil self.wire.lease cfg.maxAttachmentLeaseLifetimeMs

end AttachmentLeaseEntry

structure RouteKey where
  token : Token
  destination : NodeId
  nextHop : NodeId
  deriving DecidableEq

structure RouteValue where
  revision : Revision
  lastSeenMs : Int64
  deriving DecidableEq

structure Store where
  cfg : Config
  entries : HashMap OriginKey Entry
  attachmentLeases : HashMap OriginKey AttachmentLeaseEntry
  routes : HashMap RouteKey RouteValue
  tombstones : HashMap OriginKey Tombstone
  softCappedTombstones : Nat
  quarantines : HashMap Token Quarantine
  groupRevocations : HashMap Token GroupRevocation
  accountIndex : HashMap Digest (List OriginKey)
  /-- An `unreachable` of the source was reached. -/
  faulted : Bool

namespace Store

def initWithConfig (cfg : Config) : Store where
  cfg := cfg
  entries := ∅
  attachmentLeases := ∅
  routes := ∅
  tombstones := ∅
  softCappedTombstones := 0
  quarantines := ∅
  groupRevocations := ∅
  accountIndex := ∅
  faulted := false

variable (crypto : Crypto) (self : Store)

/-- Room for a key in the bucket of its account; whether the key is new. -/
def reserveAccountOrigin (account : Bytes) (key : OriginKey) (alloc : Allocator) :
    Option (Bool × Store) :=
  let digest := accountDigest crypto account
  match self.accountIndex.lookup digest with
  | some bucket =>
    if key ∈ bucket then some (false, self)
    else if !alloc 0 then none
    else some (true, self)
  | none =>
    if !alloc 0 ∨ !alloc 1 then none
    else some (true, { self with accountIndex := self.accountIndex.insert digest [] })

/-- `origins.appendAssumeCapacity` on a bucket that was reserved. -/
def appendAccountOrigin (account : Bytes) (key : OriginKey) : Store :=
  let digest := accountDigest crypto account
  match self.accountIndex.lookup digest with
  | some bucket => { self with accountIndex := self.accountIndex.insert digest (bucket ++ [key]) }
  | none => { self with faulted := true }

def removeAccountOrigin (account : Bytes) (key : OriginKey) : Store :=
  let digest := accountDigest crypto account
  match self.accountIndex.lookup digest with
  | none => { self with faulted := true }
  | some bucket =>
    match bucket.idxOf? key with
    | none => { self with faulted := true }
    | some i =>
      let rest := swapRemove bucket i
      if rest.length = 0 then { self with accountIndex := self.accountIndex.erase digest }
      else { self with accountIndex := self.accountIndex.insert digest rest }

def hasFullQuarantine (token : Token) : Bool := (self.quarantines.lookup token).isSome

def hasDenyMarker (token : Token) : Bool :=
  (self.entries.entries.any fun slot => slot.2.quarantineUntilMs.isSome &&
    tokenEql slot.1.token token) ||
    self.tombstones.entries.any fun slot => slot.2.quarantineUntilMs.isSome &&
      tokenEql slot.1.token token

def isQuarantined (token : Token) : Bool := self.hasFullQuarantine token || self.hasDenyMarker token

def isGroupRevoked (token : Token) : Bool := (self.groupRevocations.lookup token).isSome

def getOriginInventory (key : OriginKey) : Option Entry :=
  if self.isGroupRevoked key.token || self.isQuarantined key.token then none
    else self.entries.lookup key

def getOrigin (key : OriginKey) : Option Entry :=
  (self.getOriginInventory key).filter Entry.resumeEligible

/-- The account the token is bound to, as the first row that names one has it. -/
def identityDigestForToken (token : Token) : Option Digest :=
  match self.entries.entries.find? fun slot => tokenEql slot.1.token token with
  | some slot => some (accountDigest crypto slot.2.account)
  | none => self.tombstones.entries.findSome? fun slot =>
      if slot.1.token = token then slot.2.identityDigest else none

structure IdentityConflictEvidence where
  wire : Option SignedOffer
  expiresAtMs : Int64

def findIdentityConflict (token : Token) (account : Bytes) (nowMs : Int64) :
    Option IdentityConflictEvidence :=
  match self.entries.entries.find? fun slot => tokenEql slot.1.token token &&
      !decide (slot.2.expiresAtMs < nowMs) && !eqlIgnoreCase slot.2.account account with
  | some slot => some { wire := some slot.2.wire, expiresAtMs := slot.2.expiresAtMs }
  | none =>
    match self.tombstones.entries.find? fun slot => tokenEql slot.1.token token &&
        !decide (slot.2.offerExpiresAtMs < nowMs) &&
        slot.2.identityDigest.any (· != accountDigest crypto account) with
    | some slot => some { wire := none, expiresAtMs := slot.2.offerExpiresAtMs }
    | none => none

def removeRoutesForOrigin (key : OriginKey) : Store :=
  { self with routes := HashMap.keep (fun k v =>
      !(v.revision.originNode == key.originNode && tokenEql k.token key.token)) self.routes }

def removeRoutesForToken (token : Token) : Store :=
  { self with routes := HashMap.keep (fun k _ => !(tokenEql k.token token)) self.routes }

def routeCountForOrigin (key : OriginKey) : Nat :=
  self.routes.entries.countP fun slot => slot.2.revision.originNode == key.originNode &&
    tokenEql slot.1.token key.token

/-- An entry leaves the table and the index. -/
def dropEntry (key : OriginKey) : Store :=
  match self.entries.lookup key with
  | some removed =>
      removeAccountOrigin crypto { self with entries := self.entries.erase key } removed.account key
  | none => self

def dropTombstone (key : OriginKey) : Store :=
  match self.tombstones.lookup key with
  | some removed =>
    { self with
      tombstones := self.tombstones.erase key
      softCappedTombstones := if removed.softCapped then self.softCappedTombstones - 1
      else self.softCappedTombstones }
  | none => self

def dropEntries (keys : List OriginKey) : Store := keys.foldl (dropEntry crypto) self

def dropTombstones (keys : List OriginKey) : Store := keys.foldl dropTombstone self

/-- The keys of a token. -/
def ofToken {ν : Type} (token : Token) (rows : HashMap OriginKey ν) : List OriginKey :=
  rows.keys.filter fun k => tokenEql k.token token

def removeStateForToken (token : Token) : Store :=
  let self := dropEntries crypto self (ofToken token self.entries)
  let self := self.dropTombstones (ofToken token self.tombstones)
  self.removeRoutesForToken token

def removeLeasesForToken (token : Token) : Store :=
  { self with attachmentLeases :=
    HashMap.keep (fun k _ => !(tokenEql k.token token)) self.attachmentLeases }

def denyEntry (token : Token) (untilMs : Int64) (k : OriginKey) (e : Entry) : Entry :=
  if tokenEql k.token token then { e with quarantineUntilMs := some untilMs } else e

def denyTombstone (token : Token) (untilMs : Int64) (k : OriginKey) (t : Tombstone) : Tombstone :=
  if tokenEql k.token token then { t with quarantineUntilMs := some untilMs } else t

def markTokenDenied (token : Token) (untilMs : Int64) : Store :=
  let self := { self with
    entries := HashMap.mapValues (denyEntry token untilMs) self.entries
    tombstones := HashMap.mapValues (denyTombstone token untilMs) self.tombstones }
  self.removeRoutesForToken token

end Store

end

end OnyxServer.SessionReplica
