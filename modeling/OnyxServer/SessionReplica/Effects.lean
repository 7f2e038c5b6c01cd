import OnyxServer.SessionReplica.Frames

/-!
# What a call can do

Each call read off once: every answer it can give, the guards under which it gives it, and
the store it leaves. Later proofs split on these cases and never unfold a call.
-/
namespace OnyxServer.SessionReplica

open Lib Text Option

/-- An OFFER, as opposed to a REVOKE or a group fence. -/
def Offer.isOffer (offer : Offer) : Prop :=
  offer.operation = .upsert ∨ offer.operation = .inventoryUpsert

/-- The dispositions of a fact that was installed. -/
def ApplyDisposition.installed : ApplyDisposition → Bool
  | .inserted | .superseded | .conflictReplaced | .tombstoned => true
  | _ => false

namespace Store

variable {crypto : Crypto} {s t : Store} {key : OriginKey} {token : Token} {signed : SignedOffer}
variable {viaPeer : NodeId} {nowMs : Int64} {alloc : Allocator}

/-- A fact that verifies, is within its bounds at `nowMs`, and whose token has no fence. -/
structure Admitted (crypto : Crypto) (s : Store) (signed : SignedOffer) (nowMs : Int64) : Prop where
  verified : verifyOffer crypto signed = .ok ()
  valid : s.validateOfferForStore signed.offer nowMs = .ok ()
  unfenced : s.groupRevocations.lookup signed.offer.token = none
  single : signed.offer.operation ≠ .groupRevoke

/-- A fact that may be installed: no quarantine, no deny marker, no row that outranks it. -/
structure Installs (crypto : Crypto) (s : Store) (signed : SignedOffer) (nowMs : Int64) : Prop
    extends Admitted crypto s signed nowMs where
  unquarantined : s.hasFullQuarantine signed.offer.token = false
  unmarked : s.hasDenyMarker signed.offer.token = false
  agreed : signed.offer.isOffer →
    s.findIdentityConflict crypto signed.offer.token signed.offer.account nowMs = none
  outranks : ∀ current digest, s.standing crypto signed.offer.key = some (current, digest) →
    current < signed.offer.revision ∨
      current = signed.offer.revision ∧ digestBytes crypto signed.transcript < digest

/-- What stands in the way of a group fence. -/
def quarrels (crypto : Crypto) (s : Store) (offer : Offer) : Prop :=
  s.accountMismatch crypto offer.token offer.account = true ∨
    s.hasFullQuarantine offer.token = true ∨
    ∃ old, s.groupRevocations.lookup offer.token = some old ∧
      eqlIgnoreCase old.account offer.account = false

/-- The store with the OFFER in the row of its origin. -/
def offered (crypto : Crypto) (s : Store) (signed : SignedOffer) (viaPeer : NodeId) (nowMs : Int64)
    (added : Bool) (reserved : Store) (routes : HashMap RouteKey RouteValue) : Store :=
  { s with
    entries := s.entries.insert signed.offer.key (s.offeredEntry signed viaPeer nowMs)
    tombstones := s.tombstones.erase signed.offer.key
    softCappedTombstones := s.softAfter signed.offer.key
    routes := routes
    accountIndex :=
      (reserved.reindex crypto added signed.offer.account signed.offer.key).accountIndex
    faulted := (reserved.reindex crypto added signed.offer.account signed.offer.key).faulted }

/-- The store with the REVOKE in the row of its origin. -/
def revoked (crypto : Crypto) (s : Store) (signed : SignedOffer) (nowMs : Int64)
    (routes : HashMap RouteKey RouteValue) : Store :=
  { s with
    entries := s.entries.erase signed.offer.key
    tombstones := s.tombstones.insert signed.offer.key (s.revokedTombstone crypto signed nowMs)
    softCappedTombstones := s.softRevoked signed.offer.key
    routes := routes
    accountIndex := (s.dropEntry crypto signed.offer.key).accountIndex
    faulted := (s.dropEntry crypto signed.offer.key).faulted }

/-- The quarantine of two OFFERs of one token. -/
def evidence (crypto : Crypto) (incoming existing : SignedOffer) (untilMs nowMs : Int64) :
    Quarantine :=
  let existingFirst :=
    decide (digestBytes crypto existing.transcript < digestBytes crypto incoming.transcript)
  { firstWire := if existingFirst then existing else incoming
    secondWire := if existingFirst then incoming else existing
    expiresAtMs := untilMs
    detectedAtMs := nowMs }

/-- The store with the token's rows gone and the quarantine in their place. -/
def isolated (crypto : Crypto) (s : Store) (incoming existing : SignedOffer)
    (untilMs nowMs : Int64) : Store :=
  { s.removeStateForToken crypto incoming.offer.token with
    quarantines :=
      s.quarantines.insert incoming.offer.token (evidence crypto incoming existing untilMs nowMs) }

/-- The row of an origin is replaced: by an entry, by a tombstone, or by nothing. -/
structure Rewritten (s t : Store) (key : OriginKey) (entry : Option Entry)
    (tombstone : Option Tombstone) : Prop where
  cfg : t.cfg = s.cfg
  entries : ∀ k, t.entries.lookup k = if k = key then entry else s.entries.lookup k
  tombstones : ∀ k, t.tombstones.lookup k = if k = key then tombstone else s.tombstones.lookup k
  quarantines : t.quarantines = s.quarantines
  leases : t.attachmentLeases = s.attachmentLeases
  groups : t.groupRevocations = s.groupRevocations

section

variable {reserved : Store} {added : Bool} {routes : HashMap RouteKey RouteValue} {entry : Entry}

theorem Rewritten.offered :
    Rewritten s (s.offered crypto signed viaPeer nowMs added reserved routes) signed.offer.key
    (some (s.offeredEntry signed viaPeer nowMs)) none :=
  ⟨rfl, fun k => HashMap.lookup_insert_eq _ _ k _, HashMap.lookup_erase_eq _ _, rfl, rfl, rfl⟩

theorem Rewritten.revoked : Rewritten s (s.revoked crypto signed nowMs routes) signed.offer.key none
    (some (s.revokedTombstone crypto signed nowMs)) :=
  ⟨rfl, HashMap.lookup_erase_eq _ _, fun k => HashMap.lookup_insert_eq _ _ k _, rfl, rfl, rfl⟩

theorem Rewritten.refreshed (hnone : s.tombstones.lookup key = none) :
    Rewritten s { s with routes := routes, entries := s.entries.insert key entry } key
      (some entry) none := by
  refine ⟨rfl, fun k => HashMap.lookup_insert_eq _ _ k _, fun k => ?_, rfl, rfl, rfl⟩
  split
  · next hk => rw [hk, hnone]
  · rfl

end

/-- What an OFFER, a REVOKE or a group revoke does. -/
inductive OfferEffect (crypto : Crypto) (s : Store) (signed : SignedOffer) (viaPeer : NodeId)
    (nowMs : Int64) :
    Except ApplyError ApplyResult → Store → Prop
  | refused (e : ApplyError) (routes : HashMap RouteKey RouteValue)
      (index : HashMap Digest (List OriginKey))
      (hlisted : ∀ d, listed index d = listed s.accountIndex d)
      (hfull : e = .tombstoneFull → s.admitsTombstone signed.offer.key = false)
      (why : e.pressure = true ∨ verifyOffer crypto signed ≠ .ok () ∨
        s.validateOfferForStore signed.offer nowMs ≠ .ok () ∨
        signed.offer.operation = .groupRevoke ∧ quarrels crypto s signed.offer) :
      OfferEffect crypto s signed viaPeer nowMs (.error e)
        { s with routes := routes, accountIndex := index }
  | fenced (group : GroupRevocation)
      (hgroup : s.groupRevocations.lookup signed.offer.token = some group)
      (hsingle : signed.offer.operation ≠ .groupRevoke) :
      OfferEffect crypto s signed viaPeer nowMs (.ok ⟨.tombstoned, group.revision⟩) s
  | barred (hadmitted : Admitted crypto s signed nowMs)
      (hbarred : s.isQuarantined signed.offer.token = true) :
      OfferEffect crypto s signed viaPeer nowMs (.ok ⟨.quarantined, signed.offer.revision⟩) s
  | denied (conflict : IdentityConflictEvidence) (answer : Except ApplyError ApplyResult)
      (hadmitted : Admitted crypto s signed nowMs) (hoffer : signed.offer.isOffer)
      (hconflict : s.findIdentityConflict crypto signed.offer.token signed.offer.account nowMs =
        some conflict)
      (hfree : s.hasFullQuarantine signed.offer.token = false)
      (hanswer : answer = .ok ⟨.quarantined, signed.offer.revision⟩ ∨ ∃ e, e.pressure = true ∧
        e ≠ .tombstoneFull ∧ answer = .error e) :
      OfferEffect crypto s signed viaPeer nowMs answer
        (s.markTokenDenied signed.offer.token (min conflict.expiresAtMs signed.offer.expiresAtMs))
  | isolated (conflict : IdentityConflictEvidence) (existing : SignedOffer)
      (hadmitted : Admitted crypto s signed nowMs) (hoffer : signed.offer.isOffer)
      (hconflict : s.findIdentityConflict crypto signed.offer.token signed.offer.account nowMs =
        some conflict)
      (hwire : conflict.wire = some existing)
        (hfree : s.hasFullQuarantine signed.offer.token = false)
      (hroom : HashMap.count s.quarantines < s.cfg.maxQuarantines) :
      OfferEffect crypto s signed viaPeer nowMs (.ok ⟨.quarantined, signed.offer.revision⟩)
        (s.isolated crypto signed existing
          (min conflict.expiresAtMs signed.offer.expiresAtMs) nowMs)
  | outranked (current : Revision) (digest : Digest) (disposition : ApplyDisposition)
      (routes : HashMap RouteKey RouteValue) (hadmitted : Admitted crypto s signed nowMs)
      (hstanding : s.standing crypto signed.offer.key = some (current, digest))
      (hrank : signed.offer.revision < current ∨
        signed.offer.revision = current ∧ digest ≤ digestBytes crypto signed.transcript)
      (hdisposition : disposition.installed = false) :
      OfferEffect crypto s signed viaPeer nowMs (.ok ⟨disposition, current⟩)
        { s with routes := routes }
  | refreshed (entry : Entry) (routes : HashMap RouteKey RouteValue)
      (hadmitted : Admitted crypto s signed nowMs)
      (hentry : s.entries.lookup signed.offer.key = some entry) (hrevision : entry.revision =
        signed.offer.revision)
      (hdigest : entry.digest crypto = digestBytes crypto signed.transcript)
      (hoffer : signed.offer.operation ≠ .remove) :
      OfferEffect crypto s signed viaPeer nowMs (.ok ⟨.duplicate, signed.offer.revision⟩) { s with
        routes := routes
        entries := s.entries.insert signed.offer.key { entry with updatedAtMs := nowMs } }
  | offered (disposition : ApplyDisposition) (current : Revision) (added : Bool) (reserved : Store)
      (routes : HashMap RouteKey RouteValue) (room : Allocator)
        (hinstalls : Installs crypto s signed nowMs)
      (hoffer : signed.offer.isOffer) (hdisposition : disposition.installed = true)
      (hadmits : s.admitsEntry signed.offer.key = true)
      (hreserve : s.reserveAccountOrigin crypto signed.offer.account signed.offer.key room =
        some (added, reserved)) :
      OfferEffect crypto s signed viaPeer nowMs (.ok ⟨disposition, current⟩)
        (s.offered crypto signed viaPeer nowMs added reserved routes)
  | revoked (disposition : ApplyDisposition) (current : Revision)
      (routes : HashMap RouteKey RouteValue)
      (hinstalls : Installs crypto s signed nowMs) (hremove : signed.offer.operation = .remove)
      (hdisposition : disposition.installed = true)
        (hadmits : s.admitsTombstone signed.offer.key = true) :
      OfferEffect crypto s signed viaPeer nowMs (.ok ⟨disposition, current⟩)
        (s.revoked crypto signed nowMs routes)
  | groupKnown (old : GroupRevocation)
      (hold : s.groupRevocations.lookup signed.offer.token = some old)
      (hgroup : signed.offer.operation = .groupRevoke) :
      OfferEffect crypto s signed viaPeer nowMs (.ok ⟨.duplicate, old.revision⟩) s
  | groupFenced (added : Bool) (reserved : Store) (room : Allocator)
      (hgroup : signed.offer.operation = .groupRevoke)
        (hverified : verifyOffer crypto signed = .ok ())
      (hvalid : s.validateOfferForStore signed.offer nowMs = .ok ())
      (hnew : s.groupRevocations.lookup signed.offer.token = none)
      (hagreed : s.accountMismatch crypto signed.offer.token signed.offer.account = false)
      (hfree : s.hasFullQuarantine signed.offer.token = false)
      (hroom : HashMap.count s.groupRevocations < s.cfg.maxGroupRevocations)
      (hreserve : s.reserveAccountOrigin crypto signed.offer.account ⟨signed.offer.token, 0⟩ room =
        some (added, reserved)) :
      OfferEffect crypto s signed viaPeer nowMs (.ok ⟨.inserted, signed.offer.revision⟩)
        (reserved.commitGroupRevoke crypto ⟨signed.offer.token, some signed⟩).2

theorem validateOfferForStore_error (s : Store) (offer : Offer) (nowMs : Int64) :
    s.validateOfferForStore offer nowMs ≠ .error .tombstoneFull := by
  unfold validateOfferForStore
  split
  · nofun
  split
  · nofun
  split
  · nofun
  · split
    · nofun
    · split <;> nofun
  · split <;> nofun

theorem recordRoute_frame (s : Store) (token : Token) (destination nextHop : NodeId)
    (revision : Revision) (nowMs : Int64) (alloc : Allocator) :
    ∃ answer routes, s.recordRoute token destination nextHop revision nowMs alloc =
      (answer, { s with routes := routes }) ∧
      ∀ e, answer = .error e → e.pressure = true ∧ e ≠ .tombstoneFull := by
  unfold recordRoute
  split
  · exact ⟨_, _, rfl, nofun⟩
  split
  · exact ⟨_, _, rfl, nofun⟩
  simp only
  split
  · split
    · exact ⟨_, _, rfl, nofun⟩
    · exact ⟨_, _, rfl, nofun⟩
  · split
    · exact ⟨.error .routeFull, s.routes, rfl, fun e h => by cases h; exact ⟨rfl, nofun⟩⟩
    · split
      · exact ⟨.error .outOfMemory, s.routes, rfl, fun e h => by cases h; exact ⟨rfl, nofun⟩⟩
      · exact ⟨_, _, rfl, nofun⟩

theorem refresh_cases (s : Store) (signed : SignedOffer) (viaPeer : NodeId) (nowMs : Int64)
    (alloc : Allocator) :
    (∃ answer routes, s.refresh signed viaPeer nowMs alloc = (answer, { s with routes := routes }) ∧
      ∀ e, answer = .error e → e.pressure = true ∧ e ≠ .tombstoneFull) ∨
    (∃ entry routes, s.entries.lookup signed.offer.key = some entry ∧
      signed.offer.operation ≠ .remove ∧ s.refresh signed viaPeer nowMs alloc = (.ok (), { s with
        routes := routes
        entries := s.entries.insert signed.offer.key { entry with updatedAtMs := nowMs } })) := by
  simp only [refresh]
  split
  · exact .inl ⟨_, _, rfl, nofun⟩
  rename_i entry hentry
  split
  · exact .inl ⟨_, _, rfl, nofun⟩
  rename_i hsame
  push Not at hsame
  have hrecord : ∃ answer routes, (if viaPeer ≠ 0 then
        s.recordRoute signed.offer.token signed.offer.revision.originNode viaPeer
        signed.offer.revision nowMs alloc
      else (.ok (), s)) = (answer, { s with routes := routes }) ∧
      ∀ e, answer = .error e → e.pressure = true ∧ e ≠ .tombstoneFull := by
    split
    · exact recordRoute_frame s _ _ _ _ _ _
    · exact ⟨_, s.routes, rfl, nofun⟩
  obtain ⟨answer, routes, hrecord, herror⟩ := hrecord
  rw [hrecord]
  cases answer with
  | error e => exact .inl ⟨.error e, routes, rfl, herror⟩
  | ok _ => exact .inr ⟨entry, routes, hentry, hsame.1, rfl⟩

theorem installQuarantine_cases (crypto : Crypto) (s : Store) (incoming existing : SignedOffer)
    (existingExpiresAtMs nowMs : Int64) (alloc : Allocator) :
    (∃ e, e.pressure = true ∧ e ≠ .tombstoneFull ∧
      s.installQuarantine crypto incoming existing existingExpiresAtMs nowMs alloc =
        (.error e, s.markTokenDenied incoming.offer.token
          (min existingExpiresAtMs incoming.offer.expiresAtMs))) ∨
    (HashMap.count s.quarantines < s.cfg.maxQuarantines ∧
      s.installQuarantine crypto incoming existing existingExpiresAtMs nowMs alloc = (.ok (),
        s.isolated crypto incoming existing (min existingExpiresAtMs incoming.offer.expiresAtMs)
          nowMs)) := by
  simp only [installQuarantine]
  split
  · exact .inl ⟨.quarantineFull, rfl, nofun, rfl⟩
  rename_i hroom
  split
  · exact .inl ⟨.outOfMemory, rfl, nofun, rfl⟩
  refine .inr ⟨Nat.lt_of_not_le hroom, ?_⟩
  obtain ⟨routes, soft, index, faulted, hremove⟩ :=
    removeStateForToken_frame crypto s incoming.offer.token
  rw [isolated, hremove]
  rfl

theorem installed_effect {disposition : ApplyDisposition} {current : Revision}
    (hinstalls : Installs crypto s signed nowMs) (hdisposition : disposition.installed = true) :
    OfferEffect crypto s signed viaPeer nowMs
      (answered (s.install crypto signed viaPeer nowMs alloc) ⟨disposition, current⟩).1
      (answered (s.install crypto signed viaPeer nowMs alloc) ⟨disposition, current⟩).2 := by
  unfold install answered
  split
  · next hremove =>
    rcases installTombstone_cases crypto s signed nowMs alloc with
      ⟨e, hpressure, hfull, heq⟩ | ⟨hadmits, routes, heq⟩
    · rw [heq]
      exact .refused e s.routes s.accountIndex (fun _ => rfl) hfull (.inl hpressure)
    · rw [heq]
      exact .revoked disposition current routes hinstalls hremove hdisposition hadmits
  rename_i hremove
  have hoffer : signed.offer.isOffer := by
    have hsingle := hinstalls.single
    unfold Offer.isOffer
    cases hop : signed.offer.operation with
    | upsert => exact .inl rfl
    | inventoryUpsert => exact .inr rfl
    | remove => exact absurd hop hremove
    | groupRevoke => exact absurd hop hsingle
  rcases installUpsert_cases crypto s signed viaPeer nowMs alloc with
    ⟨e, hpressure, hother, heq⟩ | ⟨hadmits, added, reserved, routes, room, hreserve, heq⟩
  · rw [heq]
    exact .refused e s.routes s.accountIndex (fun _ => rfl)
      (fun h => absurd h hother) (.inl hpressure)
  · rw [heq]
    exact .offered disposition current added reserved routes room hinstalls hoffer hdisposition
      hadmits hreserve

/-- The row of an origin, by its entry or its tombstone. -/
theorem standing_entry {entry : Entry} (h : s.entries.lookup key = some entry) :
    s.standing crypto key = some (entry.revision, entry.digest crypto) := by
  simp only [standing, h]

theorem standing_tombstone {tomb : Tombstone} (h : s.entries.lookup key = none)
    (ht : s.tombstones.lookup key = some tomb) :
    s.standing crypto key = some (tomb.revision, tomb.digest crypto) := by
  simp only [standing, h, ht, Option.map_some]

theorem converge_effect (hadmitted : Admitted crypto s signed nowMs)
    (hquarantine : s.hasFullQuarantine signed.offer.token = false)
    (hmarker : s.hasDenyMarker signed.offer.token = false)
    (hagreed : signed.offer.isOffer →
      s.findIdentityConflict crypto signed.offer.token signed.offer.account nowMs = none) :
    OfferEffect crypto s signed viaPeer nowMs (s.converge crypto signed viaPeer nowMs alloc).1
      (s.converge crypto signed viaPeer nowMs alloc).2 := by
  simp only [converge]
  cases hstanding : s.standing crypto signed.offer.key with
  | none =>
    refine installed_effect
      ⟨hadmitted, hquarantine, hmarker, hagreed, fun current digest h => ?_⟩ ?_
    · rw [hstanding] at h
      cases h
    · split <;> rfl
  | some row =>
    obtain ⟨current, digest⟩ := row
    simp only
    rcases Revision.compare_cases signed.offer.revision current with
      ⟨hcompare, hlt⟩ | ⟨hcompare, heq⟩ | ⟨hcompare, hgt⟩
    · rw [hcompare]
      exact .outranked current digest .stale s.routes hadmitted hstanding (.inl hlt) rfl
    · rw [hcompare]
      simp only
      split
      · next hdiffer =>
        split
        · next hsmaller =>
          refine installed_effect ⟨hadmitted, hquarantine, hmarker, hagreed, fun c d h => ?_⟩ rfl
          rw [hstanding] at h
          cases h
          exact .inr ⟨heq.symm, hsmaller⟩
        · next hlarger =>
          exact .outranked current digest .conflict s.routes hadmitted hstanding
            (.inr ⟨heq, not_lt.mp hlarger⟩) rfl
      · next hsame =>
        have hdigest := not_not.mp hsame
        rcases refresh_cases s signed viaPeer nowMs alloc with
          ⟨answer, routes, hrefresh, herror⟩ | ⟨entry, routes, hentry, hremove, hrefresh⟩
        · rw [hrefresh]
          cases answer with
          | error e =>
            obtain ⟨hpressure, hother⟩ := herror e rfl
            exact .refused e routes s.accountIndex (fun _ => rfl)
              (fun h => absurd h hother) (.inl hpressure)
          | ok _ =>
            exact .outranked current digest .duplicate routes hadmitted hstanding
              (.inr ⟨heq, hdigest.ge⟩) rfl
        · rw [hrefresh]
          rw [standing_entry hentry] at hstanding
          obtain ⟨hrevision, hheld⟩ := Prod.mk.inj (some.inj hstanding)
          rw [← heq]
          exact .refreshed entry routes hadmitted hentry (hrevision.trans heq.symm)
            (hheld.trans hdigest.symm) hremove
    · rw [hcompare]
      refine installed_effect ⟨hadmitted, hquarantine, hmarker, hagreed, fun c d h => ?_⟩ rfl
      rw [hstanding] at h
      cases h
      exact .inl hgt

theorem applyVerifiedOffer_effect (hadmitted : Admitted crypto s signed nowMs) :
    OfferEffect crypto s signed viaPeer nowMs
      (s.applyVerifiedOffer crypto signed viaPeer nowMs alloc).1
      (s.applyVerifiedOffer crypto signed viaPeer nowMs alloc).2 := by
  simp only [applyVerifiedOffer]
  split
  · next hquarantine =>
    exact .barred hadmitted (by rw [isQuarantined, hquarantine, Bool.true_or])
  rename_i hquarantine
  have hfree : s.hasFullQuarantine signed.offer.token = false := by simpa using hquarantine
  have hbarred : s.hasDenyMarker signed.offer.token = true → s.isQuarantined signed.offer.token =
      true := by
    intro h
    rw [isQuarantined, h, Bool.or_true]
  split
  · next hoffer =>
    cases hconflict : s.findIdentityConflict crypto signed.offer.token
      signed.offer.account nowMs with
    | none =>
      simp only
      split
      · next hmarker => exact .barred hadmitted (hbarred hmarker)
      · next hmarker =>
        exact converge_effect hadmitted hfree (by simpa using hmarker) fun _ => hconflict
    | some conflict =>
      simp only
      split
      · next existing hwire =>
        rcases installQuarantine_cases crypto s signed existing
          conflict.expiresAtMs nowMs alloc with
          ⟨e, hpressure, hother, heq⟩ | ⟨hroom, heq⟩
        · rw [heq]
          exact .denied conflict _ hadmitted hoffer hconflict hfree
            (.inr ⟨e, hpressure, hother, rfl⟩)
        · rw [heq]
          exact .isolated conflict existing hadmitted hoffer hconflict hwire hfree hroom
      · exact .denied conflict _ hadmitted hoffer hconflict hfree (.inl rfl)
  · next hoffer =>
    split
    · next hmarker => exact .barred hadmitted (hbarred hmarker)
    · next hmarker =>
      exact converge_effect hadmitted hfree (by simpa using hmarker) fun h => absurd h hoffer

/-- A group fence is refused, is there already, or has its room. -/
theorem prepareGroupRevoke_cases (crypto : Crypto) (s : Store) (signed : SignedOffer)
    (nowMs : Int64) (alloc : Allocator) :
    (∃ e, s.prepareGroupRevoke crypto signed nowMs alloc = (.error e, s) ∧ e ≠ .tombstoneFull ∧
      (e.pressure = true ∨ verifyOffer crypto signed ≠ .ok () ∨
        s.validateOfferForStore signed.offer nowMs ≠ .ok () ∨
        signed.offer.operation ≠ .groupRevoke ∨ quarrels crypto s signed.offer)) ∨
    (∃ old, s.groupRevocations.lookup signed.offer.token = some old ∧
      s.prepareGroupRevoke crypto signed nowMs alloc = (.ok ⟨signed.offer.token, none⟩, s)) ∨
    (∃ added reserved room, signed.offer.operation = .groupRevoke ∧
      verifyOffer crypto signed = .ok () ∧ s.validateOfferForStore signed.offer nowMs = .ok () ∧
      s.groupRevocations.lookup signed.offer.token = none ∧
      s.accountMismatch crypto signed.offer.token signed.offer.account = false ∧
      s.hasFullQuarantine signed.offer.token = false ∧
      HashMap.count s.groupRevocations < s.cfg.maxGroupRevocations ∧
      s.reserveAccountOrigin crypto signed.offer.account ⟨signed.offer.token, 0⟩ room =
        some (added, reserved) ∧
      s.prepareGroupRevoke crypto signed nowMs alloc =
        (.ok ⟨signed.offer.token, some signed⟩, reserved)) := by
  simp only [prepareGroupRevoke]
  cases hverify : verifyOffer crypto signed with
  | error e => exact .inl ⟨.verify e, rfl, nofun, .inr (.inl nofun)⟩
  | ok _ =>
    simp only
    split
    · next hop => exact .inl ⟨.invalidOffer, rfl, nofun, .inr (.inr (.inr (.inl hop)))⟩
    rename_i hop
    cases hvalid : s.validateOfferForStore signed.offer nowMs with
    | error e =>
      refine .inl ⟨e, rfl, ?_, .inr (.inr (.inl nofun))⟩
      rintro rfl
      exact absurd hvalid (validateOfferForStore_error s signed.offer nowMs)
    | ok _ =>
      simp only
      cases hold : s.groupRevocations.lookup signed.offer.token with
      | some old =>
        simp only
        split
        · next hother =>
          exact .inl ⟨.accountMismatch, rfl, nofun, .inr (.inr (.inr (.inr (.inr (.inr
            ⟨old, hold, by simpa using hother⟩)))))⟩
        · exact .inr (.inl ⟨old, rfl, rfl⟩)
      | none =>
        simp only
        split
        · next hmismatch =>
          exact .inl ⟨.accountMismatch, rfl, nofun, .inr (.inr (.inr (.inr (.inl hmismatch))))⟩
        rename_i hmismatch
        split
        · next hquarantine =>
          exact .inl
            ⟨.identityConflict, rfl, nofun, .inr (.inr (.inr (.inr (.inr (.inl hquarantine)))))⟩
        rename_i hquarantine
        split
        · exact .inl ⟨.groupRevokeFull, rfl, nofun, .inl rfl⟩
        rename_i hroom
        split
        · exact .inl ⟨.outOfMemory, rfl, nofun, .inl rfl⟩
        split
        · exact .inl ⟨.outOfMemory, rfl, nofun, .inl rfl⟩
        · next added reserved hreserve =>
          exact .inr (.inr ⟨added, reserved, _, not_not.mp hop, trivial, trivial, trivial,
            by simpa using hmismatch, by simpa using hquarantine, Nat.lt_of_not_le hroom, hreserve,
            rfl⟩)

/-- A committed fence: the token's rows and leases are gone. -/
theorem commitGroupRevoke_frame (crypto : Crypto) (s : Store) (token : Token)
    (signed : SignedOffer) :
    ∃ routes soft index faulted, (s.commitGroupRevoke crypto ⟨token, some signed⟩).2 =
      { s with
        entries := HashMap.eraseAll (ofToken token s.entries) s.entries
        tombstones := HashMap.eraseAll (ofToken token s.tombstones) s.tombstones
        attachmentLeases := HashMap.keep (fun k _ => !(tokenEql k.token token)) s.attachmentLeases
        groupRevocations := s.groupRevocations.insert token ⟨signed⟩
        routes := routes, softCappedTombstones := soft, accountIndex := index, faulted :=
          faulted } := by
  obtain ⟨index, faulted, happend⟩ :=
    appendAccountOrigin_frame crypto s signed.offer.account ⟨token, 0⟩
  simp only [commitGroupRevoke, happend]
  obtain ⟨routes, soft, index', faulted', hremove⟩ := removeStateForToken_frame crypto
    { s with accountIndex := index, faulted := faulted, groupRevocations :=
      s.groupRevocations.insert token ⟨signed⟩ }
    token
  rw [hremove]
  exact ⟨routes, soft, index', faulted', rfl⟩

theorem applySignedOffer_effect (crypto : Crypto) (s : Store)
    (signed : SignedOffer) (viaPeer : NodeId)
    (nowMs : Int64) (alloc : Allocator) :
    OfferEffect crypto s signed viaPeer nowMs
      (s.applySignedOffer crypto signed viaPeer nowMs alloc).1
      (s.applySignedOffer crypto signed viaPeer nowMs alloc).2 := by
  have unchanged : ∀ e : ApplyError, e ≠ .tombstoneFull →
      (e.pressure = true ∨ verifyOffer crypto signed ≠ .ok () ∨
        s.validateOfferForStore signed.offer nowMs ≠ .ok () ∨
        signed.offer.operation = .groupRevoke ∧ quarrels crypto s signed.offer) →
      OfferEffect crypto s signed viaPeer nowMs (.error e) s := fun e hother why =>
    .refused e s.routes s.accountIndex (fun _ => rfl) (fun h => absurd h hother) why
  simp only [applySignedOffer]
  split
  · next hgroup =>
    rcases prepareGroupRevoke_cases crypto s signed nowMs alloc with
      ⟨e, heq, hother, why⟩ | ⟨old, hold, heq⟩ |
      ⟨added, reserved, room, hop, hverified, hvalid, hnew, hagreed, hfree, hroom, hreserve, heq⟩
    · rw [heq]
      refine unchanged e hother ?_
      rcases why with h | h | h | h | h
      · exact .inl h
      · exact .inr (.inl h)
      · exact .inr (.inr (.inl h))
      · exact absurd hgroup h
      · exact .inr (.inr (.inr ⟨hgroup, h⟩))
    · rw [heq]
      simp only [commitGroupRevoke, hold]
      exact .groupKnown old hold hgroup
    · rw [heq]
      simp only
      obtain ⟨routes, soft, index, faulted, hcommit⟩ :=
        commitGroupRevoke_frame crypto reserved signed.offer.token signed
      have hfound : (reserved.commitGroupRevoke crypto ⟨signed.offer.token,
          some signed⟩).2.groupRevocations.lookup
          signed.offer.token = some ⟨signed⟩ := by
        rw [hcommit, HashMap.lookup_insert_eq, if_pos rfl]
      rw [hfound]
      exact .groupFenced added reserved room hgroup hverified hvalid hnew hagreed hfree hroom
        hreserve
  · next hsingle =>
    cases hverify : verifyOffer crypto signed with
    | error e => exact unchanged _ nofun (.inr (.inl (by rw [hverify]; nofun)))
    | ok _ =>
      simp only
      cases hvalid : s.validateOfferForStore signed.offer nowMs with
      | error e =>
        refine unchanged e ?_ (.inr (.inr (.inl (by rw [hvalid]; nofun))))
        rintro rfl
        exact absurd hvalid (validateOfferForStore_error s signed.offer nowMs)
      | ok _ =>
        simp only
        cases hfence : s.groupRevocations.lookup signed.offer.token with
        | some group => exact .fenced group hfence hsingle
        | none => exact applyVerifiedOffer_effect ⟨hverify, hvalid, hfence, hsingle⟩

/-- An OFFER of another account than the token's comes down to the quarantine it starts. -/
theorem applySignedOffer_conflict {conflict : IdentityConflictEvidence} {existing : SignedOffer}
    (hadmitted : Admitted crypto s signed nowMs) (hoffer : signed.offer.isOffer)
    (hfree : s.hasFullQuarantine signed.offer.token = false)
    (hconflict : s.findIdentityConflict crypto signed.offer.token signed.offer.account nowMs =
      some conflict) (hwire : conflict.wire = some existing) :
    (s.applySignedOffer crypto signed viaPeer nowMs alloc).2 =
      (s.installQuarantine crypto signed existing conflict.expiresAtMs nowMs alloc).2 := by
  unfold Offer.isOffer at hoffer
  simp only [applySignedOffer, if_neg hadmitted.single, hadmitted.verified, hadmitted.valid,
    hadmitted.unfenced,
    applyVerifiedOffer, hfree, Bool.false_eq_true, if_false, if_pos hoffer, hconflict,
    hwire, answered]

/-- One that may be installed comes down to its install. -/
theorem applySignedOffer_installs (hinstalls : Installs crypto s signed nowMs)
    (hoffer : signed.offer.isOffer) :
    (s.applySignedOffer crypto signed viaPeer nowMs alloc).2 =
      (s.installUpsert crypto signed viaPeer nowMs alloc).2 := by
  have hconflict := hinstalls.agreed hoffer
  have hsingle : signed.offer.operation ≠ .remove := by
    intro hremove
    rcases hoffer with h | h
    · exact nomatch hremove.symm.trans h
    · exact nomatch hremove.symm.trans h
  unfold Offer.isOffer at hoffer
  simp only [applySignedOffer, if_neg hinstalls.single, hinstalls.verified, hinstalls.valid,
    hinstalls.unfenced,
    applyVerifiedOffer, hinstalls.unquarantined, hinstalls.unmarked, Bool.false_eq_true, if_false,
    if_pos hoffer, hconflict, converge, install, if_neg hsingle, answered]
  cases hstanding : s.standing crypto signed.offer.key with
  | none => rfl
  | some row =>
    obtain ⟨current, digest⟩ := row
    rcases hinstalls.outranks current digest hstanding with hlt | ⟨heq, hdigest⟩
    · simp only [Revision.compare_gt.mpr hlt]
    · simp only [Revision.compare_eq.mpr heq.symm, if_pos hdigest.ne, if_pos hdigest]

namespace OfferEffect

variable {answer : Except ApplyError ApplyResult}

theorem tombstoneFull (h : OfferEffect crypto s signed viaPeer nowMs (.error .tombstoneFull) t) :
    s.admitsTombstone signed.offer.key = false := by
  cases h with
  | refused _ routes index hlisted hfull why => exact hfull rfl
  | denied conflict answer hadmitted hoffer hconflict hfree hanswer =>
    rcases hanswer with hanswer | ⟨e, -, hother, hanswer⟩
    · cases hanswer
    · exact absurd (Except.error.inj hanswer).symm hother

theorem cfg (h : OfferEffect crypto s signed viaPeer nowMs answer t) : t.cfg = s.cfg := by
  cases h with
  | groupFenced added reserved room hgroup hverified hvalid hnew hagreed hfree hroom hreserve =>
    obtain ⟨index, hreserved⟩ := reserveAccountOrigin_frame hreserve
    obtain ⟨routes, soft, index', faulted, hcommit⟩ :=
      commitGroupRevoke_frame crypto reserved signed.offer.token signed
    rw [hcommit, hreserved]
  | isolated =>
    obtain ⟨routes, soft, index, faulted, hremove⟩ :=
      removeStateForToken_frame crypto s signed.offer.token
    simp only [Store.isolated, hremove]
  | _ => rfl

end OfferEffect

theorem abortGroupRevoke_frame (crypto : Crypto) (s : Store) (prepared : PreparedGroupRevoke) :
    ∃ index, s.abortGroupRevoke crypto prepared = { s with accountIndex := index } := by
  unfold abortGroupRevoke
  split
  · exact ⟨_, rfl⟩
  simp only
  split
  · exact ⟨_, rfl⟩
  · exact ⟨_, rfl⟩

/-- What revoking a group leaves: the store with another account index, or what
committing a checked revocation makes of such a store. -/
theorem revokeGroup_cases (crypto : Crypto) (s : Store) (signed : SignedOffer) (nowMs : Int64)
    (alloc : Allocator) (commit : Bool) :
    ∃ index, (s.revokeGroup crypto signed nowMs alloc commit).2 = { s with accountIndex := index } ∨
      signed.offer.operation = .groupRevoke ∧ verifyOffer crypto signed = .ok () ∧
        s.validateOfferForStore signed.offer nowMs = .ok () ∧
        s.groupRevocations.lookup signed.offer.token = none ∧
        s.hasFullQuarantine signed.offer.token = false ∧
        HashMap.count s.groupRevocations < s.cfg.maxGroupRevocations ∧
        (s.revokeGroup crypto signed nowMs alloc commit).2 =
          (commitGroupRevoke crypto { s with accountIndex := index }
            ⟨signed.offer.token, some signed⟩).2 := by
  unfold revokeGroup
  rcases prepareGroupRevoke_cases crypto s signed nowMs alloc with
    ⟨e, heq, -⟩ | ⟨old, hold, heq⟩ |
    ⟨added, reserved, room, hgroup, hverified, hvalid, hnew, -, hfree, hroom, hreserve, heq⟩
  · rw [heq]
    exact ⟨s.accountIndex, .inl rfl⟩
  · rw [heq]
    refine ⟨s.accountIndex, .inl ?_⟩
    cases commit with
    | true => rfl
    | false => rfl
  · rw [heq]
    obtain ⟨index, rfl⟩ := reserveAccountOrigin_frame hreserve
    cases commit with
    | true => exact ⟨index, .inr ⟨hgroup, hverified, hvalid, hnew, hfree, hroom, rfl⟩⟩
    | false =>
      obtain ⟨index', habort⟩ := abortGroupRevoke_frame crypto { s with accountIndex := index }
        ⟨signed.offer.token, some signed⟩
      exact ⟨index', .inl habort⟩

theorem revokeGroup_cfg (s : Store) (signed : SignedOffer) (nowMs : Int64) (alloc : Allocator)
    (commit : Bool) :
    (s.revokeGroup crypto signed nowMs alloc commit).2.cfg = s.cfg := by
  obtain ⟨index, heq | ⟨-, -, -, -, -, -, heq⟩⟩ :=
    revokeGroup_cases crypto s signed nowMs alloc commit
  · rw [heq]
  · obtain ⟨routes, soft, index', faulted, hcommit⟩ :=
      commitGroupRevoke_frame crypto { s with accountIndex := index } signed.offer.token signed
    rw [heq, hcommit]

end Store

end OnyxServer.SessionReplica
