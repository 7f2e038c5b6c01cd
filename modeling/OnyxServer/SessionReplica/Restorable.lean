import OnyxServer.SessionReplica.Capacity
import OnyxServer.SessionReplica.Restored

/-!
# Stores a restore takes back

What a restore asks of the rows of an image: times that are not negative and within the
signed window, deny markers that outlast no row, one account for all the rows of a token, and
tables within their bounds. Two calls can leave a store that fails it, and what those calls
have to find is stated here.
-/
namespace OnyxServer.SessionReplica

open Lib Text HashMap

/-- What a run hashes of the facts it is handed: their transcripts and their accounts. -/
def hashed (calls : List Call) : Set Bytes := fun bytes =>
  ∃ signed viaPeer nowMs alloc, Call.applySignedOffer signed viaPeer nowMs alloc ∈ calls ∧
    (bytes = signed.transcript ∨ bytes = lowerString signed.offer.account)

/-- The call hashes nothing of a fact beyond this. -/
def Call.HashesIn (accounts : Set Bytes) : Call → Prop
  | .applySignedOffer signed _ _ _ => signed.transcript ∈ accounts ∧
      lowerString signed.offer.account ∈ accounts
  | _ => True

structure RestorableEntry (accounts : Set Bytes) (e : Entry) : Prop where
  updated : 0 ≤ e.updatedAtMs ∧ e.updatedAtMs ≤ e.expiresAtMs
  marked : ∀ untilMs, e.quarantineUntilMs = some untilMs → 0 ≤ untilMs ∧ untilMs ≤ e.expiresAtMs
  hashed : e.wire.transcript ∈ accounts

structure RestorableTombstone (t : Tombstone) : Prop where
  removed : 0 ≤ t.removedAtMs
  marked : ∀ untilMs, t.quarantineUntilMs = some untilMs → 0 ≤ untilMs ∧
    untilMs ≤ t.offerExpiresAtMs

structure RestorableQuarantine (accounts : Set Bytes) (q : Quarantine) : Prop where
  detected : 0 ≤ q.detectedAtMs
  hashed : q.firstWire.transcript ∈ accounts ∧ q.secondWire.transcript ∈ accounts

namespace Store

/-- The account that the row of a key names. -/
def identity (crypto : Crypto) (s : Store) (key : OriginKey) : Option Digest :=
  match s.entries.lookup key with
  | some e => some (accountDigest crypto e.account)
  | none => (s.tombstones.lookup key).bind Tombstone.identityDigest

structure Restorable (crypto : Crypto) (accounts : Set Bytes) (s : Store) : Prop where
  entries : ∀ k e, s.entries.lookup k = some e → RestorableEntry accounts e
  tombstones : ∀ k t, s.tombstones.lookup k = some t → RestorableTombstone t
  quarantines : ∀ token q, s.quarantines.lookup token = some q → RestorableQuarantine accounts q
  agreed : ∀ k k' d d', k.token = k'.token → s.identity crypto k = some d →
    s.identity crypto k' = some d' → d = d'
  softRoom : HashMap.countIf Tombstone.softCapped s.tombstones ≤ s.cfg.maxTombstones
  quarantineRoom : HashMap.count s.quarantines ≤ s.cfg.maxQuarantines
  leaseRoom : HashMap.count s.attachmentLeases ≤ s.cfg.maxAttachmentLeases
  groupRoom : HashMap.count s.groupRevocations ≤ s.cfg.maxGroupRevocations

variable {crypto : Crypto} {accounts : Set Bytes} {clock untilMs : Int64} {s t u : Store}
    {key : OriginKey}
variable {token : Token} {signed : SignedOffer} {viaPeer : NodeId} {nowMs : Int64}
    {alloc : Allocator}

theorem restorable_init (crypto : Crypto) (accounts : Set Bytes) (cfg : Config) :
    Restorable crypto accounts (initWithConfig cfg) where
  entries k _ h := absurd ((AList.lookup_empty k).symm.trans h) nofun
  tombstones k _ h := absurd ((AList.lookup_empty k).symm.trans h) nofun
  quarantines token _ h := absurd ((AList.lookup_empty token).symm.trans h) nofun
  agreed k _ _ _ _ h _ := by
    have hnone : (initWithConfig cfg).identity crypto k = none := rfl
    exact absurd (hnone.symm.trans h) nofun
  softRoom := Nat.zero_le _
  quarantineRoom := Nat.zero_le _
  leaseRoom := Nat.zero_le _
  groupRoom := Nat.zero_le _

/-- Every row of `t` is one of `s`, with its deny marker or without. -/
structure Fewer (s t : Store) : Prop where
  cfg : t.cfg = s.cfg
  entries : ∀ k e, t.entries.lookup k = some e → ∃ e', s.entries.lookup k = some e' ∧
    e.wire = e'.wire ∧
    e.updatedAtMs = e'.updatedAtMs ∧
      (e.quarantineUntilMs = none ∨ e.quarantineUntilMs = e'.quarantineUntilMs)
  tombstones : ∀ k tomb, t.tombstones.lookup k = some tomb →
    ∃ tomb', s.tombstones.lookup k = some tomb' ∧
    tomb.wire = tomb'.wire ∧ tomb.removedAtMs = tomb'.removedAtMs ∧
      tomb.identityDigest = tomb'.identityDigest ∧
    (tomb.softCapped = true → tomb'.softCapped = true) ∧
    (tomb.quarantineUntilMs = none ∨ tomb.quarantineUntilMs = tomb'.quarantineUntilMs)
  quarantines : ∀ token q, t.quarantines.lookup token = some q → s.quarantines.lookup token = some q
  leases : ∀ k l, t.attachmentLeases.lookup k = some l → s.attachmentLeases.lookup k = some l
  groups : ∀ token g, t.groupRevocations.lookup token = some g →
    s.groupRevocations.lookup token = some g

theorem Within.fewer (h : Within s t) : Fewer s t where
  cfg := h.cfg
  entries k e he := ⟨e, h.entries k e he, rfl, rfl, .inr rfl⟩
  tombstones k tomb htomb := ⟨tomb, h.tombstones k tomb htomb, rfl, rfl, rfl, id, .inr rfl⟩
  quarantines := h.quarantines
  leases := h.leases
  groups := h.groups

/-- A row names the account it named before. -/
theorem Fewer.identity {d : Digest} (h : Fewer s t)
    (hapart : ∀ k tomb, s.tombstones.lookup k = some tomb →
    s.entries.lookup k = none) (hd : t.identity crypto key = some d) : s.identity crypto key =
      some d := by
  unfold Store.identity at hd ⊢
  cases he : t.entries.lookup key with
  | some e =>
    rw [he] at hd
    obtain ⟨e', he', hwire, -⟩ := h.entries key e he
    rw [he']
    change some (accountDigest crypto e'.wire.offer.account) = some d
    rw [← hwire]
    exact hd
  | none =>
    rw [he] at hd
    obtain ⟨tomb, htomb, hbound⟩ := Option.bind_eq_some_iff.mp hd
    obtain ⟨tomb', htomb', -, -, hidentity, -⟩ := h.tombstones key tomb htomb
    rw [hapart key tomb' htomb', htomb', Option.bind_some, ← hidentity, hbound]

theorem Restorable.fewer (h : Restorable crypto accounts s) (hkept : Kept crypto clock s)
    (hfewer : Fewer s t) :
    Restorable crypto accounts t where
  entries k e he := by
    obtain ⟨e', he', hwire, hupdated, hmarker⟩ := hfewer.entries k e he
    obtain ⟨hupdated', hmarked', hhashed'⟩ := h.entries k e' he'
    have hexpires :
        e.expiresAtMs = e'.expiresAtMs := by rw [Entry.expiresAtMs, hwire, Entry.expiresAtMs]
    rw [← hupdated, ← hexpires] at hupdated'
    refine ⟨hupdated', fun untilMs huntil => ?_, hwire ▸ hhashed'⟩
    rcases hmarker with hnone | hsame
    · exact nomatch hnone.symm.trans huntil
    · rw [hexpires]
      exact hmarked' untilMs (hsame ▸ huntil)
  tombstones k tomb htomb := by
    obtain ⟨tomb', htomb', hwire, hremoved, -, -, hmarker⟩ := hfewer.tombstones k tomb htomb
    obtain ⟨hremoved', hmarked'⟩ := h.tombstones k tomb' htomb'
    refine ⟨hremoved ▸ hremoved', fun untilMs huntil => ?_⟩
    rcases hmarker with hnone | hsame
    · exact nomatch hnone.symm.trans huntil
    · rw [Tombstone.offerExpiresAtMs, hwire]
      exact hmarked' untilMs (hsame ▸ huntil)
  quarantines token q hq := h.quarantines token q (hfewer.quarantines token q hq)
  agreed k k' d d' htoken hd hd' :=
    h.agreed k k' d d' htoken (hfewer.identity hkept.apart hd) (hfewer.identity hkept.apart hd')
  softRoom := by
    rw [hfewer.cfg]
    refine (countIf_le_of_lookup fun k tomb htomb hsoft => ?_).trans h.softRoom
    obtain ⟨tomb', htomb', -, -, -, hsoft', -⟩ := hfewer.tombstones k tomb htomb
    exact ⟨tomb', htomb', hsoft' hsoft⟩
  quarantineRoom := by
    rw [hfewer.cfg]
    refine (count_le_of_lookup fun token q hq => ?_).trans h.quarantineRoom
    rw [hfewer.quarantines token q hq]
    rfl
  leaseRoom := by
    rw [hfewer.cfg]
    refine (count_le_of_lookup fun k l hl => ?_).trans h.leaseRoom
    rw [hfewer.leases k l hl]
    rfl
  groupRoom := by
    rw [hfewer.cfg]
    refine (count_le_of_lookup fun token g hg => ?_).trans h.groupRoom
    rw [hfewer.groups token g hg]
    rfl

theorem clearMarker_fewer (nowMs : Int64) (marker : Option Int64) :
    clearMarker nowMs marker = none ∨ clearMarker nowMs marker = marker := by
  cases marker with
  | none => exact .inl rfl
  | some untilMs =>
    unfold clearMarker
    rw [Option.filter_some]
    split
    · exact .inr rfl
    · exact .inl rfl

theorem sweep_fewer (s : Store) (nowMs : Int64) : Fewer s (s.sweep crypto nowMs) where
  cfg := sweep_cfg crypto s nowMs
  entries k e he := by
    rw [lookup_sweep_entries] at he
    obtain ⟨old, hold, rfl⟩ := Option.map_eq_some_iff.mp he
    exact ⟨old, (Option.filter_eq_some_iff.mp hold).1, rfl, rfl, clearMarker_fewer nowMs _⟩
  tombstones k tomb htomb := by
    rw [lookup_sweep_tombstones] at htomb
    obtain ⟨old, hold, rfl⟩ := Option.map_eq_some_iff.mp htomb
    exact ⟨old, (Option.filter_eq_some_iff.mp hold).1, rfl, rfl, rfl, id, clearMarker_fewer nowMs _⟩
  quarantines := (sweep_thinned s nowMs).quarantines
  leases := (sweep_thinned s nowMs).leases
  groups := (sweep_thinned s nowMs).groups

/-- The rows of a restored store, as a restore reads them. -/
theorem RestoredTo.fewer (hkept : Kept crypto clock s) (h : RestoredTo s u) : Fewer s u where
  cfg := h.cfg
  entries k e he := by
    rw [h.entries] at he
    obtain ⟨old, hold, rfl⟩ := Option.map_eq_some_iff.mp he
    exact ⟨old, hold, rfl, rfl, .inr rfl⟩
  tombstones k tomb htomb := by
    rw [h.tombstones] at htomb
    obtain ⟨old, hold, rfl⟩ := Option.map_eq_some_iff.mp htomb
    exact ⟨old, hold, rfl, rfl, rfl, fun hsoft => (hkept.tombstones k old hold).unbound
      (Option.isNone_iff_eq_none.mp hsoft), .inr rfl⟩
  quarantines token _ hq := (h.quarantines token).symm.trans hq
  leases k _ hl := (h.leases k).symm.trans hl
  groups token _ hg := (h.groups token).symm.trans hg

/-- No row of the key expires before this. -/
def Outlasts (s : Store) (key : OriginKey) (untilMs : Int64) : Prop :=
  (∀ e, s.entries.lookup key = some e → untilMs ≤ e.expiresAtMs) ∧
    ∀ tomb, s.tombstones.lookup key = some tomb → untilMs ≤ tomb.offerExpiresAtMs

/-- The OFFER meets another account of its token, and there is no way to hold the evidence. -/
structure Denies (crypto : Crypto) (s : Store) (signed : SignedOffer) (nowMs : Int64)
    (alloc : Allocator)
    (conflict : IdentityConflictEvidence) : Prop extends Admitted crypto s signed nowMs where
  isOffer : signed.offer.isOffer
  unquarantined : s.hasFullQuarantine signed.offer.token = false
  conflicts : s.findIdentityConflict crypto signed.offer.token signed.offer.account nowMs =
    some conflict
  cramped : conflict.wire = none ∨ s.cfg.maxQuarantines ≤ HashMap.count s.quarantines ∨
    ¬ (alloc 0 = true ∧ alloc 1 = true ∧ alloc 2 = true)

/-- The OFFER takes the row of its origin. -/
structure Enters (crypto : Crypto) (s : Store) (signed : SignedOffer) (viaPeer : NodeId)
    (nowMs : Int64) (alloc : Allocator) : Prop extends Installs crypto s signed nowMs where
  isOffer : signed.offer.isOffer
  room : (s.installUpsert crypto signed viaPeer nowMs alloc).1 = .ok ()

/-- What the call leaves can be restored: a deny marker outlasts no row it is set on, and an
OFFER takes a row only where every other row of its token, the expired ones too, names its
account or none. -/
def Portable (crypto : Crypto) (s : Store) : Call → Prop
  | .applySignedOffer signed viaPeer nowMs alloc =>
    (∀ conflict, Denies crypto s signed nowMs alloc conflict →
      ∀ key : OriginKey, key.token = signed.offer.token →
      s.Outlasts key (min conflict.expiresAtMs signed.offer.expiresAtMs)) ∧
    (Enters crypto s signed viaPeer nowMs alloc →
      ∀ key : OriginKey, key.token = signed.offer.token →
      key ≠ signed.offer.key → ∀ d, s.identity crypto key = some d →
      d = accountDigest crypto signed.offer.account)
  | _ => True

theorem verifyOffer_reads (h : verifyOffer crypto signed = .ok ()) :
    readOffer signed.transcript = .ok (signed.offer, []) := by
  unfold verifyOffer at h
  split at h
  · cases h
  rename_i projected rest hread
  split at h
  · cases h
  · next hsame =>
    push Not at hsame
    rw [hread, hsame.2, List.length_eq_zero_iff.mp hsame.1]

/-- Verified facts with one digest are the same OFFER. -/
theorem offer_of_digest {other : SignedOffer} (hinj : Distinguishes crypto accounts)
    (hin : signed.transcript ∈ accounts) (hother : other.transcript ∈ accounts)
    (h : verifyOffer crypto signed = .ok ()) (h' : verifyOffer crypto other = .ok ())
    (hdigest : digestBytes crypto signed.transcript = digestBytes crypto other.transcript) :
    signed.offer = other.offer := by
  have hread := verifyOffer_reads h
  rw [hinj hin hother hdigest, verifyOffer_reads h'] at hread
  exact (Prod.mk.inj (Except.ok.inj hread)).1.symm

theorem identity_of_lookup (hentries : t.entries.lookup key = s.entries.lookup key)
    (htombstones : t.tombstones.lookup key = s.tombstones.lookup key) :
    t.identity crypto key = s.identity crypto key := by
  unfold identity
  rw [hentries, htombstones]

theorem Restorable.rewritten {entry : Option Entry} {tombstone : Option Tombstone}
    (h : Restorable crypto accounts s)
    (hw : Rewritten s t key entry tombstone)
    (hentry : ∀ e, entry = some e → RestorableEntry accounts e)
    (htombstone : ∀ tomb, tombstone = some tomb → RestorableTombstone tomb)
    (hagreed : ∀ d, t.identity crypto key = some d → ∀ k d', k.token = key.token → k ≠ key →
      s.identity crypto k = some d' → d' = d)
    (hsoft : HashMap.countIf Tombstone.softCapped t.tombstones ≤ s.cfg.maxTombstones) :
    Restorable crypto accounts t where
  entries := forall_put hw.entries hentry h.entries
  tombstones := forall_put hw.tombstones htombstone h.tombstones
  quarantines := by
    rw [hw.quarantines]
    exact h.quarantines
  agreed k k' d d' htoken hd hd' := by
    have hother : ∀ k, k ≠ key → t.identity crypto k = s.identity crypto k := fun k hk =>
      identity_of_lookup (by rw [hw.entries, if_neg hk]) (by rw [hw.tombstones, if_neg hk])
    by_cases hk : k = key
    · by_cases hk' : k' = key
      · rw [hk] at hd
        rw [hk', hd] at hd'
        exact Option.some.inj hd'
      · rw [hother k' hk'] at hd'
        rw [hk] at hd
        exact (hagreed d hd k' d' (by rw [← htoken, hk]) hk' hd').symm
    · rw [hother k hk] at hd
      by_cases hk' : k' = key
      · rw [hk'] at hd'
        exact hagreed d' hd' k d (by rw [htoken, hk']) hk hd
      · rw [hother k' hk'] at hd'
        exact h.agreed k k' d d' htoken hd hd'
  softRoom := by
    rw [hw.cfg]
    exact hsoft
  quarantineRoom := by
    rw [hw.quarantines, hw.cfg]
    exact h.quarantineRoom
  leaseRoom := by
    rw [hw.leases, hw.cfg]
    exact h.leaseRoom
  groupRoom := by
    rw [hw.groups, hw.cfg]
    exact h.groupRoom

theorem markTokenDenied_restorable (h : Restorable crypto accounts s) (hlow : 0 ≤ untilMs)
    (houtlasts : ∀ key : OriginKey, key.token = token → s.Outlasts key untilMs) :
    Restorable crypto accounts (s.markTokenDenied token untilMs) where
  entries k e he := by
    have hmapped : (HashMap.mapValues (denyEntry token untilMs) s.entries).lookup k = some e := he
    rw [lookup_mapValues] at hmapped
    obtain ⟨old, hold, rfl⟩ := Option.map_eq_some_iff.mp hmapped
    obtain ⟨hupdated, hmarked, hhashed⟩ := h.entries k old hold
    unfold denyEntry
    split
    · next htoken =>
      refine ⟨hupdated, fun value hvalue => ?_, hhashed⟩
      rw [← Option.some.inj hvalue]
      exact ⟨hlow, (houtlasts k (tokenEql_iff.mp htoken)).1 old hold⟩
    · exact ⟨hupdated, hmarked, hhashed⟩
  tombstones k tomb htomb := by
    have hmapped : (HashMap.mapValues (denyTombstone token untilMs) s.tombstones).lookup k =
        some tomb := htomb
    rw [lookup_mapValues] at hmapped
    obtain ⟨old, hold, rfl⟩ := Option.map_eq_some_iff.mp hmapped
    obtain ⟨hremoved, hmarked⟩ := h.tombstones k old hold
    unfold denyTombstone
    split
    · next htoken =>
      refine ⟨hremoved, fun value hvalue => ?_⟩
      rw [← Option.some.inj hvalue]
      exact ⟨hlow, (houtlasts k (tokenEql_iff.mp htoken)).2 old hold⟩
    · exact ⟨hremoved, hmarked⟩
  quarantines := h.quarantines
  agreed k k' d d' htoken hd hd' := by
    have hsame : ∀ k, (s.markTokenDenied token untilMs).identity crypto k =
        s.identity crypto k := by
      intro k
      have hentries := lookup_mapValues (denyEntry token untilMs) s.entries k
      have htombstones := lookup_mapValues (denyTombstone token untilMs) s.tombstones k
      have haccount : ∀ e, (denyEntry token untilMs k e).account = e.account := by
        intro e
        unfold denyEntry
        split
        · rfl
        · rfl
      have hbound : ∀ tomb, (denyTombstone token untilMs k tomb).identityDigest =
          tomb.identityDigest := by
        intro tomb
        unfold denyTombstone
        split
        · rfl
        · rfl
      change (match (HashMap.mapValues (denyEntry token untilMs) s.entries).lookup k with
        | some e => some (accountDigest crypto e.account)
        | none => ((HashMap.mapValues (denyTombstone token untilMs) s.tombstones).lookup k).bind
            Tombstone.identityDigest) = _
      rw [hentries, htombstones, identity]
      cases s.entries.lookup k with
      | some e => exact congrArg (fun account => some (accountDigest crypto account)) (haccount e)
      | none =>
        cases s.tombstones.lookup k with
        | none => rfl
        | some tomb => exact hbound tomb
    rw [hsame] at hd hd'
    exact h.agreed k k' d d' htoken hd hd'
  softRoom := by
    change HashMap.countIf Tombstone.softCapped
      (HashMap.mapValues (denyTombstone token untilMs) s.tombstones) ≤ _
    rw [countIf_mapValues s.tombstones fun k tomb => by
      unfold denyTombstone
      split
      · rfl
      · rfl]
    exact h.softRoom
  quarantineRoom := h.quarantineRoom
  leaseRoom := h.leaseRoom
  groupRoom := h.groupRoom

variable {conflict : IdentityConflictEvidence}

theorem findIdentityConflict_alive {account : Bytes}
    (h : s.findIdentityConflict crypto token account nowMs = some conflict) :
    nowMs ≤ conflict.expiresAtMs := by
  unfold findIdentityConflict at h
  split at h
  · next slot hfound =>
    cases h
    have htest := List.find?_some hfound
    simp only [Bool.and_eq_true, Bool.not_eq_true', decide_eq_false_iff_not, not_lt] at htest
    exact htest.1.2
  · split at h
    · next slot hfound =>
      cases h
      have htest := List.find?_some hfound
      simp only [Bool.and_eq_true, Bool.not_eq_true', decide_eq_false_iff_not, not_lt] at htest
      exact htest.1.2
    · cases h

/-- The account a token is bound to is the one that a row of it names. -/
theorem identityDigestForToken_named {d : Digest} (hkept : Kept crypto clock s)
    (h : s.identityDigestForToken crypto token = some d) :
    ∃ k : OriginKey, k.token = token ∧ s.identity crypto k = some d := by
  unfold identityDigestForToken at h
  split at h
  · next slot hfound =>
    have hslot := HashMap.mem_entries.mp (List.mem_of_find?_eq_some hfound)
    have htoken := List.find?_some hfound
    refine ⟨slot.1, tokenEql_iff.mp htoken, ?_⟩
    rw [identity, hslot]
    exact h
  · obtain ⟨slot, hslot, hbound⟩ := List.exists_of_findSome?_eq_some h
    have htomb := HashMap.mem_entries.mp hslot
    split at hbound
    · next htoken =>
      refine ⟨slot.1, htoken, ?_⟩
      rw [identity, hkept.apart slot.1 slot.2 htomb, htomb]
      exact hbound
    · cases hbound

theorem tombstoneIdentity_named {d : Digest} (hkept : Kept crypto clock s)
    (h : s.tombstoneIdentity crypto key = some d) :
    ∃ k : OriginKey, k.token = key.token ∧ s.identity crypto k = some d := by
  unfold tombstoneIdentity at h
  split at h
  · next old hold =>
    split at h
    · next bound hbound =>
      refine ⟨key, rfl, ?_⟩
      rw [identity, hkept.apart key old hold, hold]
      exact hbound.trans h
    · exact identityDigestForToken_named hkept h
  · split at h
    · next e he =>
      refine ⟨key, rfl, ?_⟩
      rw [identity, he]
      exact h
    · exact identityDigestForToken_named hkept h

variable {routes : HashMap RouteKey RouteValue}

theorem offered_restorable {added : Bool} {reserved : Store}
    (h : Restorable crypto accounts s) (hclock : 0 ≤ nowMs) (hin : signed.transcript ∈ accounts)
    (hinstalls : Installs crypto s signed nowMs)
    (hagreed : ∀ key : OriginKey, key.token = signed.offer.token → key ≠ signed.offer.key → ∀ d,
      s.identity crypto key = some d → d = accountDigest crypto signed.offer.account) :
    Restorable crypto accounts (s.offered crypto signed viaPeer nowMs added reserved routes) := by
  have hentries := lookup_insert_eq s.entries signed.offer.key
  refine h.rewritten .offered ?_ nofun ?_ ?_
  · intro e he
    cases he
    exact ⟨⟨hclock, hinstalls.toAdmitted.vouched.2⟩, nofun, hin⟩
  · intro d hd k d' htoken hk hd'
    have hself :
        (s.offered crypto signed viaPeer nowMs added reserved routes).identity crypto
        signed.offer.key =
        some (accountDigest crypto signed.offer.account) := by
      have hrow :
          (s.offered crypto signed viaPeer nowMs added reserved routes).entries.lookup
          signed.offer.key =
          some (s.offeredEntry signed viaPeer nowMs) := (hentries _ _).trans (if_pos rfl)
      rw [identity, hrow]
      rfl
    rw [hself] at hd
    rw [hagreed k htoken hk d' hd', Option.some.inj hd]
  · change HashMap.countIf Tombstone.softCapped (s.tombstones.erase signed.offer.key) ≤ _
    refine (countIf_le_of_lookup fun k tomb htomb hsoft => ?_).trans h.softRoom
    rw [lookup_erase_eq] at htomb
    split_ifs at htomb
    · exact ⟨tomb, htomb, hsoft⟩

/-- A new tombstone that no live authority stands behind finds the soft cap unreached. -/
theorem softRevoked_le (hroom : s.softCappedTombstones ≤ s.cfg.maxTombstones)
    (hadmits : s.admitsTombstone key = true) : s.softRevoked key ≤ s.cfg.maxTombstones := by
  unfold softRevoked
  split
  · next hnew =>
    rw [Bool.and_eq_true, Bool.not_eq_true'] at hnew
    have hnone : s.tombstones.lookup key = none :=
      Option.not_isSome_iff_eq_none.mp (by rw [hnew.1]; exact Bool.false_ne_true)
    have hlive : (s.entries.lookup key).isSome = false := by
      have hflag := hnew.2
      rw [tombstoneSoftCapped, hnone] at hflag
      simpa using hflag
    exact (admitTombstone_new hnew.1 hlive hadmits).1
  · exact hroom

theorem revoked_restorable (h : Restorable crypto accounts s)
    (hkept : Kept crypto clock s) (hbooks : Books crypto accounts s)
    (hbooks' : Books crypto accounts (s.revoked crypto signed nowMs routes)) (hclock : 0 ≤ nowMs)
    (hadmits : s.admitsTombstone signed.offer.key = true) :
    Restorable crypto accounts (s.revoked crypto signed nowMs routes) := by
  have hentries := lookup_erase_eq s.entries signed.offer.key
  have htombstones := lookup_insert_eq s.tombstones signed.offer.key
  refine h.rewritten .revoked nofun ?_ ?_ ?_
  · intro tomb htomb
    cases htomb
    exact ⟨hclock, nofun⟩
  · intro d hd k d' htoken hk hd'
    have hself : (s.revoked crypto signed nowMs routes).identity crypto signed.offer.key =
        s.tombstoneIdentity crypto signed.offer.key := by
      have hentry : (s.revoked crypto signed nowMs routes).entries.lookup signed.offer.key = none :=
        (hentries _).trans (if_pos rfl)
      have hrow : (s.revoked crypto signed nowMs routes).tombstones.lookup signed.offer.key =
          some (s.revokedTombstone crypto signed nowMs) := (htombstones _ _).trans (if_pos rfl)
      rw [identity, hentry, hrow]
      rfl
    rw [hself] at hd
    obtain ⟨k', htoken', hd⟩ := tombstoneIdentity_named hkept hd
    exact h.agreed k k' d' d (htoken.trans htoken'.symm) hd' hd
  · rw [← hbooks'.soft]
    exact softRevoked_le (hbooks.soft ▸ h.softRoom) hadmits

theorem Kept.entry_free {e : Entry} (hkept : Kept crypto clock s)
    (he : s.entries.lookup key = some e) :
    s.tombstones.lookup key = none :=
  Option.eq_none_iff_forall_ne_some.mpr fun tomb htomb =>
    nomatch (hkept.apart key tomb htomb).symm.trans he

section

variable (h : Restorable crypto accounts s) (hkept : Kept crypto clock s)
include h hkept

theorem refreshed_restorable {entry : Entry}
    (hinj : Distinguishes crypto accounts) (hclock : 0 ≤ nowMs)
    (hin : signed.transcript ∈ accounts) (hadmitted : Admitted crypto s signed nowMs)
    (hentry : s.entries.lookup signed.offer.key = some entry)
    (hdigest : entry.digest crypto = digestBytes crypto signed.transcript) :
    Restorable crypto accounts { s with
      routes := routes, entries :=
        s.entries.insert signed.offer.key { entry with updatedAtMs := nowMs } } := by
  obtain ⟨-, hmarked, hhashed⟩ := h.entries _ entry hentry
  have hsame : entry.wire.offer = signed.offer := offer_of_digest hinj hhashed hin
    (hkept.entries _ entry hentry).vouched.verified hadmitted.verified hdigest
  have hlookup := lookup_insert_eq s.entries signed.offer.key
  refine h.rewritten (.refreshed (hkept.entry_free hentry)) ?_ nofun ?_ h.softRoom
  · intro e he
    cases he
    refine ⟨⟨hclock, ?_⟩, hmarked, hhashed⟩
    change nowMs ≤ entry.wire.offer.expiresAtMs
    rw [hsame]
    exact hadmitted.vouched.2
  · intro d hd k d' htoken hk hd'
    refine h.agreed k signed.offer.key d' d htoken hd' ?_
    have hrow : ({ s with
        routes := routes, entries :=
          s.entries.insert signed.offer.key { entry with updatedAtMs := nowMs } } :
          Store).entries.lookup
          signed.offer.key = some { entry with updatedAtMs := nowMs } :=
            (hlookup _ _).trans (if_pos rfl)
    rw [identity, hrow] at hd
    rw [identity, hentry]
    exact hd

theorem isolated_restorable {existing : SignedOffer} (hclock : 0 ≤ nowMs)
    (hin : signed.transcript ∈ accounts) (hfree : s.hasFullQuarantine signed.offer.token = false)
    (hconflict : s.findIdentityConflict crypto signed.offer.token signed.offer.account nowMs =
      some conflict)
    (hwire : conflict.wire = some existing)
    (hroom : HashMap.count s.quarantines < s.cfg.maxQuarantines) :
    Restorable crypto accounts (s.isolated crypto signed existing untilMs nowMs) := by
  obtain ⟨k, e, he, -, rfl, -⟩ := findIdentityConflict_entry hconflict hwire
  have hold := (h.entries k e he).hashed
  obtain ⟨u, hwithin, hquarantines, -, -, hisolated⟩ :=
    isolated_within crypto s signed e.wire untilMs nowMs
  have hremoved := h.fewer hkept hwithin.fewer
  rw [hisolated]
  have hevidence : RestorableQuarantine accounts (evidence crypto signed e.wire untilMs nowMs) := by
    unfold evidence
    by_cases hfirst : digestBytes crypto e.wire.transcript < digestBytes crypto signed.transcript
    · simp only [decide_eq_true hfirst, if_true]
      exact ⟨hclock, hold, hin⟩
    · simp only [decide_eq_false hfirst, Bool.false_eq_true, if_false]
      exact ⟨hclock, hin, hold⟩
  refine { hremoved with
    quarantines := forall_insert hevidence hremoved.quarantines, quarantineRoom := ?_ }
  change HashMap.count (u.quarantines.insert _ _) ≤ u.cfg.maxQuarantines
  rw [hquarantines, hwithin.cfg, HashMap.count_insert_new (quarantines_none hfree)]
  exact hroom

/-- A committed fence: what is left of the rows, and one fence more. -/
theorem commitGroupRevoke_restorable (hnew : s.groupRevocations.lookup signed.offer.token = none)
    (hroom : HashMap.count s.groupRevocations < s.cfg.maxGroupRevocations) {reserved : Store}
    (hreserved : ∃ index, reserved = { s with accountIndex := index }) :
    Restorable crypto accounts
      (reserved.commitGroupRevoke crypto ⟨signed.offer.token, some signed⟩).2 := by
  obtain ⟨u, hwithin, -, hgroups, -, hcommit⟩ :=
    commitGroupRevoke_within crypto signed.offer.token signed hreserved
  rw [hcommit]
  refine { h.fewer hkept hwithin.fewer with groupRoom := ?_ }
  change HashMap.count (u.groupRevocations.insert _ _) ≤ u.cfg.maxGroupRevocations
  rw [hgroups, hwithin.cfg, HashMap.count_insert_new hnew]
  exact hroom

end

/-- What an OFFER of another account leaves, where deny markers outlast no row. -/
theorem conflict_restorable (viaPeer : NodeId) (alloc : Allocator)
    (conflict : IdentityConflictEvidence) (h : Restorable crypto accounts s)
    (hkept : Kept crypto clock s) (hclock : 0 ≤ nowMs) (hin : signed.transcript ∈ accounts)
    (hadmitted : Admitted crypto s signed nowMs) (hoffer : signed.offer.isOffer)
    (hfree : s.hasFullQuarantine signed.offer.token = false)
    (hconflict : s.findIdentityConflict crypto signed.offer.token signed.offer.account nowMs =
      some conflict)
    (hportable : ∀ conflict, Denies crypto s signed nowMs alloc conflict → ∀ key : OriginKey,
      key.token = signed.offer.token →
      s.Outlasts key (min conflict.expiresAtMs signed.offer.expiresAtMs))
    (ht : (s.applySignedOffer crypto signed viaPeer nowMs alloc).2 =
      s.markTokenDenied signed.offer.token (min conflict.expiresAtMs signed.offer.expiresAtMs)) :
    Restorable crypto accounts (s.applySignedOffer crypto signed viaPeer nowMs alloc).2 := by
  by_cases hcramped : conflict.wire = none ∨ s.cfg.maxQuarantines ≤ HashMap.count s.quarantines ∨
      ¬ (alloc 0 = true ∧ alloc 1 = true ∧ alloc 2 = true)
  · rw [ht]
    refine markTokenDenied_restorable h ?_
      (hportable conflict ⟨hadmitted, hoffer, hfree, hconflict, hcramped⟩)
    exact hclock.trans (le_min (findIdentityConflict_alive hconflict) hadmitted.vouched.2)
  rw [not_or, not_or, not_not, not_le] at hcramped
  obtain ⟨hwire, hroom, hfirst, hsecond, hthird⟩ := hcramped
  obtain ⟨existing, hwire⟩ := Option.ne_none_iff_exists'.mp hwire
  rcases installQuarantine_cases crypto s signed existing conflict.expiresAtMs nowMs alloc with
    ⟨e, -, -, heq⟩ | ⟨-, heq⟩
  · -- with the room and the memory there is no error
    simp only [installQuarantine, if_neg (not_le.mpr hroom), hfirst, hsecond, hthird,
      Bool.not_true, Bool.false_eq_true, or_self, if_false] at heq
    cases (Prod.mk.inj heq).1
  · rw [applySignedOffer_conflict hadmitted hoffer hfree hconflict hwire, heq]
    exact isolated_restorable h hkept hclock hin hfree hconflict hwire hroom

theorem applySignedOffer_restorable (h : Restorable crypto accounts s) (hkept : Kept crypto clock s)
    (hbooks : Books crypto accounts s)
    (hbooks' : Books crypto accounts (s.applySignedOffer crypto signed viaPeer nowMs alloc).2)
    (hinj : Distinguishes crypto accounts) (hclock : 0 ≤ nowMs) (hin : signed.transcript ∈ accounts)
    (hportable : s.Portable crypto (.applySignedOffer signed viaPeer nowMs alloc)) :
    Restorable crypto accounts (s.applySignedOffer crypto signed viaPeer nowMs alloc).2 := by
  have heffect := applySignedOffer_effect crypto s signed viaPeer nowMs alloc
  have hconflicts := fun conflict => conflict_restorable viaPeer alloc conflict h hkept hclock hin
  have hrows : ∀ routes index,
      Restorable crypto accounts { s with routes := routes, accountIndex := index } :=
    fun routes index => { h with }
  revert heffect hbooks' hconflicts
  generalize hleft : (s.applySignedOffer crypto signed viaPeer nowMs alloc).2 = t
  generalize (s.applySignedOffer crypto signed viaPeer nowMs alloc).1 = answer
  intro hbooks' heffect hconflicts
  cases heffect with
  | refused e routes index => exact hrows routes index
  | fenced => exact h
  | barred => exact h
  | denied conflict answer hadmitted hoffer hconflict hfree hanswer =>
    exact hconflicts conflict hadmitted hoffer hfree hconflict hportable.1 rfl
  | isolated conflict existing hadmitted hoffer hconflict hwire hfree hroom =>
    exact isolated_restorable h hkept hclock hin hfree hconflict hwire hroom
  | outranked current digest disposition routes => exact hrows routes s.accountIndex
  | refreshed entry routes hadmitted hentry hrevision hdigest =>
    exact refreshed_restorable h hkept hinj hclock hin hadmitted hentry hdigest
  | offered disposition current added reserved routes room hinstalls hoffer =>
    rcases installUpsert_cases crypto s signed viaPeer nowMs alloc with
      ⟨e, -, -, heq⟩ | ⟨-, added', reserved', routes', room', -, heq⟩
    · rw [applySignedOffer_installs hinstalls hoffer, heq] at hleft
      rw [← hleft]
      exact h
    · exact offered_restorable h hclock hin hinstalls (hportable.2 ⟨hinstalls, hoffer, by rw [heq]⟩)
  | revoked disposition current routes hinstalls hremove hdisposition hadmits =>
    exact revoked_restorable h hkept hbooks hbooks' hclock hadmits
  | groupKnown => exact h
  | groupFenced added reserved room hgroup hverified hvalid hnew hagreed hfree hroom hreserve =>
    exact commitGroupRevoke_restorable h hkept hnew hroom (reserveAccountOrigin_frame hreserve)

theorem revokeGroup_restorable {commit : Bool} (h : Restorable crypto accounts s)
    (hkept : Kept crypto clock s) :
    Restorable crypto accounts (s.revokeGroup crypto signed nowMs alloc commit).2 := by
  obtain ⟨index, heq | ⟨-, -, -, hnew, -, hroom, heq⟩⟩ :=
    revokeGroup_cases crypto s signed nowMs alloc commit
  · rw [heq]
    exact { h with }
  · rw [heq]
    exact commitGroupRevoke_restorable h hkept hnew hroom ⟨index, rfl⟩

theorem applySignedAttachmentLease_restorable {lease : SignedAttachmentLease}
    (h : Restorable crypto accounts s) :
    Restorable crypto accounts (s.applySignedAttachmentLease crypto lease nowMs alloc).2 := by
  rcases applySignedAttachmentLease_cases crypto s lease nowMs alloc with
    hsame | ⟨-, -, l, hput, hl⟩
  · rw [hsame]
    exact h
  rw [hput]
  refine { h with leaseRoom := ?_ }
  change HashMap.count (s.attachmentLeases.insert lease.lease.key l) ≤ s.cfg.maxAttachmentLeases
  cases hcurrent : s.attachmentLeases.lookup lease.lease.key with
  | some current =>
    rw [count_insert_old (by rw [hcurrent]; rfl)]
    exact h.leaseRoom
  | none =>
    rw [HashMap.count_insert_new hcurrent]
    rcases hl with ⟨-, hroom⟩ | ⟨current, hthere, -⟩
    · exact hroom hcurrent
    · exact nomatch hcurrent.symm.trans hthere

/-- A store at a clock that a restore takes back. -/
structure Upgradable (crypto : Crypto) (accounts : Set Bytes) (clock : Int64) (s : Store) :
    Prop where
  started : 0 ≤ clock
  kept : Kept crypto clock s
  inOrder : InOrder crypto accounts s
  restorable : Restorable crypto accounts s

theorem upgradable_init (crypto : Crypto) (accounts : Set Bytes) {clock : Int64} (cfg : Config)
    (hclock : 0 ≤ clock) :
    Upgradable crypto accounts clock (initWithConfig cfg) :=
  ⟨hclock, kept_init crypto clock cfg, (orderly_init crypto accounts cfg).inOrder,
    restorable_init crypto accounts cfg⟩

theorem step_upgradable {call : Call} (h : Upgradable crypto accounts clock s)
    (hinj : Distinguishes crypto accounts)
    (hstart : clock ≤ call.startMs.getD clock) (hend : call.startMs.getD clock ≤ call.clock clock)
    (hown : call.isOwn = true) (hin : call.HashesIn accounts) (hportable : s.Portable crypto call) :
    Upgradable crypto accounts (call.clock clock) (s.step crypto call).2 := by
  obtain ⟨hclock, hkept, horder, hrestorable⟩ := h
  have hpresents : call.Presents accounts := by
    cases call with
    | applySignedOffer signed viaPeer nowMs alloc => exact fun _ => hin.2
    | restore bytes restoreNowMs alloc => cases hown
    | _ => trivial
  have hafter := (step_orderly hinj hpresents ⟨horder, rfl⟩).inOrder
  refine ⟨hclock.trans (hstart.trans hend), step_kept hkept hstart hend hown, hafter, ?_⟩
  cases call with
  | applySignedOffer signed viaPeer nowMs alloc =>
    exact applySignedOffer_restorable hrestorable hkept horder.books hafter.books hinj
      (hclock.trans hstart) hin.1
      hportable
  | groupRevoke signed nowMs alloc commit => exact revokeGroup_restorable hrestorable hkept
  | applySignedAttachmentLease signed nowMs alloc =>
      exact applySignedAttachmentLease_restorable hrestorable
  | sweep nowMs => exact hrestorable.fewer hkept (sweep_fewer s nowMs)
  | removePeer peer => exact { hrestorable with }
  | restore bytes restoreNowMs alloc => cases hown
  | upgrade capturedAtMs restoreNowMs encodeAlloc restoreAlloc =>
    change Restorable crypto accounts (s.replaced _).2
    cases hupgraded : s.upgraded crypto capturedAtMs restoreNowMs encodeAlloc restoreAlloc with
    | error e => exact hrestorable
    | ok t =>
      obtain ⟨u, hto, rfl⟩ := upgraded_restored hkept hupgraded
      exact (hrestorable.fewer hkept (hto.fewer hkept)).fewer (hto.kept hkept)
        (sweep_fewer u restoreNowMs)
  | rehash table i => exact hrestorable.fewer hkept (rehash_within s i table).fewer

/-- The call is one of the store's own, and what it leaves can be restored. -/
def PortableVisit (crypto : Crypto) (v : Visit Store Call Answer) : Prop :=
  v.input.isOwn = true ∧ v.before.Portable crypto v.input

theorem hashesIn_hashed {calls : List Call} {call : Call} (h : call ∈ calls) :
    call.HashesIn (hashed calls) := by
  cases call with
  | applySignedOffer signed viaPeer nowMs alloc =>
    exact ⟨⟨signed, viaPeer, nowMs, alloc, h, .inl rfl⟩,
      ⟨signed, viaPeer, nowMs, alloc, h, .inr rfl⟩⟩
  | _ => trivial

/-- Every store that a run of such calls reaches can be restored. -/
theorem run_upgradable (cfg : Config) {calls : List Call} (hclock : 0 ≤ clock)
    (hinj : Distinguishes crypto (hashed calls)) (htime : InTime clock calls)
    (hportable : ∀ v ∈ visits (fun s => s.step crypto) (initWithConfig cfg) calls,
      PortableVisit crypto v) :
    Upgradable crypto (hashed calls) (lastMs clock calls)
      (final (fun s => s.step crypto) (initWithConfig cfg) calls) := by
  refine timed_invariant (G := fun v => PortableVisit crypto v ∧
    v.input.HashesIn (hashed calls)) ?_ htime ?_
    (upgradable_init crypto (hashed calls) cfg hclock)
  · intro clock s call hstart hend hvisit h
    exact step_upgradable h hinj hstart hend hvisit.1.1 hvisit.2 hvisit.1.2
  · exact fun v hv => ⟨hportable v hv, hashesIn_hashed (visits_input hv)⟩

end Store

end OnyxServer.SessionReplica
