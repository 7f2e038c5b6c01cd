import OnyxServer.SessionReplica.Slots

/-!
# Rows and the clock

What holds of every row a store keeps: it stands under the key its wire names, its wire was
verified and within the bounds when it came, and its times are bounded by the clock.
-/
namespace OnyxServer.SessionReplica

open Lib Text AList

/-- A fact that was verified and within its bounds at some time up to the clock. -/
structure Vouched (crypto : Crypto) (cfg : Config) (clock : Int64) (signed : SignedOffer) :
    Prop where
  verified : verifyOffer crypto signed = .ok ()
  fits : signed.offer.account.length ≤ cfg.maxAccountBytes ∧
    signed.offer.nick.length ≤ cfg.maxNickBytes ∧
    signed.offer.snapshot.length ≤ cfg.maxSnapshotBytes
  lifetime : signed.offer.expiresAtMs.toInt - signed.offer.issuedAtMs.toInt ≤ cfg.maxOfferLifetimeMs
  issued : signed.offer.issuedAtMs.toInt ≤ clock.toInt + cfg.maxFutureSkewMs
  epoch : (signed.offer.revision.epoch.toNat : Int) ≤ clock.toInt + cfg.maxFutureSkewMs

structure LeaseVouched (crypto : Crypto) (cfg : Config) (clock : Int64)
    (signed : SignedAttachmentLease) : Prop where
  verified : verifyAttachmentLease crypto signed = .ok ()
  valid : checkpointLeaseValid cfg signed.lease clock = true

/-- No horizon of a row that is there at the clock lies beyond this. -/
def farthestMs (cfg : Config) (clock : Int64) : Int :=
  max (clock.toInt + cfg.tombstoneTtlMs)
    (clock.toInt + cfg.maxOfferLifetimeMs + cfg.maxFutureSkewMs)

section Checked

variable {crypto : Crypto} {cfg : Config} {clock clock' : Int64} {signed : SignedOffer}
    {lease : SignedAttachmentLease}

theorem Vouched.later (h : Vouched crypto cfg clock signed) (hclock : clock ≤ clock') :
    Vouched crypto cfg clock' signed := by
  have hle := Int64.le_iff_toInt_le.mp hclock
  exact ⟨h.verified, h.fits, h.lifetime, h.issued.trans (by omega), h.epoch.trans (by omega)⟩

theorem LeaseVouched.later (h : LeaseVouched crypto cfg clock lease) (hclock : clock ≤ clock') :
    LeaseVouched crypto cfg clock' lease := by
  have hle := Int64.le_iff_toInt_le.mp hclock
  refine ⟨h.verified, ?_⟩
  have hvalid := h.valid
  simp only [checkpointLeaseValid, decide_eq_true_eq] at hvalid ⊢
  obtain ⟨hissued, hlow, hhigh, hepoch, hnear, hnear'⟩ := hvalid
  exact ⟨hissued, hlow, hhigh, hepoch, hnear.trans (by omega), hnear'.trans (by omega)⟩

theorem farthestMs_mono (hclock : clock ≤ clock') :
    farthestMs cfg clock ≤ farthestMs cfg clock' := by
  have hle := Int64.le_iff_toInt_le.mp hclock
  unfold farthestMs
  omega

theorem clock_le_farthestMs : clock.toInt ≤ farthestMs cfg clock := by
  unfold farthestMs
  omega

theorem Vouched.expires_le (h : Vouched crypto cfg clock signed) :
    signed.offer.expiresAtMs.toInt ≤ farthestMs cfg clock := by
  have hlifetime := h.lifetime
  have hissued := h.issued
  unfold farthestMs
  omega

theorem validateLifetime_bounds {issuedAtMs expiresAtMs nowMs : Int64}
    {maxLifetimeMs maxFutureSkewMs : Nat}
    (h : validateLifetime issuedAtMs expiresAtMs nowMs maxLifetimeMs maxFutureSkewMs ≠
      .error .invalidLifetime) :
    0 ≤ issuedAtMs ∧ issuedAtMs ≤ expiresAtMs ∧
    expiresAtMs.toInt - issuedAtMs.toInt ≤ maxLifetimeMs ∧
      issuedAtMs.toInt ≤ nowMs.toInt + maxFutureSkewMs ∧
      (validateLifetime issuedAtMs expiresAtMs nowMs maxLifetimeMs maxFutureSkewMs = .ok () →
        nowMs ≤ expiresAtMs) := by
  unfold validateLifetime at h ⊢
  split at h
  · exact absurd rfl h
  rename_i htimes
  split at h
  · exact absurd rfl h
  rename_i hspan
  split at h
  · exact absurd rfl h
  rename_i hskew
  push Not at htimes
  rw [if_neg (not_or.mpr ⟨not_lt.mpr htimes.1, not_lt.mpr htimes.2⟩), if_neg hspan, if_neg hskew]
  refine ⟨htimes.1, htimes.2, not_lt.mp hspan, by omega, fun hok => ?_⟩
  split_ifs at hok
  · next halive => exact not_lt.mp halive

theorem validateOfferForStore_ok {s : Store} {nowMs : Int64}
    (hverified : verifyOffer crypto signed = .ok ())
    (h : s.validateOfferForStore signed.offer nowMs = .ok ()) :
    Vouched crypto s.cfg nowMs signed ∧
      (signed.offer.operation ≠ .groupRevoke → nowMs ≤ signed.offer.expiresAtMs) := by
  unfold Store.validateOfferForStore at h
  split at h
  · cases h
  split at h
  · cases h
  rename_i hfits
  push Not at hfits
  have hvouched : validateLifetime signed.offer.issuedAtMs signed.offer.expiresAtMs nowMs
        s.cfg.maxOfferLifetimeMs s.cfg.maxFutureSkewMs ≠ .error .invalidLifetime →
      revisionWithin signed.offer.revision nowMs s.cfg.maxFutureSkewMs = true →
      Vouched crypto s.cfg nowMs signed := by
    intro hlifetime hepoch
    obtain ⟨-, -, hspan, hissued, -⟩ := validateLifetime_bounds hlifetime
    simp only [revisionWithin, Bool.and_eq_true, Bool.not_eq_true',
      decide_eq_false_iff_not] at hepoch
    exact ⟨hverified, hfits, hspan, hissued, not_lt.mp hepoch.2⟩
  split at h
  · cases h
  · next hlifetime =>
    split_ifs at h with hgroup
    · next hepoch =>
      exact ⟨hvouched (by rw [hlifetime]; nofun) (by simpa using hepoch),
        fun hsingle => absurd hsingle hgroup⟩
  · next hlifetime =>
    split_ifs at h with hepoch
    have hgood : validateLifetime signed.offer.issuedAtMs signed.offer.expiresAtMs nowMs
        s.cfg.maxOfferLifetimeMs s.cfg.maxFutureSkewMs ≠
          .error .invalidLifetime := by rw [hlifetime]; nofun
    obtain ⟨-, -, -, -, halive⟩ := validateLifetime_bounds hgood
    exact ⟨hvouched hgood (by simpa using hepoch), fun _ => halive hlifetime⟩

theorem validateLeaseForStore_ok {s : Store} {nowMs : Int64}
    (hverified : verifyAttachmentLease crypto lease = .ok ())
    (h : s.validateLeaseForStore lease.lease nowMs = .ok ()) :
    LeaseVouched crypto s.cfg nowMs lease := by
  refine ⟨hverified, ?_⟩
  unfold Store.validateLeaseForStore at h
  split at h
  · cases h
  split at h
  · cases h
  rename_i lifetime hlifetime
  split_ifs at h with _ hepoch hissued
  simp only [revisionWithin, Bool.not_eq_true', Bool.and_eq_false_iff, Bool.not_eq_false',
    decide_eq_true_eq, not_or, not_lt] at hepoch
  obtain ⟨hlow, horder, hspan, hskew, -⟩ := validateLifetime_bounds hlifetime
  have horder' := Int64.le_iff_toInt_le.mp horder
  simp only [checkpointLeaseValid, decide_eq_true_eq]
  exact ⟨hlow, by omega, hspan, by omega, hskew, hepoch.2⟩

end Checked

section Rows

variable (crypto : Crypto) (cfg : Config) (clock : Int64)

structure KeptEntry (key : OriginKey) (e : Entry) : Prop where
  keyed : e.wire.offer.key = key
  isOffer : e.wire.offer.isOffer
  vouched : Vouched crypto cfg clock e.wire
  updated : e.updatedAtMs ≤ clock
  marked : e.authorityExpiresHighWater.toInt ≤ farthestMs cfg clock

structure KeptTombstone (key : OriginKey) (t : Tombstone) : Prop where
  keyed : t.wire.offer.key = key
  remove : t.wire.offer.operation = .remove
  vouched : Vouched crypto cfg t.removedAtMs t.wire
  removed : t.removedAtMs ≤ clock
  alive : t.removedAtMs ≤ t.offerExpiresAtMs
  retained : t.retainUntilMs.toInt ≤ farthestMs cfg t.removedAtMs
  unbound : t.identityDigest = none → t.softCapped = true

structure KeptQuarantine (token : Token) (q : Quarantine) : Prop where
  first : Vouched crypto cfg clock q.firstWire ∧ q.firstWire.offer.isOffer ∧
    q.firstWire.offer.token = token
  second : Vouched crypto cfg clock q.secondWire ∧ q.secondWire.offer.isOffer ∧
    q.secondWire.offer.token = token
  differ : q.firstWire.offer.account ≠ q.secondWire.offer.account
  ordered : digestBytes crypto q.firstWire.transcript ≤ digestBytes crypto q.secondWire.transcript
  expires : q.expiresAtMs = min q.firstWire.offer.expiresAtMs q.secondWire.offer.expiresAtMs
  detected : q.detectedAtMs ≤ clock
  alive : q.detectedAtMs ≤ q.expiresAtMs

structure KeptLease (key : OriginKey) (l : AttachmentLeaseEntry) : Prop where
  keyed : l.wire.lease.key = key
  vouched : LeaseVouched crypto cfg clock l.wire
  witness : ∀ m, l.conflictWire = some m → l.conflicted = true ∧ LeaseVouched crypto cfg clock m ∧
    m.lease.key = key ∧ m.lease.revision = l.revision ∧
      digestBytes crypto m.transcript ≠ l.digest crypto

structure KeptGroup (token : Token) (g : GroupRevocation) : Prop where
  keyed : g.wire.offer.token = token
  group : g.wire.offer.operation = .groupRevoke
  vouched : Vouched crypto cfg clock g.wire

end Rows

section Later

variable {crypto : Crypto} {cfg : Config} {clock clock' : Int64} {key : OriginKey} {token : Token}

theorem KeptEntry.later {e : Entry} (h : KeptEntry crypto cfg clock key e)
    (hclock : clock ≤ clock') :
    KeptEntry crypto cfg clock' key e where
  keyed := h.keyed
  isOffer := h.isOffer
  vouched := h.vouched.later hclock
  updated := h.updated.trans hclock
  marked := h.marked.trans (farthestMs_mono hclock)

theorem KeptTombstone.later {t : Tombstone} (h : KeptTombstone crypto cfg clock key t)
    (hclock : clock ≤ clock') :
    KeptTombstone crypto cfg clock' key t :=
  { h with removed := h.removed.trans hclock }

theorem KeptQuarantine.later {q : Quarantine} (h : KeptQuarantine crypto cfg clock token q)
    (hclock : clock ≤ clock') :
    KeptQuarantine crypto cfg clock' token q where
  first := ⟨h.first.1.later hclock, h.first.2⟩
  second := ⟨h.second.1.later hclock, h.second.2⟩
  differ := h.differ
  ordered := h.ordered
  expires := h.expires
  detected := h.detected.trans hclock
  alive := h.alive

theorem KeptLease.later {l : AttachmentLeaseEntry} (h : KeptLease crypto cfg clock key l)
    (hclock : clock ≤ clock') :
    KeptLease crypto cfg clock' key l where
  keyed := h.keyed
  vouched := h.vouched.later hclock
  witness m hm := by
    obtain ⟨hflag, hvouched, hrest⟩ := h.witness m hm
    exact ⟨hflag, hvouched.later hclock, hrest⟩

theorem KeptGroup.later {g : GroupRevocation} (h : KeptGroup crypto cfg clock token g)
    (hclock : clock ≤ clock') :
    KeptGroup crypto cfg clock' token g :=
  { h with vouched := h.vouched.later hclock }

end Later

namespace Store

/-- The rows of a store at a clock, and which of them exclude each other. -/
structure Kept (crypto : Crypto) (clock : Int64) (s : Store) : Prop where
  entries : ∀ k e, s.entries.lookup k = some e → KeptEntry crypto s.cfg clock k e
  tombstones : ∀ k t, s.tombstones.lookup k = some t → KeptTombstone crypto s.cfg clock k t
  quarantines : ∀ token q, s.quarantines.lookup token = some q →
    KeptQuarantine crypto s.cfg clock token q
  leases : ∀ k l, s.attachmentLeases.lookup k = some l → KeptLease crypto s.cfg clock k l
  groups : ∀ token g, s.groupRevocations.lookup token = some g →
    KeptGroup crypto s.cfg clock token g
  apart : ∀ k t, s.tombstones.lookup k = some t → s.entries.lookup k = none
  isolated : ∀ k q, s.quarantines.lookup k.token = some q →
    s.entries.lookup k = none ∧ s.tombstones.lookup k = none
  fenced : ∀ k g, s.groupRevocations.lookup k.token = some g →
    s.entries.lookup k = none ∧ s.tombstones.lookup k = none ∧ s.attachmentLeases.lookup k = none
  unquarrelled : ∀ token g, s.groupRevocations.lookup token = some g →
    s.quarantines.lookup token = none

variable {crypto : Crypto} {clock clock' : Int64} {s t : Store} {key : OriginKey} {token : Token}
variable {signed : SignedOffer} {viaPeer : NodeId} {nowMs : Int64} {alloc : Allocator}

theorem kept_init (crypto : Crypto) (clock : Int64) (cfg : Config) :
    Kept crypto clock (initWithConfig cfg) where
  entries k _ h := absurd ((lookup_empty k).symm.trans h) nofun
  tombstones k _ h := absurd ((lookup_empty k).symm.trans h) nofun
  quarantines token _ h := absurd ((lookup_empty token).symm.trans h) nofun
  leases k _ h := absurd ((lookup_empty k).symm.trans h) nofun
  groups token _ h := absurd ((lookup_empty token).symm.trans h) nofun
  apart k _ h := absurd ((lookup_empty k).symm.trans h) nofun
  isolated k _ h := absurd ((lookup_empty k.token).symm.trans h) nofun
  fenced k _ h := absurd ((lookup_empty k.token).symm.trans h) nofun
  unquarrelled token _ h := absurd ((lookup_empty token).symm.trans h) nofun

/-- The deny markers apart, every row of `t` is one of `s`. -/
structure Thinned (s t : Store) : Prop where
  cfg : t.cfg = s.cfg
  entries : ∀ k e, t.entries.lookup k = some e →
    ∃ marker, s.entries.lookup k = some { e with quarantineUntilMs := marker }
  tombstones : ∀ k tomb, t.tombstones.lookup k = some tomb →
    ∃ marker, s.tombstones.lookup k = some { tomb with quarantineUntilMs := marker }
  quarantines : ∀ token q, t.quarantines.lookup token = some q → s.quarantines.lookup token = some q
  leases : ∀ k l, t.attachmentLeases.lookup k = some l → s.attachmentLeases.lookup k = some l
  groups : ∀ token g, t.groupRevocations.lookup token = some g →
    s.groupRevocations.lookup token = some g

theorem Thinned.entries_none (h : Thinned s t) (hnone : s.entries.lookup key = none) :
    t.entries.lookup key = none := by
  refine Option.eq_none_iff_forall_ne_some.mpr fun e he => ?_
  obtain ⟨marker, hold⟩ := h.entries key e he
  exact nomatch hnone.symm.trans hold

theorem Thinned.tombstones_none (h : Thinned s t) (hnone : s.tombstones.lookup key = none) :
    t.tombstones.lookup key = none := by
  refine Option.eq_none_iff_forall_ne_some.mpr fun tomb htomb => ?_
  obtain ⟨marker, hold⟩ := h.tombstones key tomb htomb
  exact nomatch hnone.symm.trans hold

theorem Kept.thinned (h : Kept crypto clock s) (hclock : clock ≤ clock') (hthin : Thinned s t) :
    Kept crypto clock' t where
  entries k e he := by
    obtain ⟨marker, hold⟩ := hthin.entries k e he
    rw [hthin.cfg]
    obtain ⟨hkey, hoffer, hvouched, hupdated, hmarked⟩ := (h.entries k _ hold).later hclock
    exact ⟨hkey, hoffer, hvouched, hupdated, hmarked⟩
  tombstones k tomb htomb := by
    obtain ⟨marker, hold⟩ := hthin.tombstones k tomb htomb
    rw [hthin.cfg]
    obtain ⟨hkey, hremove, hvouched, hremoved, halive, hretained, hunbound⟩ :=
      (h.tombstones k _ hold).later hclock
    exact ⟨hkey, hremove, hvouched, hremoved, halive, hretained, hunbound⟩
  quarantines token q hq := by
    rw [hthin.cfg]
    exact (h.quarantines token q (hthin.quarantines token q hq)).later hclock
  leases k l hl := by
    rw [hthin.cfg]
    exact (h.leases k l (hthin.leases k l hl)).later hclock
  groups token g hg := by
    rw [hthin.cfg]
    exact (h.groups token g (hthin.groups token g hg)).later hclock
  apart k tomb htomb := by
    obtain ⟨marker, hold⟩ := hthin.tombstones k tomb htomb
    exact hthin.entries_none (h.apart k _ hold)
  isolated k q hq := by
    obtain ⟨hentry, htomb⟩ := h.isolated k q (hthin.quarantines _ q hq)
    exact ⟨hthin.entries_none hentry, hthin.tombstones_none htomb⟩
  fenced k g hg := by
    obtain ⟨hentry, htomb, hlease⟩ := h.fenced k g (hthin.groups _ g hg)
    refine ⟨hthin.entries_none hentry, hthin.tombstones_none htomb, ?_⟩
    refine Option.eq_none_iff_forall_ne_some.mpr fun l hl => ?_
    exact nomatch hlease.symm.trans (hthin.leases k l hl)
  unquarrelled token g hg := by
    refine Option.eq_none_iff_forall_ne_some.mpr fun q hq => ?_
    exact nomatch (h.unquarrelled token g (hthin.groups token g hg)).symm.trans
      (hthin.quarantines token q hq)

/-- Every row of `t` is a row of `s`. -/
structure Within (s t : Store) : Prop where
  cfg : t.cfg = s.cfg
  entries : ∀ k e, t.entries.lookup k = some e → s.entries.lookup k = some e
  tombstones : ∀ k tomb, t.tombstones.lookup k = some tomb → s.tombstones.lookup k = some tomb
  quarantines : ∀ token q, t.quarantines.lookup token = some q → s.quarantines.lookup token = some q
  leases : ∀ k l, t.attachmentLeases.lookup k = some l → s.attachmentLeases.lookup k = some l
  groups : ∀ token g, t.groupRevocations.lookup token = some g →
    s.groupRevocations.lookup token = some g

theorem Within.thinned (h : Within s t) : Thinned s t where
  cfg := h.cfg
  entries k e he := ⟨e.quarantineUntilMs, h.entries k e he⟩
  tombstones k tomb htomb := ⟨tomb.quarantineUntilMs, h.tombstones k tomb htomb⟩
  quarantines := h.quarantines
  leases := h.leases
  groups := h.groups

end Store

end OnyxServer.SessionReplica
