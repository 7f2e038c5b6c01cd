import OnyxServer.SessionReplica.Restorable

/-!
# Every record is taken back

A store that can be restored gives an image whose records all pass: each of the five kinds is
checked by its own rules, and the rows that were read before it stand in no record's way.
-/
namespace OnyxServer.SessionReplica

open Lib Text AList

theorem wire_length {α : Type} (signed : Signed α) :
    signed.wire.length = signed.transcript.length + signatureWireLen := by
  rw [Signed.wire, List.length_append, List.length_append, signed.signer.property,
    signed.signature.property]
  rfl

namespace Reader

theorem take_consumes (n : Nat) : Consumes n (take n) := consumes_takeBytes DecodeError.truncated n
theorem readU64_consumes : Consumes 8 readU64 := (take_consumes 8).map _
theorem readI64_consumes : Consumes 8 readI64 := (take_consumes 8).map _

theorem readRevision_consumes : Consumes (8 + (8 + (8 + 0))) readRevision :=
  readU64_consumes.bind fun _ => readU64_consumes.bind fun _ => readU64_consumes.bind fun _ =>
    consumes_pure _

theorem expect_consumes (magic : Bytes) : Consumes (magic.length + 0) (expect magic) := by
  refine (take_consumes magic.length).bind fun found => ?_
  split
  · exact consumes_pure _
  · exact consumes_throw _ _

end Reader

open Reader

theorem readAttachmentLease_consumes : Consumes 60 readAttachmentLease := by
  change Consumes ((4 + 0) + (16 + ((8 + (8 + (8 + 0))) + (8 + (8 + 0))))) readAttachmentLease
  refine (expect_consumes attachmentLeaseMagic).bind fun _ =>
    ((take_consumes 16).map _).bind fun _ =>
    readRevision_consumes.bind fun _ => readI64_consumes.bind fun _ =>
      readI64_consumes.bind fun _ => ?_
  simp only
  split
  · exact consumes_pure _
  · exact consumes_throw _ _

variable {crypto : Crypto} {accounts : Set Bytes} {cfg : Config}
    {clock capturedAtMs restoreNowMs : Int64}
variable {signed : SignedOffer} {lease : SignedAttachmentLease}

theorem verifyAttachmentLease_length (h : verifyAttachmentLease crypto lease = .ok ()) :
    lease.transcript.length = 60 := by
  unfold verifyAttachmentLease at h
  split at h
  · cases h
  rename_i projected rest hread
  split at h
  · cases h
  · next hsame =>
    push Not at hsame
    rw [readAttachmentLease_consumes _ _ _ hread, hsame.1]

theorem offer_wire_bounds (signed : SignedOffer) :
    0 < signed.wire.length ∧ signed.wire.length ≤ maxSignedPayloadLen := by
  refine ⟨?_, signed.fits⟩
  rw [wire_length, signatureWireLen, signatureLen]
  omega

theorem lease_wire_bounds (h : verifyAttachmentLease crypto lease = .ok ()) :
    0 < lease.wire.length ∧ lease.wire.length ≤ maxSignedPayloadLen := by
  rw [wire_length, verifyAttachmentLease_length h]
  decide

namespace Store

open CheckpointReader

variable {s t u self : Store} {key : OriginKey} {token : Token} {alloc : Allocator} {n : Nat}

theorem checkWire_bounds {wire : Bytes} (h : 0 < wire.length ∧ wire.length ≤ maxSignedPayloadLen) :
    checkWire wire = .ok wire := by
  rw [checkWire, if_neg]
  omega

theorem validateCheckpointSignedOffer_vouched {operation : OfferOperation}
    (hvouched : Vouched crypto self.cfg clock signed)
    (hcaptured : clock ≤ capturedAtMs) (hop : signed.offer.operation.restoresAs operation = true) :
    self.validateCheckpointSignedOffer crypto signed.wire operation capturedAtMs = .ok signed := by
  obtain ⟨hverified, ⟨haccount, hnick, hsnapshot⟩, hlifetime, hissued, hepoch⟩ :=
    hvouched.later hcaptured
  have horder := Int64.le_iff_toInt_le.mp (validateOfferShape_times signed.shape).2
  simp only [validateCheckpointSignedOffer, decodeOffer_wire, hverified, hop]
  rw [if_neg, if_neg, if_neg]
  · omega
  · omega
  · simp only [Bool.not_true, Bool.false_eq_true, false_or]
    omega

theorem validateOfferForStore_group (hvouched : Vouched crypto self.cfg clock signed)
    (hcaptured : clock ≤ capturedAtMs)
    (hgroup : signed.offer.operation = .groupRevoke) :
    self.validateOfferForStore signed.offer capturedAtMs = .ok () := by
  obtain ⟨-, ⟨haccount, hnick, hsnapshot⟩, hlifetime, hissued, hepoch⟩ := hvouched.later hcaptured
  obtain ⟨hlow, horder⟩ := validateOfferShape_times signed.shape
  have hcanonical : signed.offer.revision.isCanonical = true := by
    have hshape := signed.shape
    unfold validateOfferShape at hshape
    split at hshape
    · cases hshape
    · next hbad =>
      push Not at hbad
      simpa using hbad.2
  have hwithin : revisionWithin signed.offer.revision capturedAtMs self.cfg.maxFutureSkewMs =
      true := by
    rw [revisionWithin, hcanonical, decide_eq_false (not_lt.mpr hepoch)]
    rfl
  simp only [validateOfferForStore, signed.shape]
  rw [if_neg (by omega)]
  unfold validateLifetime
  rw [if_neg (not_or.mpr ⟨not_lt.mpr hlow, not_lt.mpr horder⟩), if_neg (not_lt.mpr hlifetime),
    if_neg (by omega)]
  by_cases hexpired : signed.offer.expiresAtMs < capturedAtMs
  · simp only [if_pos hexpired, hgroup, hwithin, ne_eq, not_true_eq_false, if_false, Bool.not_true,
      Bool.false_eq_true]
  · simp only [if_neg hexpired, hwithin, Bool.not_true, Bool.false_eq_true, if_false]

theorem reserveAccountOrigin_succeeds (crypto : Crypto) (self : Store) (account : Bytes)
    (key : OriginKey) (halloc : ∀ n, alloc n = true) :
    ∃ added reserved, self.reserveAccountOrigin crypto account key alloc =
      some (added, reserved) := by
  simp only [reserveAccountOrigin, halloc, Bool.not_true, Bool.false_eq_true, or_self, if_false]
  split
  · split
    · exact ⟨_, _, rfl⟩
    · exact ⟨_, _, rfl⟩
  · exact ⟨_, _, rfl⟩

/-- A key without an entry is new to the index. -/
theorem reserveAccountOrigin_new (account : Bytes) (hbooks : Books crypto accounts self)
    (h0 : key.originNode ≠ 0)
    (hnone : self.entries.lookup key = none) (halloc : ∀ n, alloc n = true) :
    ∃ reserved, self.reserveAccountOrigin crypto account key alloc = some (true, reserved) := by
  obtain ⟨added, reserved, hreserve⟩ := reserveAccountOrigin_succeeds crypto self account key halloc
  rcases reserveAccountOrigin_some hreserve with ⟨-, -, hmem⟩ | ⟨rfl, -⟩
  · exact absurd ((hbooks.mirrors.mem_iff _ _).mp hmem) (owes_none h0 hnone)
  · exact ⟨reserved, hreserve⟩

/-- A time that is not negative, at or before a limit, and not ahead of the clock. -/
theorem checkpointTimes {valueMs limitMs : Int64} (hlow : 0 ≤ valueMs) (hlimit : valueMs ≤ limitMs)
    (hclock : valueMs ≤ capturedAtMs) (skew : Nat) :
    checkpointTimeAtOrBefore valueMs limitMs = true ∧
    checkpointTimeNearCapture valueMs capturedAtMs skew = true := by
  have hle := Int64.le_iff_toInt_le.mp hclock
  exact ⟨decide_eq_true ⟨hlow, hlimit⟩, decide_eq_true (by omega)⟩

theorem checkpointOptionalUntilValid_marked {marker : Option Int64} {limitMs : Int64}
    (h : ∀ untilMs, marker = some untilMs → 0 ≤ untilMs ∧ untilMs ≤ limitMs) :
    checkpointOptionalUntilValid marker limitMs = true := by
  cases marker with
  | none => rfl
  | some untilMs => exact decide_eq_true (h untilMs rfl)

theorem isOffer_restoresAs {offer : Offer} (h : offer.isOffer) :
    offer.operation.restoresAs .upsert = true := by
  rcases h with h | h
  · rw [h]
    rfl
  · rw [h]
    rfl

theorem putEntry_succeeds {e : Entry} (hkept : KeptEntry crypto self.cfg clock key e)
    (hrow : RestorableEntry accounts e)
    (hcaptured : clock ≤ capturedAtMs) (hbooks : Books crypto accounts self)
    (hentry : self.entries.lookup key = none) (htomb : self.tombstones.lookup key = none)
    (halloc : ∀ n, alloc n = true) :
    ∃ next, putEntry crypto capturedAtMs alloc self e = .ok next := by
  obtain ⟨htime, hnear⟩ := checkpointTimes hrow.updated.1 hrow.updated.2
    (hkept.updated.trans hcaptured) self.cfg.maxFutureSkewMs
  have h0 := e.wire.key_origin
  obtain rfl := hkept.keyed
  obtain ⟨reserved, hreserve⟩ :=
    reserveAccountOrigin_new e.wire.offer.account hbooks h0 hentry fun n => halloc (1 + n)
  have hcheck : checkWire e.wire.wire = .ok e.wire.wire :=
    checkWire_bounds (offer_wire_bounds e.wire)
  have hvalid :=
    validateCheckpointSignedOffer_vouched hkept.vouched hcaptured (isOffer_restoresAs hkept.isOffer)
  have hmarked := checkpointOptionalUntilValid_marked hrow.marked
  have hfresh : ¬ (e.wire.offer.key ∈ self.entries ∨ e.wire.offer.key ∈ self.tombstones) :=
    not_or.mpr ⟨lookup_eq_none.mp hentry, lookup_eq_none.mp htomb⟩
  rw [Entry.expiresAtMs] at htime hmarked
  unfold putEntry
  rw [hcheck]
  change ∃ next, restoreCheckpointEntry crypto self e.wire.wire e.updatedAtMs e.quarantineUntilMs
    capturedAtMs alloc = .ok next
  simp only [restoreCheckpointEntry, hvalid, htime, hnear, hmarked, Bool.not_true,
    Bool.false_eq_true, or_self, if_false, if_neg hfresh, halloc 0, hreserve]
  exact ⟨_, rfl⟩

theorem putTombstone_succeeds {tomb : Tombstone}
    (hkept : KeptTombstone crypto self.cfg clock key tomb)
    (hrow : RestorableTombstone tomb) (hcaptured : clock ≤ capturedAtMs)
    (hentry : self.entries.lookup key = none) (htomb : self.tombstones.lookup key = none)
    (hroom : tomb.identityDigest = none → self.softCappedTombstones < self.cfg.maxTombstones)
    (halloc : ∀ n, alloc n = true) : ∃ next, putTombstone crypto capturedAtMs alloc self tomb =
      .ok next := by
  obtain ⟨htime, hnear⟩ := checkpointTimes hrow.removed hkept.alive
    (hkept.removed.trans hcaptured) self.cfg.maxFutureSkewMs
  obtain rfl := hkept.keyed
  have hcheck : checkWire tomb.wire.wire = .ok tomb.wire.wire :=
    checkWire_bounds (offer_wire_bounds tomb.wire)
  have hop : tomb.wire.offer.operation.restoresAs .remove = true := by
    rw [hkept.remove]
    rfl
  have hvalid :=
    validateCheckpointSignedOffer_vouched hkept.vouched (hkept.removed.trans hcaptured) hop
  have hmarked := checkpointOptionalUntilValid_marked hrow.marked
  have hfresh : ¬ (tomb.wire.offer.key ∈ self.entries ∨ tomb.wire.offer.key ∈ self.tombstones) :=
    not_or.mpr ⟨lookup_eq_none.mp hentry, lookup_eq_none.mp htomb⟩
  have hcapped :
      ¬ (tomb.identityDigest.isNone = true ∧
        self.cfg.maxTombstones ≤ self.softCappedTombstones) := by
    rintro ⟨hnone, hfull⟩
    exact absurd (hroom (Option.isNone_iff_eq_none.mp hnone)) (not_lt.mpr hfull)
  rw [Tombstone.offerExpiresAtMs] at htime hmarked
  unfold putTombstone
  rw [hcheck]
  change ∃ next,
    restoreCheckpointTombstone crypto self tomb.wire.wire tomb.removedAtMs tomb.identityDigest
    tomb.quarantineUntilMs capturedAtMs alloc = .ok next
  simp only [restoreCheckpointTombstone, hvalid, htime, hnear, hmarked, Bool.not_true,
    Bool.false_eq_true, or_self, if_false, if_neg hfresh, if_neg hcapped, halloc]
  exact ⟨_, rfl⟩

/-- A token without rows has no state in the image. -/
theorem hasAnyCheckpointState_gone
    (h : ∀ k : OriginKey, k.token = token → self.entries.lookup k = none ∧
      self.tombstones.lookup k = none) :
    self.hasAnyCheckpointState token = false := by
  unfold hasAnyCheckpointState
  rw [Bool.or_eq_false_iff, List.any_eq_false, List.any_eq_false]
  refine ⟨fun k hk htoken => ?_, fun k hk htoken => ?_⟩
  · rw [HashMap.mem_keys_iff, (h k (tokenEql_iff.mp htoken)).1] at hk
    cases hk
  · rw [HashMap.mem_keys_iff, (h k (tokenEql_iff.mp htoken)).2] at hk
    cases hk

theorem putQuarantine_succeeds {q : Quarantine}
    (hkept : KeptQuarantine crypto self.cfg clock token q)
    (hrow : RestorableQuarantine accounts q) (hinj : Distinguishes crypto accounts)
    (hcaptured : clock ≤ capturedAtMs) (hfree : self.quarantines.lookup token = none)
    (hgone : ∀ k : OriginKey, k.token = token → self.entries.lookup k = none ∧
      self.tombstones.lookup k = none)
    (halloc : ∀ n, alloc n = true) : ∃ next, putQuarantine crypto capturedAtMs alloc self q =
      .ok next := by
  obtain ⟨⟨hfirst, hoffer, htoken⟩, ⟨hsecond, hoffer', htoken'⟩, hdiffer, hordered, hexpires,
    hdetected, halive⟩ := hkept
  obtain ⟨htime, hnear⟩ := checkpointTimes hrow.detected halive
    (hdetected.trans hcaptured) self.cfg.maxFutureSkewMs
  have hstrict : digestBytes crypto q.firstWire.transcript <
      digestBytes crypto q.secondWire.transcript := by
    refine lt_of_le_of_ne hordered fun hdigest => hdiffer ?_
    rw [offer_of_digest hinj hrow.hashed.1 hrow.hashed.2 hfirst.verified hsecond.verified hdigest]
  have hcheck : checkWire q.firstWire.wire = .ok q.firstWire.wire :=
    checkWire_bounds (offer_wire_bounds q.firstWire)
  have hcheck' : checkWire q.secondWire.wire = .ok q.secondWire.wire :=
    checkWire_bounds (offer_wire_bounds q.secondWire)
  have hvalid := validateCheckpointSignedOffer_vouched hfirst hcaptured (isOffer_restoresAs hoffer)
  have hvalid' :=
    validateCheckpointSignedOffer_vouched hsecond hcaptured (isOffer_restoresAs hoffer')
  have hstate : self.hasAnyCheckpointState q.firstWire.offer.token = false := by
    rw [htoken]
    exact hasAnyCheckpointState_gone hgone
  have hquarantine : self.hasFullQuarantine q.firstWire.offer.token = false := by
    rw [htoken, hasFullQuarantine, hfree]
    rfl
  have hsame : ¬ (q.firstWire.offer.token ≠ q.secondWire.offer.token ∨
      q.firstWire.offer.account = q.secondWire.offer.account) := by
    rw [htoken, htoken']
    exact not_or.mpr ⟨not_not.mpr rfl, hdiffer⟩
  unfold putQuarantine
  rw [hcheck, hcheck']
  change ∃ next,
    restoreCheckpointQuarantine crypto self q.firstWire.wire q.secondWire.wire q.expiresAtMs
    q.detectedAtMs
    capturedAtMs alloc = .ok next
  simp only [restoreCheckpointQuarantine, hvalid, hvalid', if_neg hsame,
    if_neg (not_not.mpr hstrict), htime, hnear,
    hstate, hquarantine, halloc, Bool.not_true, Bool.false_eq_true, or_self, if_false]
  rw [if_neg (by simp [hexpires])]
  exact ⟨_, rfl⟩

theorem verifiedLease_own_ok (h : verifyAttachmentLease crypto lease = .ok ()) :
    verifiedLease crypto lease.wire = .ok lease := by
  simp only [verifiedLease, decodeAttachmentLease_wire, h]

theorem putAttachmentLease_succeeds {l : AttachmentLeaseEntry}
    (hkept : KeptLease crypto self.cfg clock key l)
    (hcaptured : clock ≤ capturedAtMs) (hfree : self.attachmentLeases.lookup key = none)
    (halloc : ∀ n, alloc n = true) : ∃ next, putAttachmentLease crypto capturedAtMs alloc self l =
      .ok next := by
  obtain ⟨hkeyed, hvouched, hwitness⟩ := hkept
  have hlater := hvouched.later hcaptured
  have hcheck : checkWire l.wire.wire = .ok l.wire.wire :=
    checkWire_bounds (lease_wire_bounds hvouched.verified)
  have hverified := verifiedLease_own_ok hvouched.verified
  have hvalid : checkpointLeaseValid self.cfg l.wire.lease capturedAtMs = true := hlater.valid
  have hfresh : l.wire.lease.key ∉ self.attachmentLeases := by
    rw [hkeyed]
    exact lookup_eq_none.mp hfree
  unfold putAttachmentLease
  rw [hcheck]
  cases hconflict : l.conflictWire with
  | none =>
    simp only [checkConflict, hconflict]
    change ∃ next,
      restoreCheckpointAttachmentLease crypto self l.wire.wire l.conflicted none capturedAtMs
      alloc = .ok next
    simp only [restoreCheckpointAttachmentLease, hverified, hvalid, validateCheckpointConflict,
      if_neg hfresh, halloc,
      Bool.not_true, Bool.false_eq_true, if_false, Option.isSome_none, false_and, or_self]
    exact ⟨_, rfl⟩
  | some m =>
    obtain ⟨hflag, hvouched', hkeyed', hrevision, hdigest⟩ := hwitness m hconflict
    have hcheck' : checkWire m.wire = .ok m.wire :=
      checkWire_bounds (lease_wire_bounds hvouched'.verified)
    have hverified' := verifiedLease_own_ok hvouched'.verified
    have hvalid' : checkpointLeaseValid self.cfg m.lease capturedAtMs = true :=
      (hvouched'.later hcaptured).valid
    have htoken : l.wire.lease.token = m.lease.token :=
      congrArg OriginKey.token (hkeyed.trans hkeyed'.symm)
    have hsame : l.wire.lease.revision.eql m.lease.revision = true :=
      Revision.eql_iff.mpr hrevision.symm
    have hother : digestBytes crypto l.wire.transcript ≠ digestBytes crypto m.transcript :=
      Ne.symm hdigest
    have hwitness' : self.validateCheckpointConflict crypto l.wire true capturedAtMs (some m.wire) =
        .ok (some m) := by
      simp only [validateCheckpointConflict, hverified', hsame, hvalid', Bool.not_true,
        Bool.false_eq_true, if_false, false_or, or_false]
      rw [if_neg (not_or.mpr ⟨not_not.mpr htoken, hother⟩)]
    simp only [checkConflict, hconflict, hcheck']
    change ∃ next, restoreCheckpointAttachmentLease crypto self l.wire.wire true
      (some m.wire) capturedAtMs alloc = .ok next
    simp only [restoreCheckpointAttachmentLease, hverified, hvalid, hwitness', if_neg hfresh,
      halloc, Bool.not_true, Bool.false_eq_true, if_false, and_false, or_self]
    exact ⟨_, rfl⟩

/-- No row of the token is there that could disagree. -/
theorem accountMismatch_gone (account : Bytes)
    (h : ∀ k : OriginKey, k.token = token → self.entries.lookup k = none ∧
      self.tombstones.lookup k = none) :
    self.accountMismatch crypto token account = false := by
  unfold accountMismatch
  rw [Bool.or_eq_false_iff, List.any_eq_false, List.any_eq_false]
  refine ⟨fun slot hslot htest => ?_, fun slot hslot htest => ?_⟩
  · have htoken := tokenEql_iff.mp (Bool.and_eq_true_iff.mp htest).1
    exact nomatch (h slot.1 htoken).1.symm.trans (HashMap.mem_entries.mp hslot)
  · have htoken := tokenEql_iff.mp (Bool.and_eq_true_iff.mp htest).1
    exact nomatch (h slot.1 htoken).2.symm.trans (HashMap.mem_entries.mp hslot)

theorem putGroup_succeeds {g : GroupRevocation} (hkept : KeptGroup crypto self.cfg clock token g)
    (hcaptured : clock ≤ capturedAtMs) (hfree : self.groupRevocations.lookup token = none)
    (hgone : ∀ k : OriginKey, k.token = token → self.entries.lookup k = none ∧
      self.tombstones.lookup k = none ∧ self.attachmentLeases.lookup k = none)
    (hquarantine : self.quarantines.lookup token = none)
    (hroom : HashMap.count self.groupRevocations < self.cfg.maxGroupRevocations)
    (halloc : ∀ n, alloc n = true) :
    ∃ next, putGroup crypto capturedAtMs alloc self g = .ok next := by
  obtain ⟨rfl, hgroup, hvouched⟩ := hkept
  have hcheck : checkWire g.wire.wire = .ok g.wire.wire :=
    checkWire_bounds (offer_wire_bounds g.wire)
  have hop : g.wire.offer.operation.restoresAs .groupRevoke = true := by
    rw [hgroup]
    rfl
  have hvalid := validateCheckpointSignedOffer_vouched hvouched hcaptured hop
  have hrows : ∀ k : OriginKey, k.token = g.wire.offer.token →
      self.entries.lookup k = none ∧ self.tombstones.lookup k = none :=
    fun k hk => ⟨(hgone k hk).1, (hgone k hk).2.1⟩
  have hfull : self.hasFullQuarantine g.wire.offer.token = false := by
    rw [hasFullQuarantine, hquarantine]
    rfl
  have hunfenced : self.isGroupRevoked g.wire.offer.token = false := by
    rw [isGroupRevoked, hfree]
    rfl
  have hleases : (self.attachmentLeases.keys.any fun key => tokenEql key.token g.wire.offer.token) =
      false := by
    rw [List.any_eq_false]
    intro k hk htoken
    rw [HashMap.mem_keys_iff, (hgone k (tokenEql_iff.mp htoken)).2.2] at hk
    cases hk
  obtain ⟨added, reserved, hreserve⟩ :=
    reserveAccountOrigin_succeeds crypto self g.wire.offer.account
    ⟨g.wire.offer.token, 0⟩ fun n => halloc (2 + n)
  have hprepare : self.prepareGroupRevoke crypto g.wire capturedAtMs alloc =
      (.ok ⟨g.wire.offer.token, some g.wire⟩, reserved) := by
    simp only [prepareGroupRevoke, hvouched.verified, hgroup, ne_eq, not_true_eq_false, if_false,
      validateOfferForStore_group hvouched hcaptured hgroup, hfree,
      accountMismatch_gone g.wire.offer.account hrows, hfull,
      Bool.false_eq_true, if_neg (not_le.mpr hroom), halloc 0, halloc 1, Bool.not_true,
      or_self, hreserve]
  unfold putGroup
  rw [hcheck]
  change ∃ next, restoreCheckpointGroup crypto self g.wire.wire capturedAtMs alloc = .ok next
  simp only [restoreCheckpointGroup, hvalid, hunfenced, hasAnyCheckpointState_gone hrows, hfull,
    Bool.false_eq_true, or_self, if_false, hleases, hprepare]
  exact ⟨_, rfl⟩

end Store

end OnyxServer.SessionReplica
