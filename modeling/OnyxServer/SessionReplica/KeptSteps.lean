import OnyxServer.SessionReplica.Kept

/-!
# Rows after each call

Every call of the store keeps its rows as they should be: most only take rows away or change
a deny marker, the others put one row in.
-/
namespace OnyxServer.SessionReplica

open Lib Text HashMap Option

namespace Store

variable {crypto : Crypto} {clock clock' : Int64} {s t : Store} {key : OriginKey} {token : Token}
variable {signed : SignedOffer} {viaPeer : NodeId} {nowMs : Int64} {alloc : Allocator}

theorem Within.refl (s : Store) : Within s s :=
  ⟨rfl, fun _ _ => id, fun _ _ => id, fun _ _ => id, fun _ _ => id, fun _ _ => id⟩

theorem Kept.later (h : Kept crypto clock s) (hclock : clock ≤ clock') : Kept crypto clock' s :=
  h.thinned hclock (Within.refl s).thinned

theorem markTokenDenied_thinned (s : Store) (token : Token) (untilMs : Int64) :
    Thinned s (s.markTokenDenied token untilMs) where
  cfg := rfl
  entries k e he := by
    have hmapped : (HashMap.mapValues (denyEntry token untilMs) s.entries).lookup k = some e := he
    rw [lookup_mapValues] at hmapped
    obtain ⟨old, hold, rfl⟩ := map_eq_some_iff.mp hmapped
    refine ⟨old.quarantineUntilMs, hold.trans ?_⟩
    unfold denyEntry
    split
    · rfl
    · rfl
  tombstones k tomb htomb := by
    have hmapped : (HashMap.mapValues (denyTombstone token untilMs) s.tombstones).lookup k =
        some tomb := htomb
    rw [lookup_mapValues] at hmapped
    obtain ⟨old, hold, rfl⟩ := map_eq_some_iff.mp hmapped
    refine ⟨old.quarantineUntilMs, hold.trans ?_⟩
    unfold denyTombstone
    split
    · rfl
    · rfl
  quarantines _ _ hq := hq
  leases _ _ hl := hl
  groups _ _ hg := hg

/-- The rows of a token are taken away before its quarantine enters. -/
theorem isolated_within (crypto : Crypto) (s : Store) (signed existing : SignedOffer)
    (untilMs nowMs : Int64) :
    ∃ u, Within s u ∧ u.quarantines = s.quarantines ∧ u.groupRevocations = s.groupRevocations ∧
      (∀ k : OriginKey, k.token = signed.offer.token → u.entries.lookup k = none ∧
        u.tombstones.lookup k = none) ∧
      s.isolated crypto signed existing untilMs nowMs = { u with
        quarantines :=
          u.quarantines.insert signed.offer.token
            (evidence crypto signed existing untilMs nowMs) } := by
  obtain ⟨routes, soft, index, faulted, hremove⟩ :=
    removeStateForToken_frame crypto s signed.offer.token
  refine ⟨s.removeStateForToken crypto signed.offer.token, ?_⟩
  unfold isolated
  rw [hremove]
  refine ⟨⟨rfl, fun _ _ => of_lookup_dropToken, fun _ _ => of_lookup_dropToken, fun _ _ => id,
    fun _ _ => id, fun _ _ => id⟩, rfl, rfl, fun k hk => ⟨?_, ?_⟩, rfl⟩
  · rw [lookup_dropToken, if_pos hk]
  · rw [lookup_dropToken, if_pos hk]

/-- A committed fence takes the rows and the leases of its token away before it enters. -/
theorem commitGroupRevoke_within (crypto : Crypto) (token : Token) (signed : SignedOffer)
    {reserved : Store} (hreserved : ∃ index, reserved = { s with accountIndex := index }) :
    ∃ u, Within s u ∧ u.quarantines = s.quarantines ∧ u.groupRevocations = s.groupRevocations ∧
      (∀ k : OriginKey, k.token = token → u.entries.lookup k = none ∧ u.tombstones.lookup k = none ∧
        u.attachmentLeases.lookup k = none) ∧
      (reserved.commitGroupRevoke crypto ⟨token, some signed⟩).2 =
        { u with groupRevocations := u.groupRevocations.insert token ⟨signed⟩ } := by
  obtain ⟨_, rfl⟩ := hreserved
  obtain ⟨routes, soft, index, faulted, hcommit⟩ := commitGroupRevoke_frame crypto _ token signed
  refine ⟨{ s with
    entries := HashMap.eraseAll (ofToken token s.entries) s.entries
    tombstones := HashMap.eraseAll (ofToken token s.tombstones) s.tombstones
    attachmentLeases := HashMap.keep (fun k _ => !(tokenEql k.token token)) s.attachmentLeases
    routes := routes, softCappedTombstones := soft, accountIndex := index, faulted := faulted },
    ?_, rfl, rfl, fun k hk => ⟨?_, ?_, ?_⟩, hcommit⟩
  · refine ⟨rfl, fun _ _ => of_lookup_dropToken, fun _ _ => of_lookup_dropToken, fun _ _ => id,
      fun k l hl => ?_, fun _ _ => id⟩
    rw [lookup_keep] at hl
    exact (filter_eq_some_iff.mp hl).1
  · rw [lookup_dropToken, if_pos hk]
  · rw [lookup_dropToken, if_pos hk]
  · rw [lookup_keep, filter_eq_none_iff]
    intro l _
    simp [hk]

theorem sweep_thinned (s : Store) (nowMs : Int64) : Thinned s (s.sweep crypto nowMs) where
  cfg := sweep_cfg crypto s nowMs
  entries k e he := by
    rw [lookup_sweep_entries] at he
    obtain ⟨old, hold, rfl⟩ := map_eq_some_iff.mp he
    exact ⟨old.quarantineUntilMs, (filter_eq_some_iff.mp hold).1⟩
  tombstones k tomb htomb := by
    rw [lookup_sweep_tombstones] at htomb
    obtain ⟨old, hold, rfl⟩ := map_eq_some_iff.mp htomb
    exact ⟨old.quarantineUntilMs, (filter_eq_some_iff.mp hold).1⟩
  quarantines token q hq := by
    rw [lookup_sweep_quarantines] at hq
    exact (filter_eq_some_iff.mp hq).1
  leases k l hl := by
    rw [lookup_sweep_leases] at hl
    exact (filter_eq_some_iff.mp hl).1
  groups token g hg := by
    rw [sweep_groupRevocations] at hg
    exact hg

theorem rehash_within (s : Store) (i : Nat) (table : Table) : Within s (s.rehash i table) := by
  have hback {κ ν : Type} [DecidableEq κ] (m : HashMap κ ν) (k : κ) (v : ν)
      (h : (HashMap.rehash i m).lookup k = some v) : m.lookup k = some v :=
        (lookup_rehash i m k).symm.trans h
  cases table with
  | entries => exact ⟨rfl, hback _, fun _ _ => id, fun _ _ => id, fun _ _ => id, fun _ _ => id⟩
  | tombstones => exact ⟨rfl, fun _ _ => id, hback _, fun _ _ => id, fun _ _ => id, fun _ _ => id⟩
  | quarantines => exact ⟨rfl, fun _ _ => id, fun _ _ => id, hback _, fun _ _ => id, fun _ _ => id⟩
  | attachmentLeases =>
      exact ⟨rfl, fun _ _ => id, fun _ _ => id, fun _ _ => id, hback _, fun _ _ => id⟩
  | groupRevocations =>
      exact ⟨rfl, fun _ _ => id, fun _ _ => id, fun _ _ => id, fun _ _ => id, hback _⟩

theorem Kept.rewritten {entry : Option Entry} {tombstone : Option Tombstone}
    (h : Kept crypto clock s)
    (hw : Rewritten s t key entry tombstone) (hone : tombstone ≠ none → entry = none)
    (hentry : ∀ e, entry = some e → KeptEntry crypto s.cfg clock key e)
    (htombstone : ∀ tomb, tombstone = some tomb → KeptTombstone crypto s.cfg clock key tomb)
    (hfree : s.quarantines.lookup key.token = none)
    (hunfenced : s.groupRevocations.lookup key.token = none) :
    Kept crypto clock t where
  entries := by
    rw [hw.cfg]
    exact forall_put hw.entries hentry h.entries
  tombstones := by
    rw [hw.cfg]
    exact forall_put hw.tombstones htombstone h.tombstones
  quarantines token q hq := by
    rw [hw.quarantines] at hq
    rw [hw.cfg]
    exact h.quarantines token q hq
  leases k l hl := by
    rw [hw.leases] at hl
    rw [hw.cfg]
    exact h.leases k l hl
  groups token g hg := by
    rw [hw.groups] at hg
    rw [hw.cfg]
    exact h.groups token g hg
  apart k tomb htomb := by
    rw [hw.tombstones] at htomb
    rw [hw.entries]
    split at htomb
    · next hk => rw [if_pos hk, hone (htomb ▸ nofun)]
    · next hk => rw [if_neg hk, h.apart k tomb htomb]
  isolated k q hq := by
    rw [hw.quarantines] at hq
    have hk : k ≠ key := by
      rintro rfl
      exact nomatch hfree.symm.trans hq
    rw [hw.entries, hw.tombstones, if_neg hk, if_neg hk]
    exact h.isolated k q hq
  fenced k g hg := by
    rw [hw.groups] at hg
    have hk : k ≠ key := by
      rintro rfl
      exact nomatch hunfenced.symm.trans hg
    rw [hw.entries, hw.tombstones, hw.leases, if_neg hk, if_neg hk]
    exact h.fenced k g hg
  unquarrelled token g hg := by
    rw [hw.groups] at hg
    rw [hw.quarantines]
    exact h.unquarrelled token g hg

theorem Kept.quarantined (h : Kept crypto clock s) {q : Quarantine}
    (hq : KeptQuarantine crypto s.cfg clock token q)
    (hgone : ∀ k : OriginKey, k.token = token → s.entries.lookup k = none ∧
      s.tombstones.lookup k = none) (hunfenced : s.groupRevocations.lookup token = none) :
    Kept crypto clock { s with quarantines := s.quarantines.insert token q } where
  entries := h.entries
  tombstones := h.tombstones
  quarantines := forall_insert hq h.quarantines
  leases := h.leases
  groups := h.groups
  apart := h.apart
  isolated k q' hq' := by
    rw [lookup_insert_eq] at hq'
    split at hq'
    · next htoken => exact hgone k htoken
    · exact h.isolated k q' hq'
  fenced := h.fenced
  unquarrelled token' g hg := by
    rw [lookup_insert_eq]
    split
    · next htoken =>
      rw [htoken] at hg
      exact nomatch hunfenced.symm.trans hg
    · exact h.unquarrelled token' g hg

theorem Kept.fencedOff (h : Kept crypto clock s) {g : GroupRevocation}
    (hg : KeptGroup crypto s.cfg clock token g)
    (hgone : ∀ k : OriginKey, k.token = token → s.entries.lookup k = none ∧
      s.tombstones.lookup k = none ∧ s.attachmentLeases.lookup k = none)
    (hfree : s.quarantines.lookup token = none) :
    Kept crypto clock { s with groupRevocations := s.groupRevocations.insert token g } where
  entries := h.entries
  tombstones := h.tombstones
  quarantines := h.quarantines
  leases := h.leases
  groups := forall_insert hg h.groups
  apart := h.apart
  isolated := h.isolated
  fenced k g' hg' := by
    rw [lookup_insert_eq] at hg'
    split at hg'
    · next htoken => exact hgone k htoken
    · exact h.fenced k g' hg'
  unquarrelled token' g' hg' := by
    rw [lookup_insert_eq] at hg'
    split at hg'
    · next htoken => rw [htoken, hfree]
    · exact h.unquarrelled token' g' hg'

theorem Kept.leased (h : Kept crypto clock s) {l : AttachmentLeaseEntry}
    (hl : KeptLease crypto s.cfg clock key l)
    (hunfenced : s.groupRevocations.lookup key.token = none) :
    Kept crypto clock { s with attachmentLeases := s.attachmentLeases.insert key l } where
  entries := h.entries
  tombstones := h.tombstones
  quarantines := h.quarantines
  leases := forall_insert hl h.leases
  groups := h.groups
  apart := h.apart
  isolated := h.isolated
  fenced k g hg := by
    obtain ⟨hentry, htomb, hlease⟩ := h.fenced k g hg
    refine ⟨hentry, htomb, ?_⟩
    rw [lookup_insert_eq, if_neg]
    · exact hlease
    · rintro rfl
      exact nomatch hunfenced.symm.trans hg
  unquarrelled := h.unquarrelled

theorem Admitted.vouched (h : Admitted crypto s signed nowMs) :
    Vouched crypto s.cfg nowMs signed ∧ nowMs ≤ signed.offer.expiresAtMs := by
  obtain ⟨hvouched, halive⟩ := validateOfferForStore_ok h.verified h.valid
  exact ⟨hvouched, halive h.single⟩

section

variable (h : Kept crypto clock s) (hclock : clock ≤ nowMs)
    (hadmitted : Admitted crypto s signed nowMs)
include h hclock hadmitted

theorem offeredEntry_kept (hoffer : signed.offer.isOffer) :
    KeptEntry crypto s.cfg nowMs signed.offer.key (s.offeredEntry signed viaPeer nowMs) := by
  obtain ⟨hvouched, -⟩ := hadmitted.vouched
  refine ⟨rfl, hoffer, hvouched, le_rfl, toInt_max_le hvouched.expires_le ?_⟩
  simp only [offeredEntry, carriedMarks]
  split
  · next old hold =>
    exact toInt_max_le hvouched.expires_le ((h.entries _ old hold).later hclock).marked
  split
  · next tomb htomb =>
    have hkept := (h.tombstones _ tomb htomb).later hclock
    exact toInt_max_le hvouched.expires_le (hkept.retained.trans (farthestMs_mono hkept.removed))
  · exact hvouched.expires_le

theorem revokedTombstone_kept (hremove : signed.offer.operation = .remove) :
    KeptTombstone crypto s.cfg nowMs signed.offer.key (s.revokedTombstone crypto signed nowMs) := by
  obtain ⟨hvouched, halive⟩ := hadmitted.vouched
  refine ⟨rfl, hremove, hvouched, le_rfl, halive, ?_, ?_⟩
  · refine retainUntil_le ((toInt_bounds nowMs).1.trans clock_le_farthestMs)
      (le_max_left _ _) hvouched.expires_le ?_
    intro superseded hsuperseded
    unfold supersededExpiresAtMs at hsuperseded
    split at hsuperseded
    · next old hold =>
      have hkept := (h.tombstones _ old hold).later hclock
      cases hsuperseded
      exact hkept.retained.trans (farthestMs_mono hkept.removed)
    · obtain ⟨e, he, rfl⟩ := map_eq_some_iff.mp hsuperseded
      exact ((h.entries _ e he).later hclock).marked
  · intro hunbound
    simp only [revokedTombstone, tombstoneIdentity, tombstoneSoftCapped] at hunbound ⊢
    cases hold : s.tombstones.lookup signed.offer.key with
    | some old =>
      rw [hold] at hunbound
      simp only at hunbound ⊢
      refine (h.tombstones _ old hold).unbound ?_
      cases hidentity : old.identityDigest with
      | none => rfl
      | some bound =>
        rw [hidentity] at hunbound
        cases hunbound
    | none =>
      rw [hold] at hunbound
      simp only at hunbound ⊢
      cases he : s.entries.lookup signed.offer.key with
      | none => rfl
      | some e =>
        rw [he] at hunbound
        cases hunbound

end

variable {conflict : IdentityConflictEvidence}

/-- What an OFFER of another account was found against. -/
theorem findIdentityConflict_entry {account : Bytes} {existing : SignedOffer}
    (h : s.findIdentityConflict crypto token account nowMs = some conflict)
    (hwire : conflict.wire = some existing) :
    ∃ k e, s.entries.lookup k = some e ∧ k.token = token ∧ e.wire = existing ∧
      conflict.expiresAtMs = e.expiresAtMs ∧ nowMs ≤ e.expiresAtMs ∧
      eqlIgnoreCase e.account account = false := by
  unfold findIdentityConflict at h
  split at h
  · next slot hfound =>
    cases h
    have hmem := HashMap.mem_entries.mp (List.mem_of_find?_eq_some hfound)
    have htest := List.find?_some hfound
    simp only [Bool.and_eq_true, tokenEql_iff, Bool.not_eq_true', decide_eq_false_iff_not,
      not_lt] at htest
    exact ⟨slot.1, slot.2, hmem, htest.1.1, some.inj hwire, rfl, htest.1.2, htest.2⟩
  · split at h
    · cases h
      cases hwire
    · cases h

theorem eqlIgnoreCase_self (account : Bytes) : eqlIgnoreCase account account = true := by
  simp [eqlIgnoreCase]

theorem evidence_kept {existing : SignedOffer} (h : Kept crypto clock s)
    (hclock : clock ≤ nowMs) (hadmitted : Admitted crypto s signed nowMs)
    (hoffer : signed.offer.isOffer)
    (hconflict : s.findIdentityConflict crypto signed.offer.token signed.offer.account nowMs =
      some conflict) (hwire : conflict.wire = some existing) :
    KeptQuarantine crypto s.cfg nowMs signed.offer.token
      (evidence crypto signed existing (min conflict.expiresAtMs signed.offer.expiresAtMs)
        nowMs) := by
  obtain ⟨hvouched, halive⟩ := hadmitted.vouched
  obtain ⟨k, e, he, htoken, rfl, hexpires, hlive, hdiffer⟩ :=
    findIdentityConflict_entry hconflict hwire
  have hkept := (h.entries k e he).later hclock
  have hentry : Vouched crypto s.cfg nowMs e.wire ∧ e.wire.offer.isOffer ∧
      e.wire.offer.token = signed.offer.token := by
    refine ⟨hkept.vouched, hkept.isOffer, ?_⟩
    rw [← htoken, ← hkept.keyed]
    rfl
  have hother : e.wire.offer.account ≠ signed.offer.account := by
    intro hsame
    rw [Entry.account, hsame, eqlIgnoreCase_self] at hdiffer
    cases hdiffer
  rw [hexpires]
  unfold evidence
  by_cases hfirst : digestBytes crypto e.wire.transcript < digestBytes crypto signed.transcript
  · simp only [decide_eq_true hfirst, if_true]
    exact ⟨hentry, ⟨hvouched, hoffer, rfl⟩, hother, hfirst.le, rfl, le_rfl, le_min hlive halive⟩
  · simp only [decide_eq_false hfirst, Bool.false_eq_true, if_false]
    exact ⟨⟨hvouched, hoffer, rfl⟩, hentry, hother.symm, not_lt.mp hfirst, min_comm _ _, le_rfl,
      le_min hlive halive⟩

theorem quarantines_none (h : s.hasFullQuarantine token = false) :
    s.quarantines.lookup token = none := by
  unfold hasFullQuarantine at h
  exact not_isSome_iff_eq_none.mp (by rw [h]; exact Bool.false_ne_true)

theorem commitGroupRevoke_kept (h : Kept crypto clock s) (hclock : clock ≤ nowMs)
    (hgroup : signed.offer.operation = .groupRevoke)
    (hverified : verifyOffer crypto signed = .ok ())
    (hvalid : s.validateOfferForStore signed.offer nowMs = .ok ())
    (hfree : s.hasFullQuarantine signed.offer.token = false) {reserved : Store}
    (hreserved : ∃ index, reserved = { s with accountIndex := index }) :
    Kept crypto nowMs (reserved.commitGroupRevoke crypto ⟨signed.offer.token, some signed⟩).2 := by
  obtain ⟨hvouched, -⟩ := validateOfferForStore_ok hverified hvalid
  obtain ⟨u, hwithin, hquarantines, -, hgone, hcommit⟩ :=
    commitGroupRevoke_within crypto signed.offer.token signed hreserved
  rw [hcommit]
  refine (h.thinned hclock hwithin.thinned).fencedOff ⟨rfl, hgroup, ?_⟩ hgone ?_
  · rw [hwithin.cfg]
    exact hvouched
  · rw [hquarantines]
    exact quarantines_none hfree

theorem OfferEffect.kept {answer : Except ApplyError ApplyResult}
    (heffect : OfferEffect crypto s signed viaPeer nowMs answer t) (h : Kept crypto clock s)
    (hclock : clock ≤ nowMs) :
    Kept crypto nowMs t := by
  have hlater := h.later hclock
  have hrouted :
      ∀ routes index, Kept crypto nowMs { s with routes := routes, accountIndex := index } :=
    fun routes index => { hlater with }
  cases heffect with
  | refused e routes index hlisted hfull why => exact hrouted routes index
  | fenced => exact hlater
  | barred => exact hlater
  | denied => exact h.thinned hclock (markTokenDenied_thinned s _ _)
  | isolated conflict existing hadmitted hoffer hconflict hwire hfree hroom =>
    obtain ⟨u, hwithin, -, hgroups, hgone, hisolated⟩ := isolated_within crypto s signed existing
      (min conflict.expiresAtMs signed.offer.expiresAtMs) nowMs
    have hevidence := evidence_kept h hclock hadmitted hoffer hconflict hwire
    rw [← hwithin.cfg] at hevidence
    rw [hisolated]
    exact (h.thinned hclock hwithin.thinned).quarantined hevidence hgone
      (by rw [hgroups]; exact hadmitted.unfenced)
  | outranked current digest disposition routes => exact hrouted routes s.accountIndex
  | refreshed entry routes hadmitted hentry =>
    obtain ⟨hkeyed, hoffer, hvouched, hupdated, hmarked⟩ := (h.entries _ entry hentry).later hclock
    have hnone : s.tombstones.lookup signed.offer.key = none := by
      refine eq_none_iff_forall_ne_some.mpr fun tomb htomb => ?_
      exact nomatch (h.apart _ tomb htomb).symm.trans hentry
    have hfree : s.quarantines.lookup signed.offer.key.token = none := by
      refine eq_none_iff_forall_ne_some.mpr fun q hq => ?_
      exact nomatch (h.isolated _ q hq).1.symm.trans hentry
    refine hlater.rewritten (.refreshed hnone) (absurd rfl) ?_ nofun hfree hadmitted.unfenced
    intro e he
    rw [← some.inj he]
    exact ⟨hkeyed, hoffer, hvouched, le_rfl, hmarked⟩
  | offered disposition current added reserved routes room hinstalls hoffer hdisposition hadmits
      hreserve =>
    refine hlater.rewritten .offered (absurd rfl) ?_ nofun
      (quarantines_none hinstalls.unquarantined) hinstalls.unfenced
    intro e he
    rw [← some.inj he]
    exact offeredEntry_kept h hclock hinstalls.toAdmitted hoffer
  | revoked disposition current routes hinstalls hremove hdisposition hadmits =>
    refine hlater.rewritten .revoked (fun _ => rfl) nofun ?_
      (quarantines_none hinstalls.unquarantined)
      hinstalls.unfenced
    intro tomb htomb
    rw [← some.inj htomb]
    exact revokedTombstone_kept h hclock hinstalls.toAdmitted hremove
  | groupKnown => exact hlater
  | groupFenced added reserved room hgroup hverified hvalid hnew hagreed hfree hroom hreserve =>
    exact commitGroupRevoke_kept h hclock hgroup hverified hvalid hfree
      (reserveAccountOrigin_frame hreserve)

theorem revokeGroup_kept {commit : Bool} (h : Kept crypto clock s) (hclock : clock ≤ nowMs) :
    Kept crypto nowMs (s.revokeGroup crypto signed nowMs alloc commit).2 := by
  obtain ⟨index, heq | ⟨hgroup, hverified, hvalid, -, hfree, -, heq⟩⟩ :=
    revokeGroup_cases crypto s signed nowMs alloc commit
  · rw [heq]
    exact { h.later hclock with }
  · rw [heq]
    exact commitGroupRevoke_kept h hclock hgroup hverified hvalid hfree ⟨index, rfl⟩

/-- A lease is refused, or takes the row of its origin, or is the second transcript of the
revision that is there. -/
theorem applySignedAttachmentLease_cases (crypto : Crypto) (s : Store)
    (lease : SignedAttachmentLease) (nowMs : Int64) (alloc : Allocator) :
    (s.applySignedAttachmentLease crypto lease nowMs alloc).2 = s ∨
    (LeaseVouched crypto s.cfg nowMs lease ∧ s.groupRevocations.lookup lease.lease.token =
      none ∧ ∃ l, (s.applySignedAttachmentLease crypto lease nowMs alloc).2 =
        { s with attachmentLeases := s.attachmentLeases.insert lease.lease.key l } ∧
      ((l = ⟨lease, false, none⟩ ∧ (s.attachmentLeases.lookup lease.lease.key = none →
          HashMap.count s.attachmentLeases < s.cfg.maxAttachmentLeases)) ∨
        ∃ current, s.attachmentLeases.lookup lease.lease.key = some current ∧
          lease.lease.revision = current.revision ∧
          digestBytes crypto lease.transcript ≠ current.digest crypto ∧
          (l = { current with conflicted := true } ∨
            l = { current with conflicted := true, conflictWire := some lease }))) := by
  have hinstall : ∀ replacing, (s.installAttachmentLease lease replacing alloc).2 = s ∨
      (s.installAttachmentLease lease replacing alloc).2 =
        { s with attachmentLeases :=
          s.attachmentLeases.insert lease.lease.key ⟨lease, false, none⟩ } := by
    intro replacing
    unfold installAttachmentLease
    split
    · exact .inl rfl
    · exact .inr rfl
  simp only [applySignedAttachmentLease]
  split
  · exact .inl rfl
  rename_i hverified
  split
  · exact .inl rfl
  rename_i hunfenced
  have hgroup : s.groupRevocations.lookup lease.lease.token =
      none := by simpa [isGroupRevoked] using hunfenced
  split
  · exact .inl rfl
  rename_i hvalid
  have hvouched := validateLeaseForStore_ok hverified hvalid
  split
  · next current hcurrent =>
    rcases Revision.compare_cases lease.lease.revision current.revision with
      ⟨hcompare, -⟩ | ⟨hcompare, heq⟩ | ⟨hcompare, -⟩
    · rw [hcompare]
      exact .inl rfl
    · rw [hcompare]
      simp only [applyLeaseWitness]
      split
      · exact .inl rfl
      rename_i hdigest
      split
      · split
        · exact .inl rfl
        · exact .inl rfl
      · split
        · exact .inr
            ⟨hvouched, hgroup, _, rfl, .inr ⟨current, hcurrent, heq, Ne.symm hdigest, .inl rfl⟩⟩
        · exact .inr
            ⟨hvouched, hgroup, _, rfl, .inr ⟨current, hcurrent, heq, Ne.symm hdigest, .inr rfl⟩⟩
    · rw [hcompare]
      rcases hinstall true with hsame | hput
      · exact .inl hsame
      · exact .inr
          ⟨hvouched, hgroup, _, hput, .inl ⟨rfl, fun hnone => by cases hnone.symm.trans hcurrent⟩⟩
  · next hnone =>
    split
    · exact .inl rfl
    rename_i hroom
    rcases hinstall false with hsame | hput
    · exact .inl hsame
    · exact .inr ⟨hvouched, hgroup, _, hput, .inl ⟨rfl, fun _ => Nat.lt_of_not_le hroom⟩⟩

theorem applySignedAttachmentLease_kept {lease : SignedAttachmentLease} (h : Kept crypto clock s)
    (hclock : clock ≤ nowMs) :
    Kept crypto nowMs (s.applySignedAttachmentLease crypto lease nowMs alloc).2 := by
  rcases applySignedAttachmentLease_cases crypto s lease nowMs alloc with
    hsame | ⟨hvouched, hgroup, l, hput, hl⟩
  · rw [hsame]
    exact h.later hclock
  rw [hput]
  refine (h.later hclock).leased ?_ hgroup
  rcases hl with ⟨rfl, -⟩ | ⟨current, hcurrent, hrevision, hdigest, hl⟩
  · exact ⟨rfl, hvouched, nofun⟩
  obtain ⟨hkeyed, hcurrentVouched, hwitness⟩ := (h.leases _ current hcurrent).later hclock
  rcases hl with rfl | rfl
  · exact ⟨hkeyed, hcurrentVouched, fun m hm => ⟨rfl, (hwitness m hm).2⟩⟩
  · refine ⟨hkeyed, hcurrentVouched, fun m hm => ?_⟩
    cases hm
    exact ⟨rfl, hvouched, rfl, hrevision, hdigest⟩

theorem removePeer_kept (peer : NodeId) (h : Kept crypto clock s) :
    Kept crypto clock (s.removePeer peer) :=
  { h with }

end Store

end OnyxServer.SessionReplica
