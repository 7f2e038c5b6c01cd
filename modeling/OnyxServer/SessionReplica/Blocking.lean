import OnyxServer.SessionReplica.Restored

/-!
# What blocks an old OFFER

An OFFER that was accepted stays blocked while something that outranks it is kept until it
has expired: the row of its origin, a quarantine of its token, or a fence. A step drops such
a block only where it drops a row whose horizon still lies ahead.
-/
namespace OnyxServer.SessionReplica

open Lib Text HashMap Option

namespace Store

variable {crypto : Crypto} {clock clock' untilMs : Int64} {floor : Revision} {s t u : Store}
    {key : OriginKey}
variable {token : Token} {signed : SignedOffer} {viaPeer : NodeId} {nowMs : Int64}
    {alloc : Allocator}

/-- No OFFER of the origin with a revision below `floor` and an expiry of `untilMs` or before
can be installed at the clock. -/
inductive Blocked (clock untilMs : Int64) (floor : Revision) (key : OriginKey) (s : Store) : Prop
  | expired (h : untilMs < clock)
  | entry (e : Entry) (he : s.entries.lookup key = some e) (hfloor : floor ≤ e.revision)
      (huntil : untilMs ≤ e.authorityExpiresHighWater)
  | tombstone (tomb : Tombstone) (htomb : s.tombstones.lookup key = some tomb)
      (hfloor : floor ≤ tomb.revision)
      (huntil : untilMs ≤ tomb.retainUntilMs)
  | quarantine (q : Quarantine) (hq : s.quarantines.lookup key.token = some q)
      (huntil : untilMs ≤ q.expiresAtMs)
  | fence (g : GroupRevocation) (hg : s.groupRevocations.lookup key.token = some g)

/-- The same rows, but for what a row does not block with. -/
theorem Blocked.transfer (h : Blocked clock untilMs floor key s) (hclock : clock ≤ clock')
    (hentry : ∀ e, s.entries.lookup key = some e → ∃ e', t.entries.lookup key = some e' ∧
      e'.revision = e.revision ∧ e'.authorityExpiresHighWater = e.authorityExpiresHighWater)
    (htombstone : ∀ tomb, s.tombstones.lookup key = some tomb →
      ∃ tomb', t.tombstones.lookup key = some tomb' ∧
      tomb'.revision = tomb.revision ∧ tomb'.retainUntilMs = tomb.retainUntilMs)
    (hquarantine : ∀ q, s.quarantines.lookup key.token = some q →
      t.quarantines.lookup key.token = some q)
    (hgroup : ∀ g, s.groupRevocations.lookup key.token = some g →
      t.groupRevocations.lookup key.token = some g) :
    Blocked clock' untilMs floor key t := by
  cases h with
  | expired h => exact .expired (h.trans_le hclock)
  | entry e he hfloor huntil =>
    obtain ⟨e', he', hrevision, hmark⟩ := hentry e he
    exact .entry e' he' (hrevision ▸ hfloor) (hmark ▸ huntil)
  | tombstone tomb htomb hfloor huntil =>
    obtain ⟨tomb', htomb', hrevision, hretain⟩ := htombstone tomb htomb
    exact .tombstone tomb' htomb' (hrevision ▸ hfloor) (hretain ▸ huntil)
  | quarantine q hq huntil => exact .quarantine q (hquarantine q hq) huntil
  | fence g hg => exact .fence g (hgroup g hg)

theorem Blocked.same (h : Blocked clock untilMs floor key s) (hclock : clock ≤ clock')
    (hentries : t.entries.lookup key = s.entries.lookup key)
    (htombstones : t.tombstones.lookup key = s.tombstones.lookup key)
    (hquarantines : t.quarantines.lookup key.token = s.quarantines.lookup key.token)
    (hgroups : t.groupRevocations.lookup key.token = s.groupRevocations.lookup key.token) :
    Blocked clock' untilMs floor key t :=
  h.transfer hclock (fun e he => ⟨e, hentries.trans he, rfl, rfl⟩)
    (fun tomb htomb => ⟨tomb, htombstones.trans htomb, rfl, rfl⟩)
      (fun _ hq => hquarantines.trans hq)
    fun _ hg => hgroups.trans hg

/-- The OFFER starts a quarantine of its token, and the token's rows go. -/
structure Isolates (crypto : Crypto) (s : Store) (signed : SignedOffer) (nowMs : Int64)
    (alloc : Allocator)
    (conflict : IdentityConflictEvidence) : Prop extends Admitted crypto s signed nowMs where
  isOffer : signed.offer.isOffer
  unquarantined : s.hasFullQuarantine signed.offer.token = false
  conflicts : s.findIdentityConflict crypto signed.offer.token signed.offer.account nowMs =
    some conflict
  portable : conflict.wire.isSome
  room : HashMap.count s.quarantines < s.cfg.maxQuarantines
  memory : alloc 0 = true ∧ alloc 1 = true ∧ alloc 2 = true

/-- No horizon of the origin's row lies both ahead and beyond `untilMs`. -/
def SparedBy (s : Store) (key : OriginKey) (untilMs nowMs : Int64) : Prop :=
  (∀ e, s.entries.lookup key = some e →
    e.authorityExpiresHighWater ≤ untilMs ∨ e.authorityExpiresHighWater < nowMs) ∧
  ∀ tomb, s.tombstones.lookup key = some tomb → tomb.retainUntilMs ≤ untilMs ∨
    tomb.retainUntilMs < nowMs

/-- The call drops no horizon that still lies ahead: a quarantine lasts as long as the rows it
replaces would, an entry that is swept has no mark ahead of it, and one that goes through an
upgrade has none beyond its own expiry. -/
def Spares (crypto : Crypto) (s : Store) : Call → Prop
  | .applySignedOffer signed _ nowMs alloc => ∀ conflict,
      Isolates crypto s signed nowMs alloc conflict →
      ∀ key : OriginKey, key.token = signed.offer.token →
        s.SparedBy key (min conflict.expiresAtMs signed.offer.expiresAtMs) nowMs
  | .sweep nowMs => ∀ key e, s.entries.lookup key = some e → e.expiresAtMs < nowMs →
      e.authorityExpiresHighWater < nowMs
  | .upgrade _ restoreNowMs _ _ => ∀ key e, s.entries.lookup key = some e →
      e.authorityExpiresHighWater ≤ e.expiresAtMs ∨ e.authorityExpiresHighWater < restoreNowMs
  | _ => True

/-- The row of the origin has no higher revision than the fact that is installed. -/
theorem Installs.outranks_entry {e : Entry} (h : Installs crypto s signed nowMs)
    (he : s.entries.lookup signed.offer.key = some e) : e.revision ≤ signed.offer.revision := by
  rcases h.outranks _ _ (standing_entry he) with hlt | ⟨heq, -⟩
  · exact hlt.le
  · exact heq.le

theorem Installs.outranks_tombstone {tomb : Tombstone} (h : Installs crypto s signed nowMs)
    (he : s.entries.lookup signed.offer.key = none)
    (htomb : s.tombstones.lookup signed.offer.key = some tomb) :
    tomb.revision ≤ signed.offer.revision := by
  rcases h.outranks _ _ (standing_tombstone he htomb) with hlt | ⟨heq, -⟩
  · exact hlt.le
  · exact heq.le

variable {conflict : IdentityConflictEvidence}

/-- Without the memory for a quarantine the rows stay, with deny markers. -/
theorem applySignedOffer_denied {existing : SignedOffer}
    (hadmitted : Admitted crypto s signed nowMs) (hoffer : signed.offer.isOffer)
    (hfree : s.hasFullQuarantine signed.offer.token = false)
    (hconflict : s.findIdentityConflict crypto signed.offer.token signed.offer.account nowMs =
      some conflict)
    (hwire : conflict.wire = some existing)
    (hmemory : ¬ (alloc 0 = true ∧ alloc 1 = true ∧ alloc 2 = true)) :
    (s.applySignedOffer crypto signed viaPeer nowMs alloc).2 =
      s.markTokenDenied signed.offer.token (min conflict.expiresAtMs signed.offer.expiresAtMs) := by
  have halloc : !alloc 0 ∨ !alloc 1 ∨ !alloc 2 := by
    simp only [Bool.not_eq_true']
    by_contra hall
    simp only [not_or, Bool.not_eq_false] at hall
    exact hmemory hall
  rw [applySignedOffer_conflict hadmitted hoffer hfree hconflict hwire]
  simp only [installQuarantine, if_pos halloc]
  split
  · rfl
  · rfl

theorem markTokenDenied_blocked (h : Blocked clock untilMs floor key s) (hclock : clock ≤ nowMs)
    (token : Token)
    (markMs : Int64) : Blocked nowMs untilMs floor key (s.markTokenDenied token markMs) := by
  refine h.transfer hclock (fun e he => ?_) (fun tomb htomb => ?_) (fun _ hq => hq) fun _ hg => hg
  · refine ⟨denyEntry token markMs key e, ?_, ?_⟩
    · exact (lookup_mapValues _ _ _).trans (by rw [he]; rfl)
    · unfold denyEntry
      split
      · exact ⟨rfl, rfl⟩
      · exact ⟨rfl, rfl⟩
  · refine ⟨denyTombstone token markMs key tomb, ?_, ?_⟩
    · exact (lookup_mapValues _ _ _).trans (by rw [htomb]; rfl)
    · unfold denyTombstone
      split
      · exact ⟨rfl, rfl⟩
      · exact ⟨rfl, rfl⟩

theorem isolated_rows (crypto : Crypto) (s : Store) (signed existing : SignedOffer)
    (markMs nowMs : Int64) :
    (s.isolated crypto signed existing markMs nowMs).entries =
        HashMap.eraseAll (ofToken signed.offer.token s.entries) s.entries ∧
      (s.isolated crypto signed existing markMs nowMs).tombstones =
        HashMap.eraseAll (ofToken signed.offer.token s.tombstones) s.tombstones ∧
      (s.isolated crypto signed existing markMs nowMs).quarantines =
        s.quarantines.insert signed.offer.token (evidence crypto signed existing markMs nowMs) ∧
      (s.isolated crypto signed existing markMs nowMs).groupRevocations = s.groupRevocations := by
  obtain ⟨routes, soft, index, faulted, hremove⟩ :=
    removeStateForToken_frame crypto s signed.offer.token
  unfold isolated
  rw [hremove]
  exact ⟨rfl, rfl, rfl, rfl⟩

/-- The rows of the token go, and what takes their place blocks for as long. -/
theorem isolated_blocked {existing : SignedOffer}
    (h : Blocked clock untilMs floor key s) (hclock : clock ≤ nowMs)
    (hspare : key.token = signed.offer.token →
      s.SparedBy key (min conflict.expiresAtMs signed.offer.expiresAtMs) nowMs)
    (hfree : s.hasFullQuarantine signed.offer.token = false) :
    Blocked nowMs untilMs floor key
      (s.isolated crypto signed existing (min conflict.expiresAtMs signed.offer.expiresAtMs)
        nowMs) := by
  obtain ⟨hentries, htombstones, hquarantines, hgroups⟩ := isolated_rows crypto s signed existing
    (min conflict.expiresAtMs signed.offer.expiresAtMs) nowMs
  by_cases htoken : key.token = signed.offer.token
  · have hquarantine :
        ∀ horizon, (horizon ≤ min conflict.expiresAtMs signed.offer.expiresAtMs ∨ horizon < nowMs) →
        untilMs ≤ horizon → Blocked nowMs untilMs floor key
          (s.isolated crypto signed existing (min conflict.expiresAtMs signed.offer.expiresAtMs)
            nowMs) := by
      rintro horizon (hlasts | hpast) huntil
      · refine .quarantine (evidence crypto signed existing
          (min conflict.expiresAtMs signed.offer.expiresAtMs) nowMs) ?_ (huntil.trans hlasts)
        rw [hquarantines, lookup_insert_eq, if_pos htoken]
      · exact .expired (huntil.trans_lt hpast)
    cases h with
    | expired h => exact .expired (h.trans_le hclock)
    | entry e he hfloor huntil => exact hquarantine _ ((hspare htoken).1 e he) huntil
    | tombstone tomb htomb hfloor huntil =>
        exact hquarantine _ ((hspare htoken).2 tomb htomb) huntil
    | quarantine q hq huntil =>
      rw [htoken, quarantines_none hfree] at hq
      cases hq
    | fence g hg => exact .fence g (by rw [hgroups, hg])
  · refine h.same hclock ?_ ?_ ?_ (by rw [hgroups])
    · rw [hentries, lookup_dropToken, if_neg htoken]
    · rw [htombstones, lookup_dropToken, if_neg htoken]
    · rw [hquarantines, lookup_insert_eq, if_neg htoken]

variable {routes : HashMap RouteKey RouteValue}

section

variable (h : Blocked clock untilMs floor key s) (hclock : clock ≤ nowMs)
include h hclock

theorem offered_blocked {added : Bool} {reserved : Store} (hkept : Kept crypto clock s)
    (hinstalls : Installs crypto s signed nowMs) :
    Blocked nowMs untilMs floor key
      (s.offered crypto signed viaPeer nowMs added reserved routes) := by
  have hentries :=
    lookup_insert_eq s.entries signed.offer.key key (s.offeredEntry signed viaPeer nowMs)
  have htombstones := lookup_erase_eq s.tombstones signed.offer.key key
  by_cases hkey : key = signed.offer.key
  · subst hkey
    rw [if_pos rfl] at hentries
    cases h with
    | expired h => exact .expired (h.trans_le hclock)
    | entry e he hfloor huntil =>
      refine .entry _ hentries (hfloor.trans (hinstalls.outranks_entry he)) (huntil.trans ?_)
      simp only [offeredEntry, carriedMarks, he, Entry.authorityExpiresHighWater]
      exact (le_max_right _ _).trans (le_max_right _ _)
    | tombstone tomb htomb hfloor huntil =>
      have he := hkept.apart _ tomb htomb
      refine .entry _ hentries (hfloor.trans (hinstalls.outranks_tombstone he htomb))
        (huntil.trans ?_)
      simp only [offeredEntry, carriedMarks, he, htomb, Entry.authorityExpiresHighWater]
      exact (le_max_right _ _).trans (le_max_right _ _)
    | quarantine q hq huntil => cases (quarantines_none hinstalls.unquarantined).symm.trans hq
    | fence g hg => exact .fence g hg
  · rw [if_neg hkey] at hentries htombstones
    exact h.same hclock hentries htombstones rfl rfl

/-- A REVOKE keeps the block of its origin, and raises it to its own revision. -/
theorem revoked_blocked {raised : Revision} (hkept : Kept crypto clock s)
    (hinstalls : Installs crypto s signed nowMs)
    (hraised : raised = floor ∨ key = signed.offer.key ∧ raised = signed.offer.revision) :
    Blocked nowMs untilMs raised key (s.revoked crypto signed nowMs routes) := by
  have hentries := lookup_erase_eq s.entries signed.offer.key key
  have htombstones :=
    lookup_insert_eq s.tombstones signed.offer.key key (s.revokedTombstone crypto signed nowMs)
  by_cases hkey : key = signed.offer.key
  · subst hkey
    rw [if_pos rfl] at htombstones
    have hblocked : ∀ current horizon, floor ≤ current → current ≤ signed.offer.revision →
        s.supersededExpiresAtMs signed.offer.key = some horizon → untilMs ≤ horizon →
        Blocked nowMs untilMs raised signed.offer.key (s.revoked crypto signed nowMs routes) := by
      intro current horizon hfloor hcurrent hhorizon huntil
      have hle : raised ≤ signed.offer.revision := by
        rcases hraised with rfl | ⟨-, rfl⟩
        · exact hfloor.trans hcurrent
        · exact le_rfl
      refine .tombstone _ htombstones hle (huntil.trans ?_)
      simp only [revokedTombstone, hhorizon]
      exact le_retainUntil_superseded
    cases h with
    | expired h => exact .expired (h.trans_le hclock)
    | entry e he hfloor huntil =>
      have hnone : s.tombstones.lookup signed.offer.key = none :=
        eq_none_iff_forall_ne_some.mpr fun tomb htomb => by
          cases (hkept.apart _ tomb htomb).symm.trans he
      refine hblocked _ _ hfloor (hinstalls.outranks_entry he) ?_ huntil
      simp only [supersededExpiresAtMs, hnone, he, map_some]
    | tombstone tomb htomb hfloor huntil =>
      refine hblocked _ _ hfloor
        (hinstalls.outranks_tombstone (hkept.apart _ tomb htomb) htomb) ?_ huntil
      simp only [supersededExpiresAtMs, htomb]
    | quarantine q hq huntil => cases (quarantines_none hinstalls.unquarantined).symm.trans hq
    | fence g hg => exact .fence g hg
  · rw [if_neg hkey] at hentries htombstones
    rcases hraised with rfl | ⟨hsame, -⟩
    · exact h.same hclock hentries htombstones rfl rfl
    · exact absurd hsame hkey

theorem commitGroupRevoke_blocked
    {reserved : Store} (hreserved : ∃ index, reserved = { s with accountIndex := index }) :
    Blocked nowMs untilMs floor key
      (reserved.commitGroupRevoke crypto ⟨signed.offer.token, some signed⟩).2 := by
  obtain ⟨index, rfl⟩ := hreserved
  obtain ⟨routes, soft, index', faulted, hcommit⟩ :=
    commitGroupRevoke_frame crypto { s with accountIndex := index } signed.offer.token signed
  rw [hcommit]
  by_cases htoken : key.token = signed.offer.token
  · exact .fence ⟨signed⟩ ((lookup_insert_eq _ _ _ _).trans (if_pos htoken))
  · refine h.same hclock ?_ ?_ rfl ((lookup_insert_eq _ _ _ _).trans (if_neg htoken))
    · exact (lookup_dropToken _ _ _).trans (if_neg htoken)
    · exact (lookup_dropToken _ _ _).trans (if_neg htoken)

/-- A fact that is handed over leaves every block there was. -/
theorem applySignedOffer_blocked
    (hkept : Kept crypto clock s)
    (hspare : s.Spares crypto (.applySignedOffer signed viaPeer nowMs alloc)) :
    Blocked nowMs untilMs floor key (s.applySignedOffer crypto signed viaPeer nowMs alloc).2 := by
  have heffect := applySignedOffer_effect crypto s signed viaPeer nowMs alloc
  revert heffect
  generalize hleft : (s.applySignedOffer crypto signed viaPeer nowMs alloc).2 = t
  generalize (s.applySignedOffer crypto signed viaPeer nowMs alloc).1 = answer
  intro heffect
  have hsame : Blocked nowMs untilMs floor key s := h.same hclock rfl rfl rfl rfl
  cases heffect with
  | refused => exact h.same hclock rfl rfl rfl rfl
  | fenced => exact hsame
  | barred => exact hsame
  | denied conflict => exact markTokenDenied_blocked h hclock _ _
  | isolated conflict existing hadmitted hoffer hconflict hwire hfree hroom =>
    by_cases hmemory : alloc 0 = true ∧ alloc 1 = true ∧ alloc 2 = true
    · refine isolated_blocked h hclock (hspare conflict ?_ key) hfree
      exact ⟨hadmitted, hoffer, hfree, hconflict, by rw [hwire]; rfl, hroom, hmemory⟩
    · rw [← hleft, applySignedOffer_denied hadmitted hoffer hfree hconflict hwire hmemory]
      exact markTokenDenied_blocked h hclock _ _
  | outranked => exact h.same hclock rfl rfl rfl rfl
  | refreshed entry routes hadmitted hentry =>
    have hlookup :=
      lookup_insert_eq s.entries signed.offer.key key { entry with updatedAtMs := nowMs }
    refine h.transfer hclock (fun e he => ?_) (fun tomb htomb => ⟨tomb, htomb, rfl, rfl⟩)
      (fun _ hq => hq) fun _ hg => hg
    by_cases hkey : key = signed.offer.key
    · subst hkey
      rw [if_pos rfl] at hlookup
      obtain rfl := some.inj (hentry.symm.trans he)
      exact ⟨_, hlookup, rfl, rfl⟩
    · rw [if_neg hkey] at hlookup
      exact ⟨e, hlookup.trans he, rfl, rfl⟩
  | offered disposition current added reserved routes room hinstalls =>
      exact offered_blocked h hclock hkept hinstalls
  | revoked disposition current routes hinstalls =>
      exact revoked_blocked h hclock hkept hinstalls (.inl rfl)
  | groupKnown => exact hsame
  | groupFenced added reserved room hgroup hverified hvalid hnew hagreed hfree hroom hreserve =>
    exact commitGroupRevoke_blocked h hclock (reserveAccountOrigin_frame hreserve)

theorem sweep_blocked
    (hspare : ∀ e, s.entries.lookup key = some e → e.expiresAtMs < nowMs →
      e.authorityExpiresHighWater < nowMs) :
    Blocked nowMs untilMs floor key (s.sweep crypto nowMs) := by
  cases h with
  | expired h => exact .expired (h.trans_le hclock)
  | entry e he hfloor huntil =>
    by_cases hpast : e.expiresAtMs < nowMs
    · exact .expired (huntil.trans_lt (hspare e he hpast))
    · refine .entry (clearEntry nowMs e) ?_ hfloor huntil
      rw [lookup_sweep_entries, he, filter_some,
        if_pos (by rw [decide_eq_false hpast]; rfl), map_some]
  | tombstone tomb htomb hfloor huntil =>
    by_cases hpast : tomb.retainUntilMs < nowMs
    · exact .expired (huntil.trans_lt hpast)
    refine .tombstone (clearTombstone nowMs tomb) ?_ hfloor huntil
    have hretained : tombstoneRetained nowMs tomb.retainUntilMs = true :=
      decide_eq_true (not_lt.mp hpast)
    rw [lookup_sweep_tombstones, htomb, filter_some, if_pos hretained, map_some]
  | quarantine q hq huntil =>
    by_cases hpast : q.expiresAtMs < nowMs
    · exact .expired (huntil.trans_lt hpast)
    · refine .quarantine q ?_ huntil
      rw [lookup_sweep_quarantines, hq, filter_some, if_pos (by rw [decide_eq_false hpast]; rfl)]
  | fence g hg => exact .fence g (by rw [sweep_groupRevocations, hg])

/-- Horizons come back from an upgrade, the marks of entries apart. -/
theorem restored_blocked (hkept : Kept crypto clock s)
    (hto : RestoredTo s u) (hspare : ∀ e, s.entries.lookup key = some e →
      e.authorityExpiresHighWater ≤ e.expiresAtMs ∨ e.authorityExpiresHighWater < nowMs) :
    Blocked nowMs untilMs floor key (u.sweep crypto nowMs) := by
  have hrestored : Blocked nowMs untilMs floor key u := by
    cases h with
    | expired h => exact .expired (h.trans_le hclock)
    | entry e he hfloor huntil =>
      rcases hspare e he with hown | hpast
      · refine .entry e.restored (by rw [hto.entries, he, map_some]) hfloor (huntil.trans ?_)
        rw [e.restored_highWater]
        exact hown
      · exact .expired (huntil.trans_lt hpast)
    | tombstone tomb htomb hfloor huntil =>
      exact .tombstone (tomb.restored s.cfg) (by rw [hto.tombstones, htomb, map_some]) hfloor
        (huntil.trans (retained_restored (hkept.tombstones key tomb htomb)))
    | quarantine q hq huntil => exact .quarantine q ((hto.quarantines _).trans hq) huntil
    | fence g hg => exact .fence g ((hto.groups _).trans hg)
  refine sweep_blocked hrestored le_rfl fun e he hpast => ?_
  rw [hto.entries] at he
  obtain ⟨old, -, rfl⟩ := map_eq_some_iff.mp he
  rw [old.restored_highWater]
  exact hpast

theorem revokeGroup_blocked {commit : Bool} :
    Blocked nowMs untilMs floor key (s.revokeGroup crypto signed nowMs alloc commit).2 := by
  obtain ⟨index, heq | ⟨-, -, -, -, -, -, heq⟩⟩ :=
    revokeGroup_cases crypto s signed nowMs alloc commit
  · rw [heq]
    exact h.same hclock rfl rfl rfl rfl
  · rw [heq]
    exact commitGroupRevoke_blocked h hclock ⟨index, rfl⟩

end

/-- No call that spares the horizons takes a block away before the OFFER has expired. -/
theorem step_blocked {call : Call} (h : Blocked clock untilMs floor key s)
    (hkept : Kept crypto clock s)
    (hstart : clock ≤ call.startMs.getD clock) (hend : call.startMs.getD clock ≤ call.clock clock)
    (hown : call.isOwn = true) (hspare : s.Spares crypto call) :
    Blocked (call.clock clock) untilMs floor key (s.step crypto call).2 := by
  cases call with
  | applySignedOffer signed viaPeer nowMs alloc =>
      exact applySignedOffer_blocked h hstart hkept hspare
  | groupRevoke signed nowMs alloc commit => exact revokeGroup_blocked h hstart
  | applySignedAttachmentLease signed nowMs alloc =>
    obtain ⟨leases, heq⟩ := applySignedAttachmentLease_frame crypto s signed nowMs alloc
    change Blocked nowMs untilMs floor key
      (s.applySignedAttachmentLease crypto signed nowMs alloc).2
    rw [heq]
    exact h.same hstart rfl rfl rfl rfl
  | sweep nowMs => exact sweep_blocked h hstart (hspare key)
  | removePeer peer => exact h.same le_rfl rfl rfl rfl rfl
  | restore bytes restoreNowMs alloc => cases hown
  | upgrade capturedAtMs restoreNowMs encodeAlloc restoreAlloc =>
    have hlater : clock ≤ restoreNowMs := hstart.trans hend
    change Blocked restoreNowMs untilMs floor key (s.replaced _).2
    cases hupgraded : s.upgraded crypto capturedAtMs restoreNowMs encodeAlloc restoreAlloc with
    | error e => exact h.same hlater rfl rfl rfl rfl
    | ok t =>
      obtain ⟨u, hto, rfl⟩ := upgraded_restored hkept hupgraded
      exact restored_blocked h hlater hkept hto (hspare key)
  | rehash table i =>
    have hlookup : (s.rehash i table).entries.lookup key = s.entries.lookup key ∧
        (s.rehash i table).tombstones.lookup key = s.tombstones.lookup key ∧
        (s.rehash i table).quarantines.lookup key.token = s.quarantines.lookup key.token ∧
        (s.rehash i table).groupRevocations.lookup key.token =
          s.groupRevocations.lookup key.token := by
      cases table with
      | entries => exact ⟨lookup_rehash i _ _, rfl, rfl, rfl⟩
      | tombstones => exact ⟨rfl, lookup_rehash i _ _, rfl, rfl⟩
      | quarantines => exact ⟨rfl, rfl, lookup_rehash i _ _, rfl⟩
      | attachmentLeases => exact ⟨rfl, rfl, rfl, rfl⟩
      | groupRevocations => exact ⟨rfl, rfl, rfl, lookup_rehash i _ _⟩
    exact h.same le_rfl hlookup.1 hlookup.2.1 hlookup.2.2.1 hlookup.2.2.2

/-- What is blocked is not installed. -/
theorem Blocked.refuses (h : Blocked clock untilMs floor signed.offer.key s)
    (hclock : clock ≤ nowMs)
    (hkept : Kept crypto clock s) (hexpires : signed.offer.expiresAtMs ≤ untilMs)
    (hlow : signed.offer.revision < floor) : ¬ Installs crypto s signed nowMs := by
  intro hinstalls
  cases h with
  | expired h =>
    exact absurd (hinstalls.toAdmitted.vouched.2.trans hexpires) (not_le.mpr (h.trans_le hclock))
  | entry e he hfloor huntil =>
      exact absurd (hfloor.trans (hinstalls.outranks_entry he)) (not_le.mpr hlow)
  | tombstone tomb htomb hfloor huntil =>
    exact absurd (hfloor.trans (hinstalls.outranks_tombstone (hkept.apart _ tomb htomb) htomb))
      (not_le.mpr hlow)
  | quarantine q hq huntil => exact nomatch (quarantines_none hinstalls.unquarantined).symm.trans hq
  | fence g hg => exact nomatch hinstalls.unfenced.symm.trans hg

end Store

end OnyxServer.SessionReplica
