import OnyxServer.SessionReplica.Restorable
import OnyxServer.SessionReplica.Retained

/-!
# Rows filed under what they name

Every row stands under the key its own wire names, two wires of one row differ in their
digests, and a token in quarantine has no entry. That holds at any clock and for the rows of
any image, and it makes the cursors of the exported objects distinct.
-/
namespace OnyxServer.SessionReplica

open Lib Text HashMap AList Option Except

structure FiledEntry (crypto : Crypto) (key : OriginKey) (e : Entry) : Prop where
  keyed : e.wire.offer.key = key
  isOffer : e.wire.offer.isOffer
  verified : verifyOffer crypto e.wire = .ok ()

structure FiledQuarantine (crypto : Crypto) (token : Token) (q : Quarantine) : Prop where
  first : q.firstWire.offer.isOffer ∧ q.firstWire.offer.token = token
  second : q.secondWire.offer.isOffer ∧ q.secondWire.offer.token = token
  differ : digestBytes crypto q.firstWire.transcript ≠ digestBytes crypto q.secondWire.transcript

structure FiledLease (crypto : Crypto) (key : OriginKey) (l : AttachmentLeaseEntry) : Prop where
  keyed : l.wire.lease.key = key
  witness : ∀ m, l.conflictWire = some m →
    m.lease.key = key ∧ digestBytes crypto m.transcript ≠ l.digest crypto

structure FiledGroup (token : Token) (g : GroupRevocation) : Prop where
  keyed : g.wire.offer.token = token
  group : g.wire.offer.operation = .groupRevoke

namespace Store

open CheckpointReader

structure Filed (crypto : Crypto) (s : Store) : Prop where
  entries : ∀ k e, s.entries.lookup k = some e → FiledEntry crypto k e
  quarantines : ∀ token q, s.quarantines.lookup token = some q → FiledQuarantine crypto token q
  leases : ∀ k l, s.attachmentLeases.lookup k = some l → FiledLease crypto k l
  groups : ∀ token g, s.groupRevocations.lookup token = some g → FiledGroup token g
  isolated : ∀ k q, s.quarantines.lookup k.token = some q → s.entries.lookup k = none

variable {crypto : Crypto} {s t : Store} {key : OriginKey} {token : Token} {cfg : Config}
variable {signed : SignedOffer} {viaPeer : NodeId} {nowMs capturedAtMs restoreNowMs : Int64}
    {alloc : Allocator}
variable {bytes : Bytes}

theorem filed_init (crypto : Crypto) (cfg : Config) : Filed crypto (initWithConfig cfg) where
  entries k _ h := absurd ((lookup_empty k).symm.trans h) nofun
  quarantines token _ h := absurd ((lookup_empty token).symm.trans h) nofun
  leases k _ h := absurd ((lookup_empty k).symm.trans h) nofun
  groups token _ h := absurd ((lookup_empty token).symm.trans h) nofun
  isolated k _ h := absurd ((lookup_empty k.token).symm.trans h) nofun

section

variable (h : Filed crypto s)
include h

theorem Filed.thinned (hthin : Thinned s t) : Filed crypto t where
  entries k e he := by
    obtain ⟨marker, hold⟩ := hthin.entries k e he
    obtain ⟨hkeyed, hoffer, hverified⟩ := h.entries k _ hold
    exact ⟨hkeyed, hoffer, hverified⟩
  quarantines token q hq := h.quarantines token q (hthin.quarantines token q hq)
  leases k l hl := h.leases k l (hthin.leases k l hl)
  groups token g hg := h.groups token g (hthin.groups token g hg)
  isolated k q hq := hthin.entries_none (h.isolated k q (hthin.quarantines k.token q hq))

theorem Filed.entered (key : OriginKey) (entry : Option Entry)
    (hentries : ∀ k, t.entries.lookup k = if k = key then entry else s.entries.lookup k)
    (hquarantines : t.quarantines = s.quarantines)
    (hleases : t.attachmentLeases = s.attachmentLeases)
    (hgroups : t.groupRevocations = s.groupRevocations)
    (hentry : ∀ e, entry = some e → FiledEntry crypto key e)
    (hfree : entry = none ∨ s.quarantines.lookup key.token = none) : Filed crypto t where
  entries := forall_put hentries hentry h.entries
  quarantines token q hq := by
    rw [hquarantines] at hq
    exact h.quarantines token q hq
  leases k l hl := by
    rw [hleases] at hl
    exact h.leases k l hl
  groups token g hg := by
    rw [hgroups] at hg
    exact h.groups token g hg
  isolated k q hq := by
    rw [hquarantines] at hq
    rw [hentries]
    split
    · next hk =>
      refine hfree.resolve_right fun hnone => ?_
      rw [hk, hnone] at hq
      cases hq
    · exact h.isolated k q hq

theorem Filed.quarantined {q : Quarantine} (hq : FiledQuarantine crypto token q)
    (hgone : ∀ k : OriginKey, k.token = token → s.entries.lookup k = none) :
    Filed crypto { s with quarantines := s.quarantines.insert token q } where
  entries := h.entries
  quarantines := forall_insert hq h.quarantines
  leases := h.leases
  groups := h.groups
  isolated k q' hq' := by
    rw [lookup_insert_eq] at hq'
    split at hq'
    · next htoken => exact hgone k htoken
    · exact h.isolated k q' hq'

theorem Filed.leased {l : AttachmentLeaseEntry} (hl : FiledLease crypto key l) :
    Filed crypto { s with attachmentLeases := s.attachmentLeases.insert key l } where
  entries := h.entries
  quarantines := h.quarantines
  leases := forall_insert hl h.leases
  groups := h.groups
  isolated := h.isolated

/-- A committed fence: rows and leases leave, the fence enters. -/
theorem commitGroupRevoke_filed (hgroup : signed.offer.operation = .groupRevoke) {reserved : Store}
    (hreserved : ∃ index, reserved = { s with accountIndex := index }) :
    Filed crypto (reserved.commitGroupRevoke crypto ⟨signed.offer.token, some signed⟩).2 := by
  obtain ⟨u, hwithin, -, -, -, hcommit⟩ :=
    commitGroupRevoke_within crypto signed.offer.token signed hreserved
  rw [hcommit]
  have hcleared := h.thinned hwithin.thinned
  exact { hcleared with groups := forall_insert ⟨rfl, hgroup⟩ hcleared.groups }

end

/-- The OFFER and the entries that are held have no two transcripts of one digest. -/
def Tells (crypto : Crypto) (s : Store) (signed : SignedOffer) : Prop :=
  ∀ k e, s.entries.lookup k = some e → Distinguishes crypto {e.wire.transcript, signed.transcript}

theorem evidence_filed {conflict : IdentityConflictEvidence} {existing : SignedOffer}
    (untilMs : Int64)
    (h : Filed crypto s) (htells : s.Tells crypto signed)
    (hadmitted : Admitted crypto s signed nowMs) (hoffer : signed.offer.isOffer)
    (hconflict : s.findIdentityConflict crypto signed.offer.token signed.offer.account nowMs =
      some conflict) (hwire : conflict.wire = some existing) :
    FiledQuarantine crypto signed.offer.token (evidence crypto signed existing untilMs nowMs) := by
  obtain ⟨k, e, he, htoken, rfl, -, -, hdiffer⟩ := findIdentityConflict_entry hconflict hwire
  obtain ⟨hkeyed, hexisting, hverified⟩ := h.entries k e he
  have hsame : e.wire.offer.token = signed.offer.token := by
    rw [← htoken, ← hkeyed]
    rfl
  have hdigest : digestBytes crypto e.wire.transcript ≠ digestBytes crypto signed.transcript := by
    intro heq
    have hoffers :=
      offer_of_digest (htells k e he) (.inl rfl) (.inr rfl) hverified hadmitted.verified heq
    rw [Entry.account, hoffers, eqlIgnoreCase_self] at hdiffer
    cases hdiffer
  unfold evidence
  by_cases hfirst : digestBytes crypto e.wire.transcript < digestBytes crypto signed.transcript
  · simp only [decide_eq_true hfirst, if_true]
    exact ⟨⟨hexisting, hsame⟩, ⟨hoffer, rfl⟩, hdigest⟩
  · simp only [decide_eq_false hfirst, Bool.false_eq_true, if_false]
    exact ⟨⟨hoffer, rfl⟩, ⟨hexisting, hsame⟩, hdigest.symm⟩

theorem OfferEffect.filed {answer : Except ApplyError ApplyResult}
    (heffect : OfferEffect crypto s signed viaPeer nowMs answer t) (h : Filed crypto s)
    (htells : s.Tells crypto signed) :
    Filed crypto t := by
  have hrouted : ∀ routes index, Filed crypto { s with routes := routes, accountIndex := index } :=
    fun routes index => ⟨h.entries, h.quarantines, h.leases, h.groups, h.isolated⟩
  cases heffect with
  | refused e routes index => exact hrouted routes index
  | fenced => exact h
  | barred => exact h
  | denied => exact h.thinned (markTokenDenied_thinned s _ _)
  | isolated conflict existing hadmitted hoffer hconflict hwire =>
    obtain ⟨u, hwithin, -, -, hgone, hisolated⟩ := isolated_within crypto s signed existing
      (min conflict.expiresAtMs signed.offer.expiresAtMs) nowMs
    have hevidence :=
      evidence_filed (min conflict.expiresAtMs signed.offer.expiresAtMs) h htells hadmitted hoffer
      hconflict hwire
    rw [hisolated]
    exact (h.thinned hwithin.thinned).quarantined hevidence fun k hk => (hgone k hk).1
  | outranked current digest disposition routes => exact hrouted routes s.accountIndex
  | refreshed entry routes hadmitted hentry =>
    obtain ⟨hkeyed, hoffer, hverified⟩ := h.entries _ entry hentry
    refine h.entered signed.offer.key (some { entry with updatedAtMs := nowMs })
      (fun k => lookup_insert_eq _ _ k _) rfl rfl rfl (fun e he => ?_) (.inr ?_)
    · rw [← some.inj he]
      exact ⟨hkeyed, hoffer, hverified⟩
    · refine Option.eq_none_iff_forall_ne_some.mpr fun q hq => ?_
      exact nomatch (h.isolated _ q hq).symm.trans hentry
  | offered disposition current added reserved routes room hinstalls hoffer =>
    refine h.entered signed.offer.key (some (s.offeredEntry signed viaPeer nowMs))
      (fun k => lookup_insert_eq _ _ k _) rfl rfl rfl (fun e he => ?_) (.inr ?_)
    · rw [← some.inj he]
      exact ⟨rfl, hoffer, hinstalls.verified⟩
    · exact quarantines_none hinstalls.unquarantined
  | revoked disposition current routes hinstalls =>
    exact h.entered signed.offer.key none (lookup_erase_eq _ _) rfl rfl rfl nofun (.inl rfl)
  | groupKnown => exact h
  | groupFenced added reserved room hgroup hverified hvalid hnew hagreed hfree hroom hreserve =>
    exact commitGroupRevoke_filed h hgroup (reserveAccountOrigin_frame hreserve)

theorem revokeGroup_filed {commit : Bool} (h : Filed crypto s) :
    Filed crypto (s.revokeGroup crypto signed nowMs alloc commit).2 := by
  obtain ⟨index, heq | ⟨hgroup, -, -, -, -, -, heq⟩⟩ :=
    revokeGroup_cases crypto s signed nowMs alloc commit
  · rw [heq]
    exact ⟨h.entries, h.quarantines, h.leases, h.groups, h.isolated⟩
  · rw [heq]
    exact commitGroupRevoke_filed h hgroup ⟨index, rfl⟩

theorem applySignedAttachmentLease_filed {lease : SignedAttachmentLease} (h : Filed crypto s) :
    Filed crypto (s.applySignedAttachmentLease crypto lease nowMs alloc).2 := by
  rcases applySignedAttachmentLease_cases crypto s lease nowMs alloc with
    hsame | ⟨-, -, l, hput, hl⟩
  · rw [hsame]
    exact h
  rw [hput]
  refine h.leased ?_
  rcases hl with ⟨rfl, -⟩ | ⟨current, hcurrent, -, hdigest, hl⟩
  · exact ⟨rfl, nofun⟩
  obtain ⟨hkeyed, hwitness⟩ := h.leases _ current hcurrent
  rcases hl with rfl | rfl
  · exact ⟨hkeyed, hwitness⟩
  · refine ⟨hkeyed, fun m hm => ?_⟩
    cases hm
    exact ⟨rfl, hdigest⟩

theorem validateCheckpointSignedOffer_verified {operation : OfferOperation}
    (h : s.validateCheckpointSignedOffer crypto bytes operation capturedAtMs = .ok signed) :
    verifyOffer crypto signed = .ok () := by
  unfold validateCheckpointSignedOffer at h
  split at h
  · cases h
  split at h
  · cases h
  rename_i hverified
  simp only at h
  iterate 3
    split at h
    · cases h
  rw [← ok.inj h]
  exact hverified

theorem hasAnyCheckpointState_none (h : s.hasAnyCheckpointState token = false)
    (hk : key.token = token) :
    s.entries.lookup key = none := by
  unfold hasAnyCheckpointState at h
  rw [Bool.or_eq_false_iff, List.any_eq_false] at h
  refine lookup_eq_none.mpr fun hin => ?_
  exact h.1 key (mem_keys.mp hin) (tokenEql_iff.mpr hk)

section

variable (h : Filed crypto s)
include h

theorem restoreCheckpointEntry_filed {updatedAtMs : Int64} {marker : Option Int64}
    (hnone : s.quarantines = ∅)
    (heq : s.restoreCheckpointEntry crypto bytes updatedAtMs marker capturedAtMs alloc = .ok t) :
    Filed crypto t ∧ t.quarantines = ∅ := by
  simp only [restoreCheckpointEntry] at heq
  split at heq
  · cases heq
  rename_i signed hvalid
  obtain ⟨-, hop⟩ := validateCheckpointSignedOffer_decodes hvalid
  have hverified := validateCheckpointSignedOffer_verified hvalid
  iterate 3
    split at heq
    · cases heq
  split at heq
  · cases heq
  · cases heq
  · next reserved hreserve =>
    obtain ⟨index, hreserved⟩ := reserveAccountOrigin_frame hreserve
    obtain ⟨index', faulted, happend⟩ :=
      appendAccountOrigin_frame crypto reserved signed.offer.account signed.offer.key
    rw [happend, hreserved] at heq
    rw [← ok.inj heq]
    refine ⟨h.entered signed.offer.key _ (fun k => lookup_insert_eq _ _ k _) rfl rfl rfl
      (fun e he => ?_) (.inr ?_), hnone⟩
    · rw [← some.inj he]
      exact ⟨rfl, restoresAs_upsert hop, hverified⟩
    · rw [hnone]
      exact lookup_empty _

theorem restoreCheckpointTombstone_filed {removedAtMs : Int64} {identity : Option Digest}
    {marker : Option Int64}
    (heq : s.restoreCheckpointTombstone crypto bytes removedAtMs identity marker capturedAtMs
      alloc = .ok t) :
    Filed crypto t := by
  simp only [restoreCheckpointTombstone] at heq
  split at heq
  · cases heq
  iterate 4
    split at heq
    · cases heq
  rw [← ok.inj heq]
  exact ⟨h.entries, h.quarantines, h.leases, h.groups, h.isolated⟩

theorem restoreCheckpointQuarantine_filed {secondBytes : Bytes} {expiresAtMs detectedAtMs : Int64}
    (heq : s.restoreCheckpointQuarantine crypto bytes secondBytes expiresAtMs detectedAtMs
      capturedAtMs alloc = .ok t) :
    Filed crypto t := by
  simp only [restoreCheckpointQuarantine] at heq
  split at heq
  · cases heq
  rename_i first hfirst
  split at heq
  · cases heq
  rename_i second hsecond
  split at heq
  · cases heq
  rename_i hsame
  split at heq
  · cases heq
  rename_i hordered
  split at heq
  · cases heq
  split at heq
  · cases heq
  rename_i hfresh
  split at heq
  · cases heq
  push Not at hsame hordered hfresh
  rw [← ok.inj heq]
  refine h.quarantined ⟨⟨?_, rfl⟩, ⟨?_, hsame.1.symm⟩, hordered.ne⟩ fun k hk => ?_
  · exact restoresAs_upsert (validateCheckpointSignedOffer_decodes hfirst).2
  · exact restoresAs_upsert (validateCheckpointSignedOffer_decodes hsecond).2
  · exact hasAnyCheckpointState_none (by simpa using hfresh.2) hk

theorem restoreCheckpointAttachmentLease_filed {conflicted : Bool} {conflictBytes : Option Bytes}
    (heq : s.restoreCheckpointAttachmentLease crypto bytes conflicted conflictBytes capturedAtMs
      alloc = .ok t) :
    Filed crypto t := by
  simp only [restoreCheckpointAttachmentLease] at heq
  split at heq
  · cases heq
  rename_i lease hlease
  split at heq
  · cases heq
  split at heq
  · cases heq
  rename_i conflictWire hconflict
  iterate 2
    split at heq
    · cases heq
  rw [← ok.inj heq]
  refine h.leased ⟨rfl, fun m hm => ?_⟩
  cases conflictBytes with
  | none =>
    rw [← ok.inj hconflict] at hm
    cases hm
  | some wire =>
    simp only [validateCheckpointConflict] at hconflict
    split at hconflict
    · cases hconflict
    split at hconflict
    · cases hconflict
    split at hconflict
    · cases hconflict
    rename_i hagree
    push Not at hagree
    rw [← ok.inj hconflict] at hm
    cases hm
    have hrevision := Revision.eql_iff.mp (by simpa using hagree.2.1)
    refine ⟨?_, Ne.symm hagree.2.2.1⟩
    rw [AttachmentLease.key, AttachmentLease.key, hagree.1, hrevision]

theorem restoreCheckpointGroup_filed
    (heq : s.restoreCheckpointGroup crypto bytes capturedAtMs alloc = .ok t) : Filed crypto t := by
  simp only [restoreCheckpointGroup] at heq
  split at heq
  · cases heq
  rename_i signed hvalid
  iterate 2
    split at heq
    · cases heq
  rcases prepareGroupRevoke_cases crypto s signed capturedAtMs alloc with
    ⟨e, hprepare, -⟩ | ⟨old, hold, hprepare⟩ | ⟨added, reserved, room, hgroup, -, -, -, -, -, -,
      hreserve, hprepare⟩
  · rw [hprepare] at heq
    cases e <;> cases heq
  · rw [hprepare] at heq
    rw [← ok.inj heq]
    exact h
  · rw [hprepare] at heq
    rw [← ok.inj heq]
    exact commitGroupRevoke_filed h hgroup (reserveAccountOrigin_frame hreserve)

end

theorem restoreRecords_filed {counts : CheckpointCounts} {xs rest : Bytes}
    (h : restoreRecords crypto cfg capturedAtMs counts alloc xs = .ok (t, rest)) :
    Filed crypto t := by
  obtain ⟨u, mid, hread, h⟩ := cursor_bind_ok h
  have hu := readRecords_keep (P := fun s => Filed crypto s ∧ s.quarantines = ∅)
    (fun n s => readEntry_leaves s)
    (fun n s s' ys zs hs hone => by
      obtain ⟨wire, _, -, hone⟩ := cursor_bind_ok hone
      obtain ⟨updatedAtMs, _, -, hone⟩ := cursor_bind_ok hone
      obtain ⟨marker, _, -, hone⟩ := cursor_bind_ok hone
      exact restoreCheckpointEntry_filed hs.1 hs.2 (check_ok hone))
    ⟨filed_init crypto cfg, rfl⟩ hread
  obtain ⟨v, mid, hread, h⟩ := cursor_bind_ok h
  have hv := readRecords_keep (P := Filed crypto) (fun n s => readTombstone_leaves s)
    (fun n s s' ys zs hs hone => by
    obtain ⟨wire, _, -, hone⟩ := cursor_bind_ok hone
    obtain ⟨removedAtMs, _, -, hone⟩ := cursor_bind_ok hone
    obtain ⟨identity, _, -, hone⟩ := cursor_bind_ok hone
    obtain ⟨marker, _, -, hone⟩ := cursor_bind_ok hone
    exact restoreCheckpointTombstone_filed hs (check_ok hone)) hu.1 hread
  obtain ⟨w, mid, hread, h⟩ := cursor_bind_ok h
  have hw := readRecords_keep (P := Filed crypto) (fun n s => readQuarantine_leaves s)
    (fun n s s' ys zs hs hone => by
    obtain ⟨first, _, -, hone⟩ := cursor_bind_ok hone
    obtain ⟨second, _, -, hone⟩ := cursor_bind_ok hone
    obtain ⟨expiresAtMs, _, -, hone⟩ := cursor_bind_ok hone
    obtain ⟨detectedAtMs, _, -, hone⟩ := cursor_bind_ok hone
    exact restoreCheckpointQuarantine_filed hs (check_ok hone)) hv hread
  obtain ⟨x, mid, hread, h⟩ := cursor_bind_ok h
  have hx := readRecords_keep (P := Filed crypto) (fun n s => readAttachmentLeaseRecord_leaves s)
    (fun n s s' ys zs hs hone => by
      obtain ⟨wire, _, -, hone⟩ := cursor_bind_ok hone
      obtain ⟨conflict, _, -, hone⟩ := cursor_bind_ok hone
      exact restoreCheckpointAttachmentLease_filed hs (check_ok hone)) hw hread
  exact readRecords_keep (P := Filed crypto) (fun n s => readGroup_leaves s)
    (fun n s s' ys zs hs hone => by
    obtain ⟨wire, _, -, hone⟩ := cursor_bind_ok hone
    exact restoreCheckpointGroup_filed hs (check_ok hone)) hx h

theorem restoreUpgradeCheckpoint_filed
    (h : restoreUpgradeCheckpoint crypto cfg bytes restoreNowMs alloc = .ok t) :
    Filed crypto t := by
  obtain ⟨body, capturedAtMs, counts, mid, read, rest, -, -, -, -, hrecords, rfl⟩ :=
    restoreUpgradeCheckpoint_ok h
  exact (restoreRecords_filed hrecords).thinned (sweep_thinned read restoreNowMs)

/-- The OFFER of a call is told apart from the entries it meets. -/
def TellsCall (crypto : Crypto) (s : Store) : Call → Prop
  | .applySignedOffer signed _ _ _ => s.Tells crypto signed
  | _ => True

theorem step_filed {call : Call} (h : Filed crypto s) (htells : s.TellsCall crypto call) :
    Filed crypto (s.step crypto call).2 := by
  have hreplaced : ∀ restored : Except UpgradeCheckpointError Store,
      (∀ t, restored = .ok t → Filed crypto t) → Filed crypto (s.replaced restored).2 := by
    intro restored hrestored
    cases restored with
    | error e => exact h
    | ok t => exact hrestored t rfl
  cases call with
  | applySignedOffer signed viaPeer nowMs alloc =>
    exact (applySignedOffer_effect crypto s signed viaPeer nowMs alloc).filed h htells
  | groupRevoke signed nowMs alloc commit => exact revokeGroup_filed h
  | applySignedAttachmentLease signed nowMs alloc => exact applySignedAttachmentLease_filed h
  | sweep nowMs => exact h.thinned (sweep_thinned s nowMs)
  | removePeer peer => exact ⟨h.entries, h.quarantines, h.leases, h.groups, h.isolated⟩
  | restore bytes restoreNowMs alloc =>
      exact hreplaced _ fun t ht => restoreUpgradeCheckpoint_filed ht
  | upgrade capturedAtMs restoreNowMs encodeAlloc restoreAlloc =>
    refine hreplaced _ fun t ht => ?_
    unfold upgraded at ht
    split at ht
    · cases ht
    · exact restoreUpgradeCheckpoint_filed ht
  | rehash table i => exact h.thinned (rehash_within s i table).thinned

end Store

end OnyxServer.SessionReplica
