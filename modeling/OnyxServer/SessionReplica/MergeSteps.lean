import OnyxServer.SessionReplica.Merging

/-!
# One more fact

What a store has merged after it took an OFFER, a REVOKE, a group revoke or a lease. The
facts name one account per token, so no quarantine arises, and a call that is refused was
refused under pressure.
-/
namespace OnyxServer.SessionReplica

open Lib Text HashMap Option

namespace Store

variable {crypto : Crypto} {seen facts : Fact → Prop} {s t : Store} {key : OriginKey}
    {token : Token}
variable {signed w : SignedOffer} {viaPeer : NodeId} {nowMs : Int64} {alloc : Allocator}

namespace Merged

section

variable (h : Merged crypto seen s)
include h

theorem congr (hentries : ∀ k, t.entries.lookup k = s.entries.lookup k)
    (htombstones : ∀ k, t.tombstones.lookup k = s.tombstones.lookup k)
    (hleases : ∀ k, t.attachmentLeases.lookup k = s.attachmentLeases.lookup k)
    (hgroups : ∀ token, t.groupRevocations.lookup token = s.groupRevocations.lookup token)
    (hquarantines : ∀ token, t.quarantines.lookup token = s.quarantines.lookup token) :
    Merged crypto seen t := by
  have hrow : ∀ k, t.row k = s.row k := fun k => by simp only [row, hentries, htombstones]
  constructor
  case offers => exact fun k e he => h.offers k e (hentries k ▸ he)
  case revokes => exact fun k tomb ht => h.revokes k tomb (htombstones k ▸ ht)
  case bound => exact fun k tomb d ht => h.bound k tomb d (htombstones k ▸ ht)
  case apart => exact fun k tomb ht => (hentries k).trans (h.apart k tomb (htombstones k ▸ ht))
  case held => exact fun k w hfree hw => h.held k w hfree (hrow k ▸ hw)
  case unheld => exact fun k w hfree hw => h.unheld k w hfree (hrow k ▸ hw)
  case cleared => exact fun k hfence => by rw [hrow, hleases]; exact h.cleared k hfence
  case fenced => exact fun token => by rw [hgroups]; exact h.fenced token
  case fence => exact fun token g hg => h.fence token g (hgroups token ▸ hg)
  case free => exact fun token => (hquarantines token).trans (h.free token)
  case leaseHeld => exact fun k l hfree hl => h.leaseHeld k l hfree (hleases k ▸ hl)
  case leaseUnheld => exact fun k m hfree hl => h.leaseUnheld k m hfree (hleases k ▸ hl)

/-- The row of one origin written, all else as it was. -/
theorem afterOffer (hsingle : signed.offer.operation ≠ .groupRevoke)
    (hoffers : ∀ k e, t.entries.lookup k = some e → e.wire.offer.isOffer ∧
      e.quarantineUntilMs = none) (hrevokes : ∀ k tomb, t.tombstones.lookup k = some tomb →
      tomb.wire.offer.operation = .remove ∧ tomb.quarantineUntilMs = none)
    (hbound : ∀ k tomb d, t.tombstones.lookup k = some tomb → tomb.identityDigest = some d →
      ∃ w, seen (.offer w) ∧ w.offer.isOffer ∧ w.offer.token = k.token ∧
        accountDigest crypto w.offer.account = d)
    (hapart : ∀ k tomb, t.tombstones.lookup k = some tomb → t.entries.lookup k = none)
    (hother : ∀ k, k ≠ signed.offer.key → t.row k = s.row k)
    (hheld : ¬ Fenced seen signed.offer.token → ∃ w, t.row signed.offer.key = some w ∧
      Latest (precedence crypto) (fun z => z = signed ∨ About seen signed.offer.key z) w)
    (hgone : Fenced seen signed.offer.token → t.row signed.offer.key = none)
    (hleases : t.attachmentLeases = s.attachmentLeases)
    (hgroups : t.groupRevocations = s.groupRevocations)
    (hquarantines : t.quarantines = s.quarantines) :
    Merged crypto (With seen (.offer signed)) t := by
  have hfence : ∀ token, Fenced (With seen (.offer signed)) token ↔ Fenced seen token :=
    fun token => fenced_with_single hsingle
  constructor
  case offers => exact hoffers
  case revokes => exact hrevokes
  case apart => exact hapart
  case bound =>
    intro k tomb d ht hd
    obtain ⟨w, hw, hrest⟩ := hbound k tomb d ht hd
    exact ⟨w, .inr hw, hrest⟩
  case held =>
    intro k w hfree hw
    rw [hfence] at hfree
    by_cases hk : k = signed.offer.key
    · subst hk
      obtain ⟨w', hrow, hlatest⟩ := hheld hfree
      rw [hrow] at hw
      cases hw
      refine hlatest.congr fun z => (about_with_offer hsingle).trans ?_
      simp only [and_true]
    · rw [hother k hk] at hw
      refine (h.held k w hfree hw).congr fun z => (about_with_offer hsingle).trans ?_
      simp only [hk, and_false, false_or]
  case unheld =>
    intro k w hfree hnone hw
    rw [hfence] at hfree
    by_cases hk : k = signed.offer.key
    · subst hk
      obtain ⟨w', hrow, -⟩ := hheld hfree
      rw [hrow] at hnone
      cases hnone
    · rw [hother k hk] at hnone
      rcases (about_with_offer hsingle).mp hw with ⟨-, hkey⟩ | hw
      · exact hk hkey
      · exact h.unheld k w hfree hnone hw
  case cleared =>
    intro k hfenced
    rw [hfence] at hfenced
    rw [hleases]
    by_cases hk : k = signed.offer.key
    · subst hk
      exact ⟨hgone hfenced, (h.cleared _ hfenced).2⟩
    · rw [hother k hk]
      exact h.cleared k hfenced
  case fenced => exact fun token => by rw [hgroups, hfence]; exact h.fenced token
  case fence =>
    intro token g hg
    rw [hgroups] at hg
    obtain ⟨hseen, hrest⟩ := h.fence token g hg
    exact ⟨.inr hseen, hrest⟩
  case free => exact fun token => by rw [hquarantines]; exact h.free token
  case leaseHeld =>
    intro k l hfree hl
    rw [hfence] at hfree
    rw [hleases] at hl
    exact (h.leaseHeld k l hfree hl).congr fun m => leaseAbout_with_offer
  case leaseUnheld =>
    intro k m hfree hl hm
    rw [hfence] at hfree
    rw [hleases] at hl
    exact h.leaseUnheld k m hfree hl (leaseAbout_with_offer.mp hm)

/-- A fact of a fenced token, or one that the row of its origin outranks or equals. -/
theorem absorbed (hsingle : signed.offer.operation ≠ .groupRevoke)
    (hrow : Fenced seen signed.offer.token ∨
      ∃ w, s.row signed.offer.key = some w ∧ precedence crypto signed ≤ precedence crypto w) :
    Merged crypto (With seen (.offer signed)) s := by
  refine h.afterOffer hsingle h.offers h.revokes h.bound h.apart (fun _ _ => rfl) (fun hfree => ?_)
    (fun hfenced => (h.cleared signed.offer.key hfenced).1) rfl rfl rfl
  obtain ⟨w, hw, hle⟩ := hrow.resolve_left hfree
  exact ⟨w, hw, (h.held signed.offer.key w hfree hw).keep hle⟩

/-- Nothing that was seen of the origin outranks a fact that may be installed. -/
theorem outranked_all (hinstalls : Installs crypto s signed nowMs)
    (hfree : ¬ Fenced seen signed.offer.token) (hw : About seen signed.offer.key w) :
    precedence crypto w ≤ precedence crypto signed := by
  cases hrow : s.row signed.offer.key with
  | none => exact absurd hw (h.unheld signed.offer.key w hfree hrow)
  | some current =>
    have hstanding := standing_row crypto s signed.offer.key
    rw [hrow, Option.map_some] at hstanding
    exact ((h.held _ current hfree hrow).max w hw).trans
      (precedence_lt (hinstalls.outranks _ _ hstanding) rfl).le

theorem free_of_admitted (hadmitted : Admitted crypto s signed nowMs) :
    ¬ Fenced seen signed.offer.token := by
  intro hfence
  have hsome := (h.fenced signed.offer.token).mpr hfence
  rw [hadmitted.unfenced] at hsome
  cases hsome

/-- A row written by an admitted fact: an entry or a tombstone, never both. -/
theorem written {entry : Option Entry} {tombstone : Option Tombstone}
    (hadmitted : Admitted crypto s signed nowMs)
    (hw : Rewritten s t signed.offer.key entry tombstone)
    (hentry : ∀ e, entry = some e → e.wire.offer.isOffer ∧ e.quarantineUntilMs = none)
    (htombstone : ∀ tomb, tombstone = some tomb →
      tomb.wire.offer.operation = .remove ∧ tomb.quarantineUntilMs = none)
    (hbound : ∀ tomb, tombstone = some tomb → ∀ d, tomb.identityDigest = some d →
      ∃ w, seen (.offer w) ∧ w.offer.isOffer ∧ w.offer.token = signed.offer.token ∧
        accountDigest crypto w.offer.account = d)
    (hone : tombstone ≠ none → entry = none)
    (hheld : ¬ Fenced seen signed.offer.token → ∃ w, t.row signed.offer.key = some w ∧
      Latest (precedence crypto) (fun z => z = signed ∨ About seen signed.offer.key z) w) :
    Merged crypto (With seen (.offer signed)) t := by
  have hbounds := forall_put hw.tombstones hbound fun k tomb ht d => h.bound k tomb d ht
  refine h.afterOffer hadmitted.single (forall_put hw.entries hentry h.offers)
    (forall_put hw.tombstones htombstone h.revokes)
      (fun k tomb d ht => hbounds k tomb ht d) ?_ ?_ hheld
    (fun hfenced => absurd hfenced (h.free_of_admitted hadmitted)) hw.leases hw.groups
      hw.quarantines
  · intro k tomb ht
    rw [hw.tombstones] at ht
    rw [hw.entries]
    split at ht
    · next hk => rw [if_pos hk, hone (ht ▸ nofun)]
    · next hk => rw [if_neg hk, h.apart k tomb ht]
  · intro k hk
    simp only [row, hw.entries, hw.tombstones, if_neg hk]

/-- An entry in the row of its origin, with the tombstone gone. -/
theorem entered {e : Entry} (hinstalls : Installs crypto s signed nowMs)
    (hoffer : signed.offer.isOffer) (hwire : e.wire = signed) (hmarker : e.quarantineUntilMs = none)
    (hw : Rewritten s t signed.offer.key (some e) none) :
    Merged crypto (With seen (.offer signed)) t := by
  refine h.written hinstalls.toAdmitted hw (fun e' he => ?_) nofun nofun (absurd rfl)
    fun hfree => ⟨signed, ?_, Latest.replace fun z hz => h.outranked_all hinstalls hfree hz⟩
  · cases he
    exact ⟨hwire ▸ hoffer, hmarker⟩
  · rw [row_entry (e := e) (by rw [hw.entries, if_pos rfl]), hwire]

/-- The account of a token, when a row of it names one. -/
theorem identityDigestForToken {d : Digest}
    (hd : s.identityDigestForToken crypto token = some d) :
    ∃ w, seen (.offer w) ∧ w.offer.isOffer ∧ w.offer.token = token ∧
    accountDigest crypto w.offer.account = d := by
  unfold Store.identityDigestForToken at hd
  split at hd
  · next slot hslot =>
    have he := HashMap.mem_entries.mp (List.mem_of_find?_eq_some hslot)
    obtain ⟨-, hseen, -, hkey⟩ := h.entry_about he
    refine ⟨slot.2.wire, hseen, (h.offers slot.1 slot.2 he).1, ?_, some.inj hd⟩
    have htoken := List.find?_some hslot
    rw [tokenEql_iff] at htoken
    rw [← htoken, ← hkey]
    rfl
  · obtain ⟨slot, hslot, hbound⟩ := List.exists_of_findSome?_eq_some hd
    split at hbound
    · next htoken => exact htoken ▸ h.bound slot.1 slot.2 d (HashMap.mem_entries.mp hslot) hbound
    · cases hbound

theorem tombstoneIdentity {d : Digest} (hd : s.tombstoneIdentity crypto key = some d) :
    ∃ w, seen (.offer w) ∧ w.offer.isOffer ∧ w.offer.token = key.token ∧
      accountDigest crypto w.offer.account = d := by
  unfold Store.tombstoneIdentity at hd
  split at hd
  · next old hold =>
    split at hd
    · next bound hbound => exact h.bound key old d hold (hbound.trans hd)
    · exact h.identityDigestForToken hd
  · split at hd
    · next entry hentry =>
      obtain ⟨-, hseen, -, hkey⟩ := h.entry_about hentry
      exact ⟨entry.wire, hseen, (h.offers key entry hentry).1, hkey ▸ rfl, some.inj hd⟩
    · exact h.identityDigestForToken hd

/-- A tombstone in the row of its origin, with the entry gone. -/
theorem buried (hinstalls : Installs crypto s signed nowMs)
    (hremove : signed.offer.operation = .remove)
    (hw : Rewritten s t signed.offer.key none (some (s.revokedTombstone crypto signed nowMs))) :
    Merged crypto (With seen (.offer signed)) t := by
  refine h.written hinstalls.toAdmitted hw nofun (fun tomb ht => ?_) (fun tomb ht d hd => ?_)
    (fun _ => rfl)
    fun hfree => ⟨signed, ?_, Latest.replace fun z hz => h.outranked_all hinstalls hfree hz⟩
  · cases ht
    exact ⟨hremove, rfl⟩
  · cases ht
    exact h.tombstoneIdentity hd
  · exact row_tombstone (by rw [hw.entries, if_pos rfl]) (by rw [hw.tombstones, if_pos rfl])

/-- A token fenced: its rows and leases are gone. -/
theorem fencedOff (hgroup : signed.offer.operation = .groupRevoke)
    (hentries : ∀ k, t.entries.lookup k = if k.token = signed.offer.token then none
      else s.entries.lookup k) (htombstones : ∀ k, t.tombstones.lookup k =
      if k.token = signed.offer.token then none else s.tombstones.lookup k)
    (hleases : ∀ k, t.attachmentLeases.lookup k =
      if k.token = signed.offer.token then none else s.attachmentLeases.lookup k)
    (hgroups : t.groupRevocations = s.groupRevocations.insert signed.offer.token ⟨signed⟩)
    (hquarantines : t.quarantines = s.quarantines) :
    Merged crypto (With seen (.offer signed)) t := by
  have hrow : ∀ k, t.row k = if k.token = signed.offer.token then none else s.row k := by
    intro k
    by_cases htoken : k.token = signed.offer.token
    · simp only [row, hentries, htombstones, if_pos htoken, Option.map_none]
    · simp only [row, hentries, htombstones, if_neg htoken]
  have hlookup : ∀ token, t.groupRevocations.lookup token =
      if token = signed.offer.token then some ⟨signed⟩ else s.groupRevocations.lookup token := by
    intro token
    rw [hgroups, lookup_insert_eq]
  have hother : ∀ {k : OriginKey}, ¬ Fenced (With seen (.offer signed)) k.token →
      k.token ≠ signed.offer.token ∧ ¬ Fenced seen k.token := by
    intro k hfree
    rw [fenced_with_group hgroup] at hfree
    exact ⟨fun htoken => hfree (.inl htoken), fun hfence => hfree (.inr hfence)⟩
  constructor
  case offers =>
    intro k e he
    rw [hentries] at he
    split_ifs at he
    · exact h.offers k e he
  case revokes =>
    intro k tomb ht
    rw [htombstones] at ht
    split_ifs at ht
    · exact h.revokes k tomb ht
  case bound =>
    intro k tomb d ht hd
    rw [htombstones] at ht
    split_ifs at ht
    · obtain ⟨w, hw, hrest⟩ := h.bound k tomb d ht hd
      exact ⟨w, .inr hw, hrest⟩
  case apart =>
    intro k tomb ht
    rw [htombstones] at ht
    rw [hentries]
    split
    · rfl
    · next htoken =>
      rw [if_neg htoken] at ht
      exact h.apart k tomb ht
  case held =>
    intro k w hfree hw
    obtain ⟨htoken, hfree⟩ := hother hfree
    rw [hrow, if_neg htoken] at hw
    exact (h.held k w hfree hw).congr fun z => about_with_group hgroup
  case unheld =>
    intro k w hfree hnone hw
    obtain ⟨htoken, hfree⟩ := hother hfree
    rw [hrow, if_neg htoken] at hnone
    exact h.unheld k w hfree hnone ((about_with_group hgroup).mp hw)
  case cleared =>
    intro k hfence
    rw [hrow, hleases]
    rcases (fenced_with_group hgroup).mp hfence with htoken | hfence
    · rw [if_pos htoken, if_pos htoken]
      exact ⟨rfl, rfl⟩
    · split
      · exact ⟨rfl, rfl⟩
      · exact h.cleared k hfence
  case fenced =>
    intro token
    rw [hlookup, fenced_with_group hgroup]
    split
    · next htoken => exact iff_of_true rfl (.inl htoken)
    · next htoken => simpa [htoken] using h.fenced token
  case fence =>
    intro token g hg
    rw [hlookup] at hg
    split at hg
    · next htoken =>
      cases hg
      exact ⟨.inl rfl, hgroup, htoken.symm⟩
    · obtain ⟨hseen, hrest⟩ := h.fence token g hg
      exact ⟨.inr hseen, hrest⟩
  case free => exact fun token => by rw [hquarantines]; exact h.free token
  case leaseHeld =>
    intro k l hfree hl
    obtain ⟨htoken, hfree⟩ := hother hfree
    rw [hleases, if_neg htoken] at hl
    exact (h.leaseHeld k l hfree hl).congr fun m => leaseAbout_with_offer
  case leaseUnheld =>
    intro k m hfree hl hm
    obtain ⟨htoken, hfree⟩ := hother hfree
    rw [hleases, if_neg htoken] at hl
    exact h.leaseUnheld k m hfree hl (leaseAbout_with_offer.mp hm)

/-- A fact that says nothing about the rows, and what there is of leases after it. -/
theorem relabelled {fact : Fact} {leases : HashMap OriginKey AttachmentLeaseEntry}
    (hsame : ∀ token, Fenced (With seen fact) token ↔ Fenced seen token)
    (habout : ∀ k w, About (With seen fact) k w ↔ About seen k w)
    (hcleared : ∀ k, Fenced seen k.token → leases.lookup k = none)
    (hheld : ∀ k l, ¬ Fenced seen k.token → leases.lookup k = some l →
      HoldsLease crypto (LeaseAbout (With seen fact) k) l)
    (hunheld : ∀ k m, ¬ Fenced seen k.token → leases.lookup k = none →
      ¬ LeaseAbout (With seen fact) k m) :
    Merged crypto (With seen fact) { s with attachmentLeases := leases } := by
  constructor
  case offers => exact h.offers
  case revokes => exact h.revokes
  case apart => exact h.apart
  case free => exact h.free
  case bound =>
    intro k tomb d ht hd
    obtain ⟨w, hw, hrest⟩ := h.bound k tomb d ht hd
    exact ⟨w, .inr hw, hrest⟩
  case fence =>
    intro token g hg
    obtain ⟨hseen, hrest⟩ := h.fence token g hg
    exact ⟨.inr hseen, hrest⟩
  case held =>
    exact fun k w hfree hw => (h.held k w (fun hf => hfree ((hsame _).mpr hf)) hw).congr (habout k)
  case unheld =>
    intro k w hfree hnone hw
    exact h.unheld k w (fun hf => hfree ((hsame _).mpr hf)) hnone ((habout k w).mp hw)
  case cleared =>
    exact fun k hf => ⟨(h.cleared k ((hsame _).mp hf)).1, hcleared k ((hsame _).mp hf)⟩
  case fenced => exact fun token => (h.fenced token).trans (hsame token).symm
  case leaseHeld => exact fun k l hfree => hheld k l fun hf => hfree ((hsame _).mpr hf)
  case leaseUnheld => exact fun k m hfree => hunheld k m fun hf => hfree ((hsame _).mpr hf)

theorem refenced (hgroup : signed.offer.operation = .groupRevoke)
    (hfence : Fenced seen signed.offer.token) : Merged crypto (With seen (.offer signed)) s := by
  have hsame : ∀ token, Fenced (With seen (.offer signed)) token ↔ Fenced seen token := by
    intro token
    rw [fenced_with_group hgroup, or_iff_right_of_imp]
    rintro rfl
    exact hfence
  have hlease : ∀ k m, LeaseAbout (With seen (.offer signed)) k m ↔ LeaseAbout seen k m :=
    fun k m => leaseAbout_with_offer
  refine h.relabelled hsame (fun k w => about_with_group hgroup)
    (fun k hf => (h.cleared k hf).2) ?_ ?_
  · exact fun k l hfree hl => (h.leaseHeld k l hfree hl).congr (hlease k)
  · exact fun k m hfree hl hm => h.leaseUnheld k m hfree hl ((hlease k m).mp hm)

/-- An OFFER, a REVOKE or a group revoke that is valid and not refused under pressure is
merged. -/
theorem applySignedOffer (hone : OneAccount facts) (hsub : ∀ f, seen f → facts f)
    (hfact : facts (.offer signed)) (hverified : verifyOffer crypto signed = .ok ())
    (hvalid : s.validateOfferForStore signed.offer nowMs = .ok ())
    (hroom : ∀ e, (s.applySignedOffer crypto signed viaPeer nowMs alloc).1 = .error e →
      e.pressure = false) :
    Merged crypto (With seen (.offer signed))
    (s.applySignedOffer crypto signed viaPeer nowMs alloc).2 := by
  have heffect := applySignedOffer_effect crypto s signed viaPeer nowMs alloc
  revert hroom heffect
  generalize (s.applySignedOffer crypto signed viaPeer nowMs alloc).1 = answer
  generalize (s.applySignedOffer crypto signed viaPeer nowMs alloc).2 = t
  intro hroom heffect
  cases heffect with
  | refused e routes index hlisted hfull why =>
    exfalso
    rcases why with hpressure | hbad | hbad | ⟨hgroup, hquarrel⟩
    · rw [hroom e rfl] at hpressure
      cases hpressure
    · exact hbad hverified
    · exact hbad hvalid
    · have hsigned : signed.offer.operation ≠ .remove := by rw [hgroup]; nofun
      rcases hquarrel with hmismatch | hquarantine | ⟨old, hold, hother⟩
      · rw [h.no_mismatch hone hsub hfact hsigned] at hmismatch
        cases hmismatch
      · rw [h.unquarantined] at hquarantine
        cases hquarantine
      · obtain ⟨hseen, hop, htoken⟩ := h.fence _ old hold
        have hagrees : eqlIgnoreCase old.account signed.offer.account = true := by
          rw [eqlIgnoreCase_iff]
          exact account_agrees hone hsub hfact hsigned hseen (by rw [hop]; nofun) htoken
        rw [hother] at hagrees
        cases hagrees
  | fenced group hfence hsingle =>
    refine h.absorbed hsingle (.inl ((h.fenced _).mp ?_))
    rw [hfence]
    rfl
  | barred hadmitted hbarred =>
    rw [h.not_quarantined] at hbarred
    cases hbarred
  | denied conflict answer hadmitted hoffer hconflict hfree hanswer =>
    rw [h.no_conflict hone hsub hfact hoffer] at hconflict
    cases hconflict
  | isolated conflict existing hadmitted hoffer hconflict hwire hfree hspace =>
    rw [h.no_conflict hone hsub hfact hoffer] at hconflict
    cases hconflict
  | outranked current digest disposition routes hadmitted hstanding hrank hdisposition =>
    rw [standing_row, Option.map_eq_some_iff] at hstanding
    obtain ⟨w, hw, heq⟩ := hstanding
    exact (h.absorbed hadmitted.single (.inr ⟨w, hw, precedence_le hrank heq.symm⟩)).congr
      (fun _ => rfl)
      (fun _ => rfl) (fun _ => rfl) (fun _ => rfl) (fun _ => rfl)
  | refreshed entry routes hadmitted hentry hrevision hdigest hoffer =>
    have hle : precedence crypto signed ≤ precedence crypto entry.wire :=
      precedence_le (.inr ⟨hrevision.symm, hdigest.le⟩) rfl
    have hnone : s.tombstones.lookup signed.offer.key = none :=
      Option.eq_none_iff_forall_ne_some.mpr fun tomb ht =>
        nomatch (h.apart _ tomb ht).symm.trans hentry
    refine h.written hadmitted (.refreshed hnone) (fun e he => ?_) nofun nofun (absurd rfl)
      fun hfree =>
        ⟨_, row_entry (AList.lookup_insert _), (h.held _ _ hfree (row_entry hentry)).keep hle⟩
    cases he
    exact h.offers _ entry hentry
  | offered disposition current added reserved routes room hinstalls hoffer hdisposition hadmits
      hreserve =>
    exact h.entered hinstalls hoffer rfl rfl .offered
  | revoked disposition current routes hinstalls hremove hdisposition hadmits =>
    exact h.buried hinstalls hremove .revoked
  | groupKnown old hold hgroup =>
    refine h.refenced hgroup ((h.fenced _).mp ?_)
    rw [hold]
    rfl
  | groupFenced added reserved room hgroup hv hval hnew hagreed hfree hspace hreserve =>
    obtain ⟨index, hreserved⟩ := reserveAccountOrigin_frame hreserve
    obtain ⟨routes, soft, index', faulted, hcommit⟩ :=
      commitGroupRevoke_frame crypto reserved signed.offer.token signed
    rw [hcommit, hreserved]
    refine h.fencedOff hgroup (lookup_dropToken _ _) (lookup_dropToken _ _) (fun k => ?_) rfl rfl
    refine (lookup_keep _ _ k).trans ?_
    by_cases htoken : k.token = signed.offer.token
    · rw [if_pos htoken, tokenEql_iff.mpr htoken]
      cases s.attachmentLeases.lookup k <;> rfl
    · rw [if_neg htoken, Bool.eq_false_iff.mpr (fun heq => htoken (tokenEql_iff.mp heq))]
      cases s.attachmentLeases.lookup k <;> rfl

end

variable {lease : SignedAttachmentLease}

theorem afterLease (h : Merged crypto seen s) {leases : HashMap OriginKey AttachmentLeaseEntry}
    (hother : ∀ k, k ≠ lease.lease.key → leases.lookup k = s.attachmentLeases.lookup k)
    (hheld : ¬ Fenced seen lease.lease.token → ∃ l, leases.lookup lease.lease.key = some l ∧
      HoldsLease crypto (fun m => m = lease ∨ LeaseAbout seen lease.lease.key m) l)
    (hgone : Fenced seen lease.lease.token → leases.lookup lease.lease.key = none) :
    Merged crypto (With seen (.lease lease)) { s with attachmentLeases := leases } := by
  refine h.relabelled (fun token => fenced_with_lease) (fun k w => about_with_lease) ?_ ?_ ?_
  · intro k hf
    by_cases hk : k = lease.lease.key
    · subst hk
      exact hgone hf
    · exact (hother k hk).trans (h.cleared k hf).2
  · intro k l hfree hl
    by_cases hk : k = lease.lease.key
    · subst hk
      obtain ⟨l', hl', hholds⟩ := hheld hfree
      obtain rfl := some.inj (hl'.symm.trans hl)
      refine hholds.congr fun m => ?_
      rw [leaseAbout_with_lease, and_iff_left rfl]
    · refine (h.leaseHeld k l hfree ((hother k hk).symm.trans hl)).congr fun m => ?_
      rw [leaseAbout_with_lease]
      simp only [hk, and_false, false_or]
  · intro k m hfree hl hm
    rcases leaseAbout_with_lease.mp hm with ⟨-, hk⟩ | hm
    · subst hk
      obtain ⟨l', hl', -⟩ := hheld hfree
      exact nomatch hl'.symm.trans hl
    · by_cases hk : k = lease.lease.key
      · subst hk
        obtain ⟨l', hl', -⟩ := hheld hfree
        exact nomatch hl'.symm.trans hl
      · exact h.leaseUnheld k m hfree ((hother k hk).symm.trans hl) hm

variable {about : SignedAttachmentLease → Prop}

theorem HoldsLease.keep {l : AttachmentLeaseEntry}
    (h : HoldsLease crypto about l)
    (hle : lease.lease.revision < l.revision ∨
      lease.lease.revision = l.revision ∧
        (l.conflicted = true ∨ digestBytes crypto lease.transcript = l.digest crypto)) :
    HoldsLease crypto (fun m => m = lease ∨ about m) l := by
  obtain ⟨hmem, hmax, hconflicted, hwitness⟩ := h
  refine ⟨.inr hmem, ?_, ?_, hwitness⟩
  · rintro m (rfl | hm)
    · rcases hle with hlt | ⟨heq, -⟩
      · exact hlt.le
      · exact heq.le
    · exact hmax m hm
  · rw [hconflicted]
    constructor
    · rintro ⟨m, hm, hrest⟩
      exact ⟨m, .inr hm, hrest⟩
    · rintro ⟨m, rfl | hm, hrevision, hdigest⟩
      · rcases hle with hlt | ⟨-, hflag | hsame⟩
        · exact absurd hrevision hlt.ne
        · exact hconflicted.mp hflag
        · exact absurd hsame hdigest
      · exact ⟨m, hm, hrevision, hdigest⟩

theorem HoldsLease.replace
    (hmax : ∀ m, about m → m.lease.revision < lease.lease.revision) :
    HoldsLease crypto (fun m => m = lease ∨ about m) ⟨lease, false, none⟩ where
  mem := .inl rfl
  max := by
    rintro m (rfl | hm)
    · exact le_rfl
    · exact (hmax m hm).le
  conflicted := by
    refine iff_of_false Bool.false_ne_true ?_
    rintro ⟨m, rfl | hm, hrevision, hdigest⟩
    · exact hdigest rfl
    · exact (hmax m hm).ne hrevision
  witness := rfl

/-- A second transcript of the revision that is held. -/
theorem HoldsLease.contradict {l : AttachmentLeaseEntry}
    (h : HoldsLease crypto about l) (hrevision : lease.lease.revision = l.revision)
    (hdigest : digestBytes crypto lease.transcript ≠ l.digest crypto) :
    HoldsLease crypto (fun m => m = lease ∨ about m)
    { l with conflicted := true, conflictWire := some lease } where
  mem := .inr h.mem
  max := by
    rintro m (rfl | hm)
    · exact hrevision.le
    · exact h.max m hm
  conflicted := iff_of_true rfl ⟨lease, .inl rfl, hrevision, hdigest⟩
  witness := rfl

/-- A lease that is valid and not refused for want of room is merged. -/
theorem applySignedAttachmentLease (h : Merged crypto seen s)
    (hverified : verifyAttachmentLease crypto lease = .ok ())
    (hvalid : s.validateLeaseForStore lease.lease nowMs = .ok ())
    (hroom : ∀ e, (s.applySignedAttachmentLease crypto lease nowMs alloc).1 = .error e →
      e ≠ .attachmentLeaseFull ∧ e ≠ .outOfMemory) :
    Merged crypto (With seen (.lease lease))
    (s.applySignedAttachmentLease crypto lease nowMs alloc).2 := by
  have hwritten (entry : AttachmentLeaseEntry) (hfree : ¬ Fenced seen lease.lease.token)
      (hholds : HoldsLease crypto (fun m => m = lease ∨ LeaseAbout seen lease.lease.key m) entry) :
      Merged crypto (With seen (.lease lease))
        { s with attachmentLeases := s.attachmentLeases.insert lease.lease.key entry } :=
    h.afterLease (fun k hk => AList.lookup_insert_ne hk)
      (fun _ => ⟨_, AList.lookup_insert _, hholds⟩) fun hfence => absurd hfence hfree
  have hinstall (replacing : Bool) (hfree : ¬ Fenced seen lease.lease.token)
      (hmax : ∀ m, LeaseAbout seen lease.lease.key m → m.lease.revision < lease.lease.revision)
      (hspace : ∀ e, (s.installAttachmentLease lease replacing alloc).1 = .error e →
        e ≠ .outOfMemory) :
      Merged crypto (With seen (.lease lease))
        (s.installAttachmentLease lease replacing alloc).2 := by
    revert hspace
    fun_cases s.installAttachmentLease lease replacing alloc <;> intro hspace
    · exact absurd rfl (hspace _ rfl)
    · exact hwritten _ hfree (HoldsLease.replace hmax)
  have hsame (hheld : ¬ Fenced seen lease.lease.token →
      ∃ l, s.attachmentLeases.lookup lease.lease.key = some l ∧
        HoldsLease crypto (fun m => m = lease ∨ LeaseAbout seen lease.lease.key m) l) :
      Merged crypto (With seen (.lease lease)) s :=
    h.afterLease (fun _ _ => rfl) hheld fun hfence => (h.cleared _ hfence).2
  revert hroom
  fun_cases s.applySignedAttachmentLease crypto lease nowMs alloc <;> intro hroom
  case case1 e he => exact nomatch hverified.symm.trans he
  case case3 e he => exact nomatch hvalid.symm.trans he
  case case2 hgroup => exact hsame fun hfree => absurd ((h.fenced _).mp hgroup) hfree
  all_goals
    have hfree : ¬ Fenced seen lease.lease.token :=
      fun hfence => absurd ((h.fenced _).mpr hfence) (by assumption)
  case case7 hfull => exact absurd rfl (hroom _ rfl).1
  case case8 hnone _ _ =>
    refine hinstall false hfree (fun m hm => absurd hm (h.leaseUnheld _ m hfree hnone))
      fun e he => (hroom e ?_).2
    exact congrArg (Except.map _) he
  case case4 current hcurrent hlt =>
    have hholds := h.leaseHeld _ current hfree hcurrent
    exact hsame fun _ =>
      ⟨current, hcurrent, HoldsLease.keep hholds (.inl (Revision.compare_lt.mp hlt))⟩
  case case6 current hcurrent hgt _ =>
    have hholds := h.leaseHeld _ current hfree hcurrent
    refine hinstall true hfree
      (fun m hm => (hholds.max m hm).trans_lt (Revision.compare_gt.mp hgt))
      fun e he => (hroom e ?_).2
    exact congrArg (Except.map _) he
  case case5 current hcurrent heq =>
    have hholds := h.leaseHeld _ current hfree hcurrent
    have heq := Revision.compare_eq.mp heq
    revert hroom
    fun_cases s.applyLeaseWitness crypto lease current alloc <;> intro hroom
    case case1 hdigest =>
      exact hsame fun _ =>
        ⟨current, hcurrent, HoldsLease.keep hholds (.inr ⟨heq, .inr hdigest.symm⟩)⟩
    case case2 witness hwitness _ | case3 witness hwitness _ =>
      have hflag : current.conflicted = true := hholds.witness ▸ hwitness ▸ rfl
      exact hsame fun _ => ⟨current, hcurrent, HoldsLease.keep hholds (.inr ⟨heq, .inl hflag⟩)⟩
    case case4 => exact absurd rfl (hroom _ rfl).2
    case case5 hdigest _ _ =>
      exact hwritten _ hfree (HoldsLease.contradict hholds heq fun hsame => hdigest hsame.symm)

end Merged

end Store

end OnyxServer.SessionReplica
