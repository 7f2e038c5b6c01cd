import OnyxServer.SessionReplica.Blocking
import OnyxServer.SessionReplica.Signing

/-!
# Revoked authority

An OFFER accepted before a REVOKE of its origin with a higher revision is not installed
again, as long as no call drops a horizon that lies ahead. The sweep does: the entry that took
a tombstone's place leaves with its own expiry, and the horizon it carried on with it.
-/
namespace OnyxServer.SessionReplica

open Lib Text Option

/-- The disposition a call is answered with. -/
def Answer.disposition : Answer → Option ApplyDisposition
  | .offer (.ok result) => some result.disposition
  | _ => none

/-- The call hands over the OFFER or the REVOKE. -/
def Call.Hands (call : Call) (offer : Offer) : Prop :=
  ∃ signed viaPeer nowMs alloc, call = .applySignedOffer signed viaPeer nowMs alloc ∧
    signed.offer = offer

/-- The store installs the OFFER it is handed. -/
structure Accepts (v : Visit Store Call Answer) (offer : Offer) : Prop where
  hands : v.input.Hands offer
  isOffer : offer.isOffer
  answered : v.output.disposition = some .inserted ∨ v.output.disposition = some .superseded ∨
    v.output.disposition = some .conflictReplaced

/-- The store answers a REVOKE of the origin with `tombstoned` or `superseded`. -/
structure Revokes (v : Visit Store Call Answer) (key : OriginKey) (revision : Revision) : Prop where
  hands : ∃ revoke, v.input.Hands revoke ∧ revoke.operation = .remove ∧ revoke.key = key ∧
    revoke.revision = revision
  answered : v.output.disposition = some .tombstoned ∨ v.output.disposition = some .superseded

/-- The OFFER that is live for an origin. -/
def Store.live (self : Store) (key : OriginKey) : Option SignedOffer :=
  (self.entries.lookup key).map Entry.wire

/-- The OFFER is handed over, and a live entry is there that was not there before. -/
structure Installed (v : Visit Store Call Answer) (offer : Offer) : Prop where
  hands : v.input.Hands offer
  alive : (v.after.live offer.key).isSome
  fresh : v.after.live offer.key ≠ v.before.live offer.key

/-- No OFFER is installed again that was accepted before a REVOKE of a higher revision. -/
def NeverResurrects (run : List (Visit Store Call Answer)) : Prop :=
  ∀ earlier accept middle revoke later replay rest offer revision,
    run = earlier ++ accept :: (middle ++ revoke :: (later ++ replay :: rest)) →
    Accepts accept offer → Revokes revoke offer.key revision → offer.revision < revision →
      ¬ Installed replay offer

namespace Store

variable {crypto : Crypto} {clock : Int64} {s t : Store} {key : OriginKey} {signed : SignedOffer}
    {viaPeer : NodeId}
variable {nowMs : Int64} {alloc : Allocator} {answer : Except ApplyError ApplyResult}

/-- An OFFER that is installed blocks every OFFER of its origin below it. -/
theorem OfferEffect.accepted (heffect : OfferEffect crypto s signed viaPeer nowMs answer t)
    (hoffer : signed.offer.isOffer)
    (hanswer : (Answer.offer answer).disposition = some .inserted ∨
      (Answer.offer answer).disposition = some .superseded ∨
      (Answer.offer answer).disposition = some .conflictReplaced) :
    Blocked nowMs signed.offer.expiresAtMs signed.offer.revision signed.offer.key t := by
  have hnot : ∀ d, d ≠ .inserted → d ≠ .superseded → d ≠ .conflictReplaced →
      ¬ ((some d : Option ApplyDisposition) = some .inserted ∨ some d = some .superseded ∨
        some d = some .conflictReplaced) := by
    rintro d h₁ h₂ h₃ (h | h | h)
    · exact h₁ (some.inj h)
    · exact h₂ (some.inj h)
    · exact h₃ (some.inj h)
  cases heffect with
  | refused e => simp [Answer.disposition] at hanswer
  | fenced => exact absurd hanswer (hnot .tombstoned nofun nofun nofun)
  | barred => exact absurd hanswer (hnot .quarantined nofun nofun nofun)
  | denied conflict answer hadmitted hoffer hconflict hfree hquarantined =>
    rcases hquarantined with rfl | ⟨e, -, -, rfl⟩
    · exact absurd hanswer (hnot .quarantined nofun nofun nofun)
    · simp [Answer.disposition] at hanswer
  | isolated => exact absurd hanswer (hnot .quarantined nofun nofun nofun)
  | outranked current digest disposition routes hadmitted hstanding hrank hdisposition =>
    refine absurd hanswer (hnot disposition ?_ ?_ ?_) <;> (rintro rfl; cases hdisposition)
  | refreshed => exact absurd hanswer (hnot .duplicate nofun nofun nofun)
  | offered disposition current added reserved routes room hinstalls =>
    exact .entry (s.offeredEntry signed viaPeer nowMs)
      ((HashMap.lookup_insert_eq _ _ _ _).trans (if_pos rfl)) le_rfl
      (le_max_left _ _)
  | revoked disposition current routes hinstalls hremove =>
    rcases hoffer with h | h
    · exact nomatch hremove.symm.trans h
    · exact nomatch hremove.symm.trans h
  | groupKnown => exact absurd hanswer (hnot .duplicate nofun nofun nofun)
  | groupFenced added reserved room hgroup =>
    rcases hoffer with h | h
    · exact nomatch hgroup.symm.trans h
    · exact nomatch hgroup.symm.trans h

/-- A REVOKE that is answered `tombstoned` or `superseded` raises the block of its origin. -/
theorem OfferEffect.raised {untilMs : Int64} {floor : Revision} (hkept : Kept crypto clock s)
    (heffect : OfferEffect crypto s signed viaPeer nowMs answer t)
    (hremove : signed.offer.operation = .remove)
    (hanswer : (Answer.offer answer).disposition = some .tombstoned ∨
      (Answer.offer answer).disposition = some .superseded)
    (h : Blocked clock untilMs floor signed.offer.key s) (hclock : clock ≤ nowMs) :
    Blocked nowMs untilMs signed.offer.revision signed.offer.key t := by
  have hnot : ∀ d, d ≠ .tombstoned → d ≠ .superseded →
      ¬ ((some d : Option ApplyDisposition) = some .tombstoned ∨ some d = some .superseded) := by
    rintro d h₁ h₂ (h | h)
    · exact h₁ (some.inj h)
    · exact h₂ (some.inj h)
  cases heffect with
  | refused e => simp [Answer.disposition] at hanswer
  | fenced group hgroup => exact .fence group hgroup
  | barred => exact absurd hanswer (hnot .quarantined nofun nofun)
  | denied conflict answer hadmitted hoffer =>
    rcases hoffer with h | h
    · exact nomatch hremove.symm.trans h
    · exact nomatch hremove.symm.trans h
  | isolated => exact absurd hanswer (hnot .quarantined nofun nofun)
  | outranked current digest disposition routes hadmitted hstanding hrank hdisposition =>
    refine absurd hanswer (hnot disposition ?_ ?_) <;> (rintro rfl; cases hdisposition)
  | refreshed => exact absurd hanswer (hnot .duplicate nofun nofun)
  | offered disposition current added reserved routes room hinstalls hoffer =>
    rcases hoffer with h | h
    · exact nomatch hremove.symm.trans h
    · exact nomatch hremove.symm.trans h
  | revoked disposition current routes hinstalls =>
      exact revoked_blocked h hclock hkept hinstalls (.inr ⟨rfl, rfl⟩)
  | groupKnown => exact absurd hanswer (hnot .duplicate nofun nofun)
  | groupFenced added reserved room hgroup => exact nomatch hremove.symm.trans hgroup

/-- An OFFER that is not installed leaves the live entry there was, or none. -/
theorem OfferEffect.live (heffect : OfferEffect crypto s signed viaPeer nowMs answer t)
    (hoffer : signed.offer.isOffer) (hrefused : ¬ Installs crypto s signed nowMs)
    (key : OriginKey) :
    t.live key = s.live key ∨ t.live key = none := by
  cases heffect with
  | refused => exact .inl rfl
  | fenced => exact .inl rfl
  | barred => exact .inl rfl
  | denied conflict =>
    have hlookup := HashMap.lookup_mapValues (denyEntry signed.offer.token
      (min conflict.expiresAtMs signed.offer.expiresAtMs)) s.entries key
    refine .inl ((congrArg (Option.map Entry.wire) hlookup).trans ?_)
    rw [Option.map_map, Store.live]
    congr 1
    funext e
    simp only [Function.comp, denyEntry]
    split
    · rfl
    · rfl
  | isolated conflict existing =>
    obtain ⟨hentries, -⟩ := isolated_rows crypto s signed existing
      (min conflict.expiresAtMs signed.offer.expiresAtMs) nowMs
    rw [Store.live, Store.live, hentries, lookup_dropToken]
    split
    · exact .inr rfl
    · exact .inl rfl
  | outranked => exact .inl rfl
  | refreshed entry routes hadmitted hentry =>
    refine .inl ((congrArg (Option.map Entry.wire) (HashMap.lookup_insert_eq _ _ _ _)).trans ?_)
    split
    · next hkey => rw [Store.live, hkey, hentry, Option.map_some, Option.map_some]
    · rfl
  | offered disposition current added reserved routes room hinstalls =>
      exact absurd hinstalls hrefused
  | revoked disposition current routes hinstalls => exact absurd hinstalls hrefused
  | groupKnown => exact .inl rfl
  | groupFenced added reserved room hgroup =>
    rcases hoffer with h | h
    · exact nomatch hgroup.symm.trans h
    · exact nomatch hgroup.symm.trans h

/-- The visit of one call. -/
def visitOf (crypto : Crypto) (s : Store) (call : Call) : Visit Store Call Answer :=
  ⟨s, call, (s.step crypto call).1, (s.step crypto call).2⟩

theorem accepts_blocked {call : Call} {offer : Offer} (h : Accepts (visitOf crypto s call) offer) :
    Blocked (call.clock clock) offer.expiresAtMs offer.revision offer.key
      (s.step crypto call).2 := by
  obtain ⟨⟨signed, viaPeer, nowMs, alloc, rfl, rfl⟩, hoffer, hanswer⟩ := h
  exact (applySignedOffer_effect crypto s signed viaPeer nowMs alloc).accepted hoffer hanswer

theorem revokes_blocked {call : Call} {untilMs : Int64} {floor revision : Revision}
    (hkept : Kept crypto clock s)
    (h : Blocked clock untilMs floor key s) (hrevoke : Revokes (visitOf crypto s call) key revision)
    (hstart : clock ≤ call.startMs.getD clock) :
    Blocked (call.clock clock) untilMs revision key (s.step crypto call).2 := by
  obtain ⟨⟨revoke, ⟨signed, viaPeer, nowMs, alloc, rfl, rfl⟩, hremove, rfl, rfl⟩, hanswer⟩ :=
    hrevoke
  exact (applySignedOffer_effect crypto s signed viaPeer nowMs alloc).raised hkept hremove
    hanswer h hstart

theorem blocked_not_installed {call : Call} {offer : Offer} {floor : Revision}
    (hkept : Kept crypto clock s)
    (h : Blocked clock offer.expiresAtMs floor offer.key s) (hoffer : offer.isOffer)
    (hlow : offer.revision < floor)
    (hstart : clock ≤ call.startMs.getD clock) : ¬ Installed (visitOf crypto s call) offer := by
  rintro ⟨⟨signed, viaPeer, nowMs, alloc, rfl, rfl⟩, halive, hfresh⟩
  have hrefused := h.refuses hstart hkept le_rfl hlow
  have hlive :=
    (applySignedOffer_effect crypto s signed viaPeer nowMs alloc).live hoffer hrefused
    signed.offer.key
  rcases hlive with hsame | hnone
  · exact hfresh hsame
  change ((s.applySignedOffer crypto signed viaPeer nowMs alloc).2.live signed.offer.key).isSome =
    true at halive
  rw [hnone] at halive
  cases halive

/-- The call is one of the store's own and spares the horizons. -/
def SparingVisit (crypto : Crypto) (v : Visit Store Call Answer) : Prop :=
  v.input.isOwn = true ∧ v.before.Spares crypto v.input

/-- In a run in time whose calls all spare the horizons, a revoked authority is never
installed again. -/
theorem revoked_stays_revoked (clock : Int64) (cfg : Config) {calls : List Call}
    (htime : InTime clock calls)
    (hspare : ∀ v ∈ visits (fun s => s.step crypto) (initWithConfig cfg) calls,
      SparingVisit crypto v) :
    NeverResurrects (visits (fun s => s.step crypto) (initWithConfig cfg) calls) := by
  intro earlier accept middle revoke later replay rest offer revision hrun haccept hrevoke hlow
  obtain ⟨before, calls, rfl, rfl, haccepted, hrest⟩ := visits_split_after hrun
  obtain ⟨between, calls, rfl, rfl, hrevoked, hrest'⟩ := visits_split_after hrest.symm
  obtain ⟨after, calls, rfl, rfl, hreplayed, -⟩ := visits_split_after hrest'.symm
  rw [hrun] at hspare
  simp only [List.forall_mem_append, List.forall_mem_cons] at hspare
  obtain ⟨hspareBefore, hspareAccept, hspareBetween, hspareRevoke, hspareAfter, -⟩ := hspare
  obtain ⟨htimeBefore, hstartAccept, hendAccept, htime⟩ := htime.append
  obtain ⟨htimeBetween, hstartRevoke, hendRevoke, htime⟩ := htime.append
  obtain ⟨htimeAfter, hstartReplay, -, -⟩ := htime.append
  have hkept : ∀ (clock : Int64) (s : Store) (call : Call), clock ≤ call.startMs.getD clock →
      call.startMs.getD clock ≤ call.clock clock → SparingVisit crypto (visitOf crypto s call) →
      Kept crypto clock s → Kept crypto (call.clock clock) (s.step crypto call).2 :=
    fun clock s call hstart hend hvisit h => step_kept h hstart hend hvisit.1
  have hboth : ∀ floor (clock : Int64) (s : Store) (call : Call), clock ≤ call.startMs.getD clock →
      call.startMs.getD clock ≤ call.clock clock → SparingVisit crypto (visitOf crypto s call) →
      (Kept crypto clock s ∧ Blocked clock offer.expiresAtMs floor offer.key s) →
      Kept crypto (call.clock clock) (s.step crypto call).2 ∧
        Blocked (call.clock clock) offer.expiresAtMs floor offer.key (s.step crypto call).2 :=
    fun floor clock s call hstart hend hvisit h =>
      ⟨step_kept h.1 hstart hend hvisit.1, step_blocked h.2 h.1 hstart hend hvisit.1 hvisit.2⟩
  have hbefore := timed_invariant hkept htimeBefore hspareBefore (kept_init crypto clock cfg)
  rw [haccepted] at haccept hspareAccept hspareBetween hrevoked
  have haccept' := hkept _ _ _ hstartAccept hendAccept hspareAccept hbefore
  obtain ⟨hbetween, hblocked⟩ := timed_invariant (hboth offer.revision) htimeBetween hspareBetween
    ⟨haccept', accepts_blocked haccept⟩
  rw [hrevoked] at hrevoke hspareRevoke hspareAfter hreplayed
  have hraised := revokes_blocked hbetween hblocked hrevoke hstartRevoke
  have hrevoke' := hkept _ _ _ hstartRevoke hendRevoke hspareRevoke hbetween
  obtain ⟨hafter, hblocked'⟩ :=
    timed_invariant (hboth revision) htimeAfter hspareAfter ⟨hrevoke', hraised⟩
  rw [hreplayed]
  exact blocked_not_installed hafter hblocked' haccept.isOffer hlow hstartReplay

/-- An OFFER that lives long. -/
def longOffer : SignedOffer :=
  (sampleOffer [97] 1 1 501).signedBy sampleKey sampleSignature (by decide) (by decide)

def revokeAfter : SignedOffer :=
  (sampleRevoke 2 2 102).signedBy sampleKey sampleSignature (by decide) (by decide)

/-- A newer OFFER of the same origin, for a short time. -/
def shortOffer : SignedOffer :=
  (sampleOffer [97] 3 3 13).signedBy sampleKey sampleSignature (by decide) (by decide)

/-- An OFFER that agrees with its token starts no quarantine. -/
theorem spares_agreed
    (h : (s.findIdentityConflict crypto signed.offer.token signed.offer.account nowMs).isNone =
      true) :
    s.Spares crypto (.applySignedOffer signed viaPeer nowMs alloc) := by
  intro conflict hisolates
  rw [hisolates.conflicts] at h
  cases h

theorem spares_revoke (hremove : signed.offer.operation = .remove) :
    s.Spares crypto (.applySignedOffer signed viaPeer nowMs alloc) := by
  intro conflict hisolates
  rcases hisolates.isOffer with h | h
  · exact nomatch hremove.symm.trans h
  · exact nomatch hremove.symm.trans h

theorem revoked_stays_revoked_sample :
    NeverResurrects (visits (fun s => s.step sampleCrypto) (initWithConfig sampleConfig) [
      .applySignedOffer longOffer 0 1 fun _ => true,
        .applySignedOffer revokeAfter 0 2 fun _ => true,
      .applySignedOffer longOffer 0 21 fun _ => true]) :=
  revoked_stays_revoked 0 sampleConfig (by decide +kernel)
    (List.forall_mem_cons.mpr ⟨⟨rfl, spares_agreed (by decide +kernel)⟩,
      List.forall_mem_cons.mpr ⟨⟨rfl, spares_revoke rfl⟩,
        List.forall_mem_cons.mpr ⟨⟨rfl, spares_agreed (by decide +kernel)⟩,
        List.forall_mem_nil _⟩⟩⟩)

/-- The sweep drops the entry that took a tombstone's place, and the OFFER from before the
REVOKE is installed again. -/
theorem sweep_resurrects :
    ∃ calls : List Call, InTime 0 calls ∧ (∀ call ∈ calls, call.isOwn = true) ∧
      ¬ NeverResurrects
      (visits (fun s => s.step sampleCrypto) (initWithConfig sampleConfig) calls) := by
  refine ⟨[.applySignedOffer longOffer 0 1 fun _ => true,
    .applySignedOffer revokeAfter 0 2 fun _ => true,
    .applySignedOffer shortOffer 0 3 fun _ => true, .sweep 20,
    .applySignedOffer longOffer 0 21 fun _ => true],
    by decide +kernel, by decide, fun hnever => ?_⟩
  refine hnever [] _ [] _ [_, _] _ [] longOffer.offer (sampleRevision 2) rfl
    ⟨⟨longOffer, 0, 1, _, rfl, rfl⟩, .inl rfl, ?_⟩
    ⟨⟨revokeAfter.offer, ⟨revokeAfter, 0, 2, _, rfl, rfl⟩, rfl, rfl, rfl⟩, ?_⟩ (by decide)
    ⟨⟨longOffer, 0, 21, _, rfl, rfl⟩, ?_, ?_⟩
  · decide +kernel
  · decide +kernel
  · decide +kernel
  · decide +kernel

end Store

end OnyxServer.SessionReplica
