import OnyxServer.SessionReplica.MergeSteps
import OnyxServer.SessionReplica.Signing

/-!
# Convergence of session authority

Two stores that were handed the same facts, each in an order of its own and with any
repetitions, hold the same facts and the same lease flags, and answer alike.
-/
namespace OnyxServer.SessionReplica

open Lib Text List HashMap Option

/-- The fact a call hands to the store. -/
def Call.fact : Call → Option Fact
  | .applySignedOffer signed _ _ _ => some (.offer signed)
  | .applySignedAttachmentLease signed _ _ => some (.lease signed)
  | _ => none

/-- The facts that some of the calls hand over. -/
def handed (calls : List Call) : Fact → Prop := fun f => ∃ call ∈ calls, call.fact = some f

def Fact.Verified (crypto : Crypto) : Fact → Prop
  | .offer signed => verifyOffer crypto signed = .ok ()
  | .lease signed => verifyAttachmentLease crypto signed = .ok ()

/-- The octets that the facts sign. -/
def transcripts (facts : Fact → Prop) : Set Bytes := fun transcript =>
  (∃ w, facts (.offer w) ∧ w.transcript = transcript) ∨ ∃ m, facts (.lease m) ∧
    m.transcript = transcript

/-- The keys that sign the facts. -/
def signers (facts : Fact → Prop) : Set PublicKey := fun signer =>
  (∃ w, facts (.offer w) ∧ w.signer = signer) ∨ ∃ m, facts (.lease m) ∧ m.signer = signer

namespace Store

variable {crypto : Crypto} {seen facts : Fact → Prop} {s t : Store} {key : OriginKey}
    {token : Token}
variable {calls : List Call} {cfg : Config}

/-- A step of a store that is handed the facts: one of them, verified and within its bounds
at that time and not refused for want of room. Tables may be rehashed in between. -/
def Delivers (crypto : Crypto) (facts : Fact → Prop) (v : Visit Store Call Answer) : Prop :=
  match v.input with
  | .applySignedOffer signed _ nowMs _ => facts (.offer signed) ∧
      verifyOffer crypto signed = .ok () ∧
      v.before.validateOfferForStore signed.offer nowMs = .ok () ∧
      ∀ e, v.output = .offer (.error e) → e.pressure = false
  | .applySignedAttachmentLease signed nowMs _ => facts (.lease signed) ∧
      verifyAttachmentLease crypto signed = .ok () ∧
        v.before.validateLeaseForStore signed.lease nowMs = .ok () ∧
      ∀ e, v.output = .lease (.error e) → e ≠ .attachmentLeaseFull ∧ e ≠ .outOfMemory
  | .rehash _ _ => True
  | _ => False

/-- The store takes every one of the facts, and nothing else. -/
structure Applies (crypto : Crypto) (facts : Fact → Prop) (cfg : Config) (calls : List Call) :
    Prop where
  delivers : ∀ v ∈ visits (fun s => s.step crypto) (initWithConfig cfg) calls,
    Delivers crypto facts v
  all : ∀ f, facts f → handed calls f

theorem rehash_merged (h : Merged crypto seen s) (table : Table) (i : Nat) :
    Merged crypto seen (s.rehash i table) := by
  cases table with
  | entries =>
    exact h.congr (lookup_rehash i _) (fun _ => rfl) (fun _ => rfl) (fun _ => rfl) fun _ => rfl
  | tombstones =>
      exact h.congr (fun _ => rfl) (lookup_rehash i _) (fun _ => rfl) (fun _ => rfl) fun _ => rfl
  | quarantines =>
      exact h.congr (fun _ => rfl) (fun _ => rfl) (fun _ => rfl) (fun _ => rfl) (lookup_rehash i _)
  | attachmentLeases =>
      exact h.congr (fun _ => rfl) (fun _ => rfl) (lookup_rehash i _) (fun _ => rfl) fun _ => rfl
  | groupRevocations =>
      exact h.congr (fun _ => rfl) (fun _ => rfl) (fun _ => rfl) (lookup_rehash i _) fun _ => rfl

/-- What the store has merged after a step, and that the step's fact is a verified one. -/
theorem step_merged {call : Call} (h : Merged crypto seen s) (hone : OneAccount facts)
    (hsub : ∀ f, seen f → facts f)
    (hdelivers : Delivers crypto facts ⟨s, call, (s.step crypto call).1, (s.step crypto call).2⟩) :
    Merged crypto (fun f => call.fact = some f ∨ seen f) (s.step crypto call).2 ∧
      ∀ f, call.fact = some f → facts f ∧ f.Verified crypto := by
  have hwith : ∀ fact, (fun f => some fact = some f ∨ seen f) = With seen fact := by
    intro fact
    funext f
    exact propext (or_congr_left (by rw [Option.some.injEq, eq_comm]))
  cases call with
  | applySignedOffer signed viaPeer nowMs alloc =>
    obtain ⟨hfact, hverified, hvalid, hroom⟩ := hdelivers
    refine ⟨?_, fun f hf => some.inj hf ▸ ⟨hfact, hverified⟩⟩
    rw [show (fun f => (Call.applySignedOffer signed viaPeer nowMs alloc).fact = some f ∨ seen f) =
      _ from hwith _]
    exact h.applySignedOffer hone hsub hfact hverified hvalid fun e he =>
      hroom e (congrArg Answer.offer he)
  | applySignedAttachmentLease signed nowMs alloc =>
    obtain ⟨hfact, hverified, hvalid, hroom⟩ := hdelivers
    refine ⟨?_, fun f hf => some.inj hf ▸ ⟨hfact, hverified⟩⟩
    rw [show (fun f => (Call.applySignedAttachmentLease signed nowMs alloc).fact = some f ∨
      seen f) = _ from hwith _]
    exact h.applySignedAttachmentLease hverified hvalid fun e he =>
      hroom e (congrArg Answer.lease he)
  | rehash table i =>
    refine ⟨?_, nofun⟩
    have hsame : (fun f => (Call.rehash table i).fact = some f ∨ seen f) = seen := by
      funext f
      exact propext (or_iff_right nofun)
    rw [hsame]
    exact rehash_merged h table i
  | groupRevoke signed nowMs alloc commit => exact hdelivers.elim
  | sweep nowMs => exact hdelivers.elim
  | removePeer peer => exact hdelivers.elim
  | restore bytes restoreNowMs alloc => exact hdelivers.elim
  | upgrade capturedAtMs restoreNowMs encodeAlloc restoreAlloc => exact hdelivers.elim

theorem run_merged (h : Merged crypto seen s) (hone : OneAccount facts)
    (hsub : ∀ f, seen f → facts f)
    (hdelivers : ∀ v ∈ visits (fun s => s.step crypto) s calls, Delivers crypto facts v) :
    Merged crypto (fun f => handed calls f ∨ seen f) (final (fun s => s.step crypto) s calls) ∧
      ∀ f, handed calls f → facts f ∧ f.Verified crypto := by
  induction calls generalizing s seen with
  | nil =>
    have hnone : ∀ f, ¬ handed [] f := fun f hf => hf.elim fun call hcall => nomatch hcall.1
    refine ⟨?_, fun f hf => absurd hf (hnone f)⟩
    have hsame : (fun f => handed [] f ∨ seen f) = seen := by
      funext f
      exact propext (or_iff_right (hnone f))
    rw [hsame]
    exact h
  | cons call calls ih =>
    obtain ⟨hfirst, hrest⟩ := forall_mem_cons.mp hdelivers
    obtain ⟨hstep, hverified⟩ := step_merged h hone hsub hfirst
    obtain ⟨hrun, hall⟩ :=
      ih hstep (fun f hf => hf.elim (fun hf => (hverified f hf).1) (hsub f)) hrest
    have hhanded : ∀ f, handed (call :: calls) f ↔ call.fact = some f ∨ handed calls f := by
      intro f
      simp only [handed, mem_cons, exists_eq_or_imp]
    refine ⟨?_, fun f hf => ((hhanded f).mp hf).elim (hverified f) (hall f)⟩
    have hsame : (fun f => handed (call :: calls) f ∨ seen f) =
        fun f => handed calls f ∨ (call.fact = some f ∨ seen f) := by
      funext f
      exact propext (by rw [hhanded]; tauto)
    rw [hsame]
    exact hrun

/-- A store that took all of the facts has merged them. -/
theorem Applies.merged (h : Applies crypto facts cfg calls) (hone : OneAccount facts) :
    Merged crypto facts (final (fun s => s.step crypto) (initWithConfig cfg) calls) ∧
      ∀ f, facts f → f.Verified crypto := by
  obtain ⟨hmerged, hverified⟩ :=
    run_merged (merged_init crypto cfg) hone (fun f hf => hf.elim) h.delivers
  have hsame : (fun f => handed calls f ∨ False) = facts := by
    funext f
    rw [or_false]
    exact propext ⟨fun hf => (hverified f hf).1, h.all f⟩
  rw [hsame] at hmerged
  exact ⟨hmerged, fun f hf => (hverified f (h.all f hf)).2⟩

/-- The origin's fact is `w`: a live entry when it is an OFFER, a tombstone when it is a
REVOKE. -/
def Holds (s : Store) (key : OriginKey) (w : SignedOffer) : Prop :=
  (w.offer.isOffer ∧ (∃ e, s.entries.lookup key = some e ∧ e.wire = w) ∧
    s.tombstones.lookup key = none) ∨
    (w.offer.operation = .remove ∧ (∃ tomb, s.tombstones.lookup key = some tomb ∧ tomb.wire = w) ∧
      s.entries.lookup key = none)

def HoldsNothing (s : Store) (key : OriginKey) : Prop :=
  s.entries.lookup key = none ∧ s.tombstones.lookup key = none

structure Agreement (crypto : Crypto) (facts : Fact → Prop) (s t : Store) : Prop where
  fenced : ∀ key, Fenced facts key.token → HoldsNothing s key ∧ HoldsNothing t key ∧
    s.attachmentLeases.lookup key = none ∧ t.attachmentLeases.lookup key = none
  rows : ∀ key, ¬ Fenced facts key.token →
    ((∀ w, ¬ About facts key w) ∧ HoldsNothing s key ∧ HoldsNothing t key) ∨
    ∃ a b, Holds s key a ∧ Holds t key b ∧ Latest (precedence crypto) (About facts key) a ∧
      a.transcript = b.transcript ∧ a.offer = b.offer
  leases : ∀ key, ¬ Fenced facts key.token →
    ((∀ m, ¬ LeaseAbout facts key m) ∧ s.attachmentLeases.lookup key = none ∧
      t.attachmentLeases.lookup key = none) ∨
    ∃ l m, s.attachmentLeases.lookup key = some l ∧ t.attachmentLeases.lookup key = some m ∧
      LeaseAbout facts key l.wire ∧ (∀ n, LeaseAbout facts key n → n.lease.revision ≤ l.revision) ∧
      l.revision = m.revision ∧ l.conflicted = m.conflicted
  liveTokens : ∀ nowMs after room, s.liveTokensAfter nowMs after room =
    t.liveTokensAfter nowMs after room
  liveOrigins : ∀ token nowMs after room,
    s.liveOriginIdentitiesAfter token nowMs after room =
      t.liveOriginIdentitiesAfter token nowMs after room
  -- A lease covers an OFFER of the same signer, and rows are compared by short ids only.
  attached : Set.InjOn crypto.originShortId (signers facts) → ∀ token excludedOrigin nowMs,
    s.hasAttachedOriginOtherThan token excludedOrigin nowMs =
      t.hasAttachedOriginOtherThan token excludedOrigin nowMs

theorem Merged.holds {w : SignedOffer} (h : Merged crypto seen s) (hrow : s.row key = some w) :
    s.Holds key w := by
  cases hentry : s.entries.lookup key with
  | some e =>
    rw [row_entry hentry] at hrow
    cases hrow
    refine .inl ⟨(h.offers key e hentry).1, ⟨e, hentry, rfl⟩, ?_⟩
    cases htomb : s.tombstones.lookup key with
    | none => rfl
    | some tomb =>
      have hnone := h.apart key tomb htomb
      rw [hentry] at hnone
      cases hnone
  | none =>
    cases htomb : s.tombstones.lookup key with
    | none => simp only [row, hentry, htomb, Option.map_none, reduceCtorEq] at hrow
    | some tomb =>
      rw [row_tombstone hentry htomb] at hrow
      cases hrow
      exact .inr ⟨(h.revokes key tomb htomb).1, ⟨tomb, htomb, rfl⟩, hentry⟩

/-- Two verified objects of one transcript say the same. -/
theorem offer_of_transcript {a b : SignedOffer} (ha : verifyOffer crypto a = .ok ())
    (hb : verifyOffer crypto b = .ok ()) (h : a.transcript = b.transcript) : a.offer = b.offer := by
  unfold verifyOffer at ha hb
  rw [h] at ha
  cases hread : readOffer b.transcript with
  | error e =>
    rw [hread] at hb
    cases hb
  | ok projected =>
    rw [hread] at ha hb
    simp only at ha hb
    split_ifs at ha with hleft
    split at hb
    · cases hb
    · next hright =>
      push Not at hleft hright
      exact hleft.2.symm.trans hright.2

theorem signer_origin {a : SignedOffer} (h : verifyOffer crypto a = .ok ()) :
    crypto.originShortId a.signer = a.offer.revision.originNode := by
  unfold verifyOffer at h
  split at h
  · cases h
  split at h
  · cases h
  · split at h
    · cases h
    · next horigin => exact not_not.mp horigin

theorem lease_signer_origin {m : SignedAttachmentLease}
    (h : verifyAttachmentLease crypto m = .ok ()) :
    crypto.originShortId m.signer = m.lease.revision.originNode := by
  unfold verifyAttachmentLease at h
  split at h
  · cases h
  split at h
  · cases h
  · split at h
    · cases h
    · next horigin => exact not_not.mp horigin

section Two

variable (hs : Merged crypto facts s) (ht : Merged crypto facts t)
    (hverified : ∀ f, facts f → f.Verified crypto)
variable (hdigest : Set.InjOn (digestBytes crypto) (transcripts facts))
variable (hsigner : Set.InjOn crypto.originShortId (signers facts))
include hs ht hverified hdigest

/-- The rows of one origin are of one fact. -/
theorem rows_agree (hfree : ¬ Fenced facts key.token) :
    (s.row key = none ∧ t.row key = none ∧ ∀ w, ¬ About facts key w) ∨
      ∃ a b, s.row key = some a ∧ t.row key = some b ∧
      Latest (precedence crypto) (About facts key) a ∧
        About facts key b ∧ a.transcript = b.transcript ∧ a.offer = b.offer := by
  cases hrow : s.row key with
  | none =>
    have hnone := fun w => hs.unheld key w hfree hrow
    refine .inl ⟨rfl, ?_, hnone⟩
    cases hrow' : t.row key with
    | none => rfl
    | some b => exact absurd (ht.held key b hfree hrow').mem (hnone b)
  | some a =>
    have ha := hs.held key a hfree hrow
    cases hrow' : t.row key with
    | none => exact absurd ha.mem (ht.unheld key a hfree hrow')
    | some b =>
      have hb := ht.held key b hfree hrow'
      obtain ⟨-, hequal⟩ := Prod.mk.inj (toLex.injective (ha.rank_eq hb))
      have htranscript := hdigest (.inl ⟨a, ha.mem.1, rfl⟩) (.inl ⟨b, hb.mem.1, rfl⟩)
        (OrderDual.toDual.injective hequal)
      exact .inr ⟨a, b, rfl, rfl, ha, hb.mem, htranscript,
        offer_of_transcript (hverified _ ha.mem.1) (hverified _ hb.mem.1) htranscript⟩

theorem entries_agree {e : Entry} (he : s.entries.lookup key = some e) :
    ∃ e', t.entries.lookup key = some e' ∧ e'.wire.offer = e.wire.offer ∧
    e'.quarantineUntilMs = none ∧
      e.quarantineUntilMs = none ∧ About facts key e'.wire ∧ ¬ Fenced facts key.token := by
  obtain ⟨hfree, -⟩ := hs.entry_about he
  obtain ⟨hoffer, hmarker⟩ := hs.offers key e he
  rcases rows_agree hs ht hverified hdigest hfree with
    ⟨hnone, -⟩ | ⟨a, b, hrow, hrow', -, hb, -, hsame⟩
  · rw [row_entry he] at hnone
    cases hnone
  rw [row_entry he] at hrow
  cases hrow
  rcases ht.holds hrow' with ⟨-, ⟨e', he', rfl⟩, -⟩ | ⟨hremove, -⟩
  · exact ⟨e', he', hsame.symm, (ht.offers key e' he').2, hmarker, hb, hfree⟩
  · rw [← hsame] at hremove
    exact absurd hremove (isOffer_single hoffer)

theorem shows_agree : ShowsOf s t := by
  intro nowMs key e he hpage
  obtain ⟨e', he', hsame, hmarker', hmarker, -⟩ := entries_agree hs ht hverified hdigest he
  refine ⟨e', he', ?_, congrArg Offer.nick hsame⟩
  have hexpires : e'.expiresAtMs = e.expiresAtMs := congrArg Offer.expiresAtMs hsame
  have hresume : e'.resumeEligible = e.resumeEligible := congrArg Offer.allowsResume hsame
  rw [Entry.pageable, hexpires, hresume, hmarker', ← hmarker]
  exact hpage

omit hverified hdigest in
theorem leases_agree (hfree : ¬ Fenced facts key.token) :
    ((∀ m, ¬ LeaseAbout facts key m) ∧ s.attachmentLeases.lookup key = none ∧
      t.attachmentLeases.lookup key = none) ∨
    ∃ l m, s.attachmentLeases.lookup key = some l ∧ t.attachmentLeases.lookup key = some m ∧
      HoldsLease crypto (LeaseAbout facts key) l ∧ HoldsLease crypto (LeaseAbout facts key) m ∧
      l.revision = m.revision ∧ l.conflicted = m.conflicted := by
  cases hl : s.attachmentLeases.lookup key with
  | none =>
    have hnone := fun m => hs.leaseUnheld key m hfree hl
    refine .inl ⟨hnone, rfl, ?_⟩
    cases hm : t.attachmentLeases.lookup key with
    | none => rfl
    | some m => exact absurd (ht.leaseHeld key m hfree hm).mem (hnone m.wire)
  | some l =>
    have hholds := hs.leaseHeld key l hfree hl
    cases hm : t.attachmentLeases.lookup key with
    | none => exact absurd hholds.mem (ht.leaseUnheld key l.wire hfree hm)
    | some m =>
      have hholds' := ht.leaseHeld key m hfree hm
      have hrevision : l.revision = m.revision :=
        le_antisymm (hholds'.max _ hholds.mem) (hholds.max _ hholds'.mem)
      refine .inr ⟨l, m, rfl, rfl, hholds, hholds', hrevision, Bool.eq_iff_iff.mpr ?_⟩
      -- Two transcripts of the revision differ from each other, so one differs from whichever is
      -- held.
      have hother : ∀ {x y : AttachmentLeaseEntry}, HoldsLease crypto (LeaseAbout facts key) x →
          HoldsLease crypto (LeaseAbout facts key) y → x.revision = y.revision →
          x.conflicted = true → y.conflicted = true := by
        intro x y hx hy hequal hconflicted
        obtain ⟨n, hn, hrevision, hne⟩ := hx.conflicted.mp hconflicted
        by_cases hsame : digestBytes crypto n.transcript = y.digest crypto
        · refine hy.conflicted.mpr ⟨x.wire, hx.mem, hequal, fun heq => hne ?_⟩
          exact hsame.trans heq.symm
        · exact hy.conflicted.mpr ⟨n, hn, hrevision.trans hequal, hsame⟩
      exact ⟨hother hholds hholds' hrevision, hother hholds' hholds hrevision.symm⟩

include hsigner in
/-- A lease that covers an OFFER in the one covers it in the other. -/
theorem covers_agree {l m : AttachmentLeaseEntry} {nowMs : Int64}
    (hm : t.attachmentLeases.lookup key = some m)
    (hrevision : l.revision = m.revision) (hconflicted : l.conflicted = m.conflicted)
    (h : s.positiveLeaseCoversUnexpiredOffer key l nowMs = true) :
    t.positiveLeaseCoversUnexpiredOffer key m nowMs = true := by
  unfold positiveLeaseCoversUnexpiredOffer at h
  split_ifs at h with hclean
  rw [hs.not_quarantined, Bool.or_false, hconflicted] at hclean
  split at h
  · cases h
  rename_i e hget
  split_ifs at h with hlive hnewer
  simp only [getOrigin, Option.filter_eq_some_iff, getOriginInventory] at hget
  obtain ⟨hinventory, hresume⟩ := hget
  split_ifs at hinventory with hopen
  obtain ⟨e', he', hsame, hmarker', hmarker, habout, hfree⟩ :=
    entries_agree hs ht hverified hdigest hinventory
  have hgroup : t.isGroupRevoked key.token = false := by
    rw [← Bool.not_eq_true]
    exact fun hsome => hfree ((ht.fenced _).mp hsome)
  have hget' : t.getOrigin key = some e' := by
    simp only [getOrigin, getOriginInventory, hgroup, ht.not_quarantined, Bool.or_self,
      Bool.false_eq_true, if_false, he', Option.filter_eq_some_iff, true_and]
    rw [Entry.resumeEligible, hsame]
    exact hresume
  have hmem := ht.leaseHeld key m hfree hm
  have horigin : crypto.originShortId e'.wire.signer = crypto.originShortId m.signer := by
    rw [signer_origin (hverified _ habout.1)]
    refine Eq.trans ?_ (lease_signer_origin (hverified _ hmem.mem.1)).symm
    have hkey := habout.2.2.trans hmem.mem.2.symm
    exact congrArg OriginKey.originNode hkey
  have hsigners := hsigner (.inl ⟨e'.wire, habout.1, rfl⟩) (.inr ⟨m.wire, hmem.mem.1, rfl⟩) horigin
  unfold positiveLeaseCoversUnexpiredOffer
  rw [ht.not_quarantined, Bool.or_false, if_neg hclean, hget']
  simp only
  have hexpires : e'.expiresAtMs = e.expiresAtMs := congrArg Offer.expiresAtMs hsame
  have hheld : e'.revision = e.revision := congrArg Offer.revision hsame
  rw [hmarker', ← hmarker, hexpires, if_neg hlive, ← hrevision, hheld, if_neg hnewer]
  exact beq_iff_eq.mpr hsigners

include hsigner in
theorem attached_mono {excludedOrigin : NodeId} {nowMs : Int64}
    (h : s.hasAttachedOriginOtherThan token excludedOrigin nowMs = true) :
    t.hasAttachedOriginOtherThan token excludedOrigin nowMs = true := by
  unfold hasAttachedOriginOtherThan at h ⊢
  rw [hs.not_quarantined, if_neg Bool.false_ne_true] at h
  rw [ht.not_quarantined, if_neg Bool.false_ne_true]
  obtain ⟨⟨key, l⟩, hslot, hcovers⟩ := any_eq_true.mp h
  obtain ⟨hkey, hcovers⟩ := Bool.and_eq_true_iff.mp hcovers
  have hl := HashMap.mem_entries.mp hslot
  have hfree : ¬ Fenced facts key.token := fun hfence => by
    rw [(hs.cleared key hfence).2] at hl
    cases hl
  rcases leases_agree hs ht hfree with
    ⟨-, hnone, -⟩ | ⟨l', m, hl', hm, -, -, hrevision, hconflicted⟩
  · rw [hnone] at hl
    cases hl
  obtain rfl := some.inj (hl'.symm.trans hl)
  refine any_eq_true.mpr
    ⟨⟨key, m⟩, HashMap.mem_entries.mpr hm, Bool.and_eq_true_iff.mpr ⟨hkey, ?_⟩⟩
  exact covers_agree hs ht hverified hdigest hsigner hm hrevision hconflicted hcovers

end Two

theorem Merged.agreement (hs : Merged crypto facts s) (ht : Merged crypto facts t)
    (hverified : ∀ f, facts f → f.Verified crypto)
    (hdigest : Set.InjOn (digestBytes crypto) (transcripts facts)) :
    Agreement crypto facts s t where
  fenced key hfence := by
    obtain ⟨hrow, hlease⟩ := hs.cleared key hfence
    obtain ⟨hrow', hlease'⟩ := ht.cleared key hfence
    exact ⟨row_none hrow, row_none hrow', hlease, hlease'⟩
  rows key hfree := by
    rcases rows_agree hs ht hverified hdigest hfree with
      ⟨hrow, hrow', hnone⟩ | ⟨a, b, hrow, hrow', hlatest, -, htranscript, hoffer⟩
    · exact .inl ⟨hnone, row_none hrow, row_none hrow'⟩
    · exact .inr ⟨a, b, hs.holds hrow, ht.holds hrow', hlatest, htranscript, hoffer⟩
  leases key hfree := by
    rcases leases_agree hs ht hfree with hnone | ⟨l, m, hl, hm, hholds, -, hrevision, hconflicted⟩
    · exact .inl hnone
    · exact .inr ⟨l, m, hl, hm, hholds.mem, hholds.max, hrevision, hconflicted⟩
  liveTokens nowMs after room :=
    liveTokensAfter_congr (shows_agree ht hs hverified hdigest)
      (shows_agree hs ht hverified hdigest) nowMs after room
  liveOrigins token nowMs after room :=
    liveOriginIdentitiesAfter_congr (shows_agree ht hs hverified hdigest)
      (shows_agree hs ht hverified hdigest)
      token nowMs after room
  attached hsigner token excludedOrigin nowMs :=
    Bool.eq_iff_iff.mpr ⟨attached_mono hs ht hverified hdigest hsigner,
      attached_mono ht hs hverified hdigest hsigner⟩

/-- Session authority converges: two stores that took the same facts agree. -/
theorem stores_converge (facts : Fact → Prop) (hone : OneAccount facts)
    (hdigest : Set.InjOn (digestBytes crypto) (transcripts facts)) {cfg cfg' : Config}
    {calls calls' : List Call}
    (h : Applies crypto facts cfg calls) (h' : Applies crypto facts cfg' calls') :
    Agreement crypto facts (final (fun s => s.step crypto) (initWithConfig cfg) calls)
      (final (fun s => s.step crypto) (initWithConfig cfg') calls') := by
  obtain ⟨hs, hverified⟩ := h.merged hone
  obtain ⟨ht, -⟩ := h'.merged hone
  exact hs.agreement ht hverified hdigest

def sampleFacts : Fact → Prop := fun f => f = .offer sampleUpsert ∨ f = .offer sampleRemove

def takeUpsert : Call := .applySignedOffer sampleUpsert 0 8 fun _ => true
def takeRemove : Call := .applySignedOffer sampleRemove 2 9 fun _ => true

def upsertFirst : Store :=
  final (fun s => s.step sampleCrypto) (initWithConfig sampleConfig) [takeUpsert, takeRemove]

def removeFirst : Store :=
  final (fun s => s.step sampleCrypto) (initWithConfig sampleConfig)
    [takeRemove, takeUpsert, takeRemove]

theorem stores_converge_sample : Agreement sampleCrypto sampleFacts upsertFirst removeFirst ∧
    ∀ token excludedOrigin nowMs,
      upsertFirst.hasAttachedOriginOtherThan token excludedOrigin nowMs =
        removeFirst.hasAttachedOriginOtherThan token excludedOrigin nowMs := by
  have hdelivers : ∀ {s : Store} {signed : SignedOffer} {viaPeer : NodeId} {nowMs : Int64},
      sampleFacts (.offer signed) → verifyOffer sampleCrypto signed = .ok () →
      s.validateOfferForStore signed.offer nowMs = .ok () →
      (s.applySignedOffer sampleCrypto signed viaPeer nowMs fun _ => true).1.isOk = true →
      Delivers sampleCrypto sampleFacts ⟨s, .applySignedOffer signed viaPeer nowMs fun _ => true,
        (s.step sampleCrypto (.applySignedOffer signed viaPeer nowMs fun _ => true)).1,
        (s.step sampleCrypto (.applySignedOffer signed viaPeer nowMs fun _ => true)).2⟩ := by
    intro s signed viaPeer nowMs hfact hverified hvalid hok
    refine ⟨hfact, hverified, hvalid, fun e he => ?_⟩
    rw [Answer.offer.inj he] at hok
    cases hok
  have hsigners : ∀ signer ∈ signers sampleFacts, signer = sampleKey := by
    rintro signer (⟨w, hw | hw, rfl⟩ | ⟨m, hm | hm, -⟩)
    · exact congrArg (fun w : SignedOffer => w.signer) (Fact.offer.inj hw)
    · exact congrArg (fun w : SignedOffer => w.signer) (Fact.offer.inj hw)
    · cases hm
    · cases hm
  suffices h : Agreement sampleCrypto sampleFacts upsertFirst removeFirst from
    ⟨h, h.attached fun x hx y hy _ => (hsigners x hx).trans (hsigners y hy).symm⟩
  refine stores_converge sampleFacts ?_ ?_ ⟨?_, ?_⟩ ⟨?_, ?_⟩
  · rintro a b (ha | ha) (hb | hb) hop hop' -
    · rw [Fact.offer.inj ha, Fact.offer.inj hb]
    · exact absurd (by rw [Fact.offer.inj hb]; rfl) hop'
    · exact absurd (by rw [Fact.offer.inj ha]; rfl) hop
    · exact absurd (by rw [Fact.offer.inj ha]; rfl) hop
  · have htranscripts : ∀ transcript ∈ transcripts sampleFacts,
        transcript = sampleUpsert.transcript ∨ transcript = sampleRemove.transcript := by
      rintro transcript (⟨w, hw | hw, rfl⟩ | ⟨m, hm | hm, -⟩)
      · exact .inl (congrArg (fun w : SignedOffer => w.transcript) (Fact.offer.inj hw))
      · exact .inr (congrArg (fun w : SignedOffer => w.transcript) (Fact.offer.inj hw))
      · cases hm
      · cases hm
    have hdiffer : digestBytes sampleCrypto sampleUpsert.transcript ≠
        digestBytes sampleCrypto sampleRemove.transcript := by
      decide +kernel
    intro x hx y hy hxy
    rcases htranscripts x hx with rfl | rfl <;> rcases htranscripts y hy with rfl | rfl
    · rfl
    · exact absurd hxy hdiffer
    · exact absurd hxy.symm hdiffer
    · rfl
  · refine forall_mem_cons.mpr ⟨?_, forall_mem_cons.mpr ⟨?_, forall_mem_nil _⟩⟩
    · exact hdelivers (.inl rfl) (verifyOffer_signedBy rfl rfl) (by decide +kernel)
        (by decide +kernel)
    · exact hdelivers (.inr rfl) (verifyOffer_signedBy rfl rfl) (by decide +kernel)
        (by decide +kernel)
  · rintro f (rfl | rfl)
    · exact ⟨takeUpsert, by simp, rfl⟩
    · exact ⟨takeRemove, by simp, rfl⟩
  · refine forall_mem_cons.mpr
      ⟨?_, forall_mem_cons.mpr ⟨?_, forall_mem_cons.mpr ⟨?_, forall_mem_nil _⟩⟩⟩
    · exact hdelivers (.inr rfl) (verifyOffer_signedBy rfl rfl) (by decide +kernel)
        (by decide +kernel)
    · exact hdelivers (.inl rfl) (verifyOffer_signedBy rfl rfl) (by decide +kernel)
        (by decide +kernel)
    · exact hdelivers (.inr rfl) (verifyOffer_signedBy rfl rfl) (by decide +kernel)
        (by decide +kernel)
  · rintro f (rfl | rfl)
    · exact ⟨takeUpsert, by simp, rfl⟩
    · exact ⟨takeRemove, by simp, rfl⟩

end Store

end OnyxServer.SessionReplica
