import OnyxServer.Lib.Least
import OnyxServer.Lib.LastWriter
import OnyxServer.SessionReplica.Effects

/-!
# Projections of the store

The pages the daemon reads: the tokens with a live OFFER, and the live origins of one token,
each in order and past a cursor. Every step of a page scans the whole table, so the order of
the table shows in no page.
-/
namespace OnyxServer.SessionReplica

section

open Lib Text Option

structure OriginIdentity where
  originNode : NodeId
  nick : Bytes
  deriving DecidableEq

/-- An entry a page may show. -/
def Entry.pageable (self : Entry) (nowMs : Int64) : Bool :=
  self.resumeEligible && !(self.quarantineUntilMs.isSome || decide (self.expiresAtMs < nowMs))

namespace Store

/-- The token a slot offers a page behind `lower`. -/
def offerToken (nowMs : Int64) (lower : Option Token) (slot : Sigma fun _ : OriginKey => Entry) :
    Option (Token × Unit) :=
  if slot.2.pageable nowMs && lower.all fun bound => decide (bound < slot.1.token) then
    some (slot.1.token, ())
  else none

def liveTokensAfter (self : Store) (nowMs : Int64) : Option Token → Nat → List Token
  | _, 0 => []
  | lower, room + 1 =>
    match leastOf (offerToken nowMs lower) self.entries.entries with
    | none => []
    | some (token, _) => token :: self.liveTokensAfter nowMs (some token) room

/-- The origin a slot offers a page of `token` behind `lower`. -/
def offerOrigin (token : Token) (nowMs : Int64) (lower : Option NodeId)
    (slot : Sigma fun _ : OriginKey => Entry) :
    Option (NodeId × Bytes) :=
  if slot.2.pageable nowMs && tokenEql slot.1.token token &&
      lower.all fun bound => decide (bound < slot.1.originNode) then
        some (slot.1.originNode, slot.2.nick)
  else none

def liveOriginIdentitiesAfter (self : Store) (token : Token) (nowMs : Int64) :
    Option NodeId → Nat → List OriginIdentity
  | _, 0 => []
  | lower, room + 1 =>
    match leastOf (offerOrigin token nowMs lower) self.entries.entries with
    | none => []
    | some (originNode, nick) =>
      { originNode, nick } :: self.liveOriginIdentitiesAfter token nowMs (some originNode) room

/-! ## Pages of stores that show the same -/

/-- The two stores show the same entries: each shown entry of the one has a shown entry of
the other under its key, with the same nick. -/
def ShowsOf (s t : Store) : Prop :=
  ∀ nowMs key e, s.entries.lookup key = some e → e.pageable nowMs = true →
    ∃ e', t.entries.lookup key = some e' ∧ e'.pageable nowMs = true ∧ e'.nick = e.nick

variable {s t : Store}

theorem offeredToken_mono (h : ShowsOf s t) {nowMs : Int64} {lower : Option Token}
    {x : Token × Unit} (hx : OfferedBy (offerToken nowMs lower) s.entries.entries x) :
    OfferedBy (offerToken nowMs lower) t.entries.entries x := by
  obtain ⟨⟨key, e⟩, hslot, hoffer⟩ := hx
  unfold offerToken at hoffer
  split at hoffer
  · next hshown =>
    obtain ⟨hpage, hlower⟩ := Bool.and_eq_true_iff.mp hshown
    obtain ⟨e', he', hpage', -⟩ := h nowMs key e (HashMap.mem_entries.mp hslot) hpage
    refine ⟨⟨key, e'⟩, HashMap.mem_entries.mpr he', ?_⟩
    rw [← some.inj hoffer]
    exact if_pos (Bool.and_eq_true_iff.mpr ⟨hpage', hlower⟩)
  · cases hoffer

theorem offeredOrigin_mono (h : ShowsOf s t) {token : Token} {nowMs : Int64} {lower : Option NodeId}
    {x : NodeId × Bytes} (hx : OfferedBy (offerOrigin token nowMs lower) s.entries.entries x) :
    OfferedBy (offerOrigin token nowMs lower) t.entries.entries x := by
  obtain ⟨⟨key, e⟩, hslot, hoffer⟩ := hx
  unfold offerOrigin at hoffer
  split at hoffer
  · next hshown =>
    obtain ⟨hfirst, hlower⟩ := Bool.and_eq_true_iff.mp hshown
    obtain ⟨hpage, htoken⟩ := Bool.and_eq_true_iff.mp hfirst
    obtain ⟨e', he', hpage', hnick⟩ := h nowMs key e (HashMap.mem_entries.mp hslot) hpage
    refine ⟨⟨key, e'⟩, HashMap.mem_entries.mpr he', ?_⟩
    rw [← some.inj hoffer, ← hnick]
    exact if_pos (Bool.and_eq_true_iff.mpr ⟨Bool.and_eq_true_iff.mpr ⟨hpage', htoken⟩, hlower⟩)
  · cases hoffer

/-- Of one token, an origin is shown with one nick. -/
theorem offeredOrigin_unique {token : Token} {nowMs : Int64} {lower : Option NodeId}
    {x y : NodeId × Bytes} (hx : OfferedBy (offerOrigin token nowMs lower) s.entries.entries x)
    (hy : OfferedBy (offerOrigin token nowMs lower) s.entries.entries y) (hkey : x.1 = y.1) :
    x = y := by
  have hslot : ∀ z, OfferedBy (offerOrigin token nowMs lower) s.entries.entries z →
      ∃ e, s.entries.lookup ⟨token, z.1⟩ = some e ∧ z.2 = e.nick := by
    rintro z ⟨⟨key, e⟩, hslot, hoffer⟩
    unfold offerOrigin at hoffer
    split at hoffer
    · next hshown =>
      obtain ⟨hfirst, -⟩ := Bool.and_eq_true_iff.mp hshown
      have htoken := tokenEql_iff.mp (Bool.and_eq_true_iff.mp hfirst).2
      cases hoffer
      refine ⟨e, ?_, rfl⟩
      rw [← htoken]
      exact HashMap.mem_entries.mp hslot
    · cases hoffer
  obtain ⟨e, he, hnick⟩ := hslot x hx
  obtain ⟨e', he', hnick'⟩ := hslot y hy
  rw [hkey, he'] at he
  rw [← some.inj he] at hnick
  exact Prod.ext hkey (hnick.trans hnick'.symm)

theorem liveTokensAfter_congr (h : ShowsOf s t) (h' : ShowsOf t s) (nowMs : Int64)
    (lower : Option Token)
    (room : Nat) : t.liveTokensAfter nowMs lower room = s.liveTokensAfter nowMs lower room := by
  induction room generalizing lower with
  | zero => rfl
  | succ room ih =>
    have hleast : leastOf (offerToken nowMs lower) t.entries.entries =
        leastOf (offerToken nowMs lower) s.entries.entries :=
      leastOf_congr (fun x => ⟨offeredToken_mono h', offeredToken_mono h⟩) fun x y _ _ hkey =>
        Prod.ext hkey rfl
    unfold liveTokensAfter
    rw [hleast]
    split
    · rfl
    · next token _ _ => rw [ih (some token)]

theorem liveOriginIdentitiesAfter_congr (h : ShowsOf s t) (h' : ShowsOf t s) (token : Token)
    (nowMs : Int64) (lower : Option NodeId) (room : Nat) :
    t.liveOriginIdentitiesAfter token nowMs lower room =
      s.liveOriginIdentitiesAfter token nowMs lower room := by
  induction room generalizing lower with
  | zero => rfl
  | succ room ih =>
    have hleast : leastOf (offerOrigin token nowMs lower) t.entries.entries =
        leastOf (offerOrigin token nowMs lower) s.entries.entries :=
      leastOf_congr (fun x => ⟨offeredOrigin_mono h', offeredOrigin_mono h⟩) fun x y =>
        offeredOrigin_unique
    unfold liveOriginIdentitiesAfter
    rw [hleast]
    split
    · rfl
    · next originNode nick _ => rw [ih (some originNode)]

end Store

end

/-!
## What a store has merged

The store against the facts it was handed: per origin it holds the fact of the highest
revision, among equals the one of the smallest digest, and nothing of a fenced token. Every
fact that is taken keeps it so, whatever the order.
-/
section

open Lib Text

/-- A signed fact that peers hand on. -/
inductive Fact where
  | offer (signed : SignedOffer)
  | lease (signed : SignedAttachmentLease)

/-- The OFFERs and REVOKEs of one origin. -/
def About (seen : Fact → Prop) (key : OriginKey) (w : SignedOffer) : Prop :=
  seen (.offer w) ∧ w.offer.operation ≠ .groupRevoke ∧ w.offer.key = key

def LeaseAbout (seen : Fact → Prop) (key : OriginKey) (m : SignedAttachmentLease) : Prop :=
  seen (.lease m) ∧ m.lease.key = key

def Fenced (seen : Fact → Prop) (token : Token) : Prop :=
  ∃ w, seen (.offer w) ∧ w.offer.operation = .groupRevoke ∧ w.offer.token = token

/-- One more fact. -/
def With (seen : Fact → Prop) (fact : Fact) : Fact → Prop := fun f => f = fact ∨ seen f

/-- The higher revision first, then the smaller digest. -/
def precedence (crypto : Crypto) (w : SignedOffer) : Revision ×ₗ Digestᵒᵈ :=
  toLex (w.offer.revision, OrderDual.toDual (digestBytes crypto w.transcript))

/-- All OFFERs and group revokes of a token name one account. -/
def OneAccount (facts : Fact → Prop) : Prop :=
  ∀ a b, facts (.offer a) → facts (.offer b) → a.offer.operation ≠ .remove →
    b.offer.operation ≠ .remove →
    a.offer.token = b.offer.token → lowerString a.offer.account = lowerString b.offer.account

section Facts

variable {crypto : Crypto} {seen : Fact → Prop} {key : OriginKey} {token : Token}
    {signed w : SignedOffer}
variable {lease m : SignedAttachmentLease}

theorem precedence_lt {current : Revision} {digest : Digest}
    (h : current < signed.offer.revision ∨
      current = signed.offer.revision ∧ digestBytes crypto signed.transcript < digest)
    (hw : (current, digest) = (w.offer.revision, digestBytes crypto w.transcript)) :
    precedence crypto w < precedence crypto signed := by
  cases hw
  rw [precedence, precedence, Prod.Lex.toLex_lt_toLex]
  exact h

theorem precedence_le {current : Revision} {digest : Digest}
    (h : signed.offer.revision < current ∨
      signed.offer.revision = current ∧ digest ≤ digestBytes crypto signed.transcript)
    (hw : (current, digest) = (w.offer.revision, digestBytes crypto w.transcript)) :
    precedence crypto signed ≤ precedence crypto w := by
  cases hw
  rw [precedence, precedence, Prod.Lex.toLex_le_toLex]
  exact h

theorem about_with_offer (hsingle : signed.offer.operation ≠ .groupRevoke) :
    About (With seen (.offer signed)) key w ↔ (w = signed ∧ key = signed.offer.key) ∨
    About seen key w := by
  constructor
  · rintro ⟨hseen | hseen, hop, hkey⟩
    · cases hseen
      exact .inl ⟨rfl, hkey.symm⟩
    · exact .inr ⟨hseen, hop, hkey⟩
  · rintro (⟨rfl, rfl⟩ | ⟨hseen, hop, hkey⟩)
    · exact ⟨.inl rfl, hsingle, rfl⟩
    · exact ⟨.inr hseen, hop, hkey⟩

theorem about_with_group (hgroup : signed.offer.operation = .groupRevoke) :
    About (With seen (.offer signed)) key w ↔ About seen key w := by
  constructor
  · rintro ⟨hseen | hseen, hop, hkey⟩
    · cases hseen
      exact absurd hgroup hop
    · exact ⟨hseen, hop, hkey⟩
  · rintro ⟨hseen, hop, hkey⟩
    exact ⟨.inr hseen, hop, hkey⟩

theorem about_with_lease : About (With seen (.lease lease)) key w ↔ About seen key w := by
  simp only [About, With, reduceCtorEq, false_or]

theorem leaseAbout_with_offer :
    LeaseAbout (With seen (.offer signed)) key m ↔ LeaseAbout seen key m := by
  simp only [LeaseAbout, With, reduceCtorEq, false_or]

theorem leaseAbout_with_lease : LeaseAbout (With seen (.lease lease)) key m ↔
    (m = lease ∧ key = lease.lease.key) ∨ LeaseAbout seen key m := by
  constructor
  · rintro ⟨hseen | hseen, hkey⟩
    · cases hseen
      exact .inl ⟨rfl, hkey.symm⟩
    · exact .inr ⟨hseen, hkey⟩
  · rintro (⟨rfl, rfl⟩ | ⟨hseen, hkey⟩)
    · exact ⟨.inl rfl, rfl⟩
    · exact ⟨.inr hseen, hkey⟩

theorem fenced_with_single (hsingle : signed.offer.operation ≠ .groupRevoke) :
    Fenced (With seen (.offer signed)) token ↔ Fenced seen token := by
  constructor
  · rintro ⟨w, hseen | hseen, hop, htoken⟩
    · cases hseen
      exact absurd hop hsingle
    · exact ⟨w, hseen, hop, htoken⟩
  · rintro ⟨w, hseen, hop, htoken⟩
    exact ⟨w, .inr hseen, hop, htoken⟩

theorem fenced_with_group (hgroup : signed.offer.operation = .groupRevoke) :
    Fenced (With seen (.offer signed)) token ↔ token = signed.offer.token ∨ Fenced seen token := by
  constructor
  · rintro ⟨w, hseen | hseen, hop, htoken⟩
    · cases hseen
      exact .inl htoken.symm
    · exact .inr ⟨w, hseen, hop, htoken⟩
  · rintro (rfl | ⟨w, hseen, hop, htoken⟩)
    · exact ⟨signed, .inl rfl, hgroup, rfl⟩
    · exact ⟨w, .inr hseen, hop, htoken⟩

theorem fenced_with_lease : Fenced (With seen (.lease lease)) token ↔ Fenced seen token := by
  simp only [Fenced, With, reduceCtorEq, false_or]

theorem isOffer_single (h : signed.offer.isOffer) : signed.offer.operation ≠ .remove := by
  intro hremove
  rcases h with h | h
  · rw [hremove] at h
    cases h
  · rw [hremove] at h
    cases h

end Facts

namespace Store

/-- The wire of the row of an origin. -/
def row (self : Store) (key : OriginKey) : Option SignedOffer :=
  match self.entries.lookup key with
  | some entry => some entry.wire
  | none => (self.tombstones.lookup key).map Tombstone.wire

/-- The lease of an origin against the leases that were seen. -/
structure HoldsLease (crypto : Crypto) (seen : SignedAttachmentLease → Prop)
    (l : AttachmentLeaseEntry) : Prop where
  mem : seen l.wire
  max : ∀ m, seen m → m.lease.revision ≤ l.revision
  conflicted : l.conflicted = true ↔
    ∃ m, seen m ∧ m.lease.revision = l.revision ∧ digestBytes crypto m.transcript ≠ l.digest crypto
  witness : l.conflictWire.isSome = l.conflicted

theorem HoldsLease.congr {crypto : Crypto} {seen seen' : SignedAttachmentLease → Prop}
    {l : AttachmentLeaseEntry}
    (h : HoldsLease crypto seen l) (hsame : ∀ m, seen' m ↔ seen m) : HoldsLease crypto seen' l := by
  rwa [funext fun m => propext (hsame m)]

structure Merged (crypto : Crypto) (seen : Fact → Prop) (s : Store) : Prop where
  offers : ∀ k e, s.entries.lookup k = some e → e.wire.offer.isOffer ∧ e.quarantineUntilMs = none
  revokes : ∀ k t, s.tombstones.lookup k = some t → t.wire.offer.operation = .remove ∧
    t.quarantineUntilMs = none
  bound : ∀ k t d, s.tombstones.lookup k = some t → t.identityDigest = some d →
    ∃ w, seen (.offer w) ∧ w.offer.isOffer ∧ w.offer.token = k.token ∧
      accountDigest crypto w.offer.account = d
  apart : ∀ k t, s.tombstones.lookup k = some t → s.entries.lookup k = none
  held : ∀ k w, ¬ Fenced seen k.token → s.row k = some w →
    Latest (precedence crypto) (About seen k) w
  unheld : ∀ k w, ¬ Fenced seen k.token → s.row k = none → ¬ About seen k w
  cleared : ∀ k, Fenced seen k.token → s.row k = none ∧ s.attachmentLeases.lookup k = none
  fenced : ∀ token, (s.groupRevocations.lookup token).isSome ↔ Fenced seen token
  fence : ∀ token g, s.groupRevocations.lookup token = some g →
    seen (.offer g.wire) ∧ g.wire.offer.operation = .groupRevoke ∧ g.wire.offer.token = token
  free : ∀ token, s.quarantines.lookup token = none
  leaseHeld : ∀ k l, ¬ Fenced seen k.token → s.attachmentLeases.lookup k = some l →
    HoldsLease crypto (LeaseAbout seen k) l
  leaseUnheld : ∀ k m, ¬ Fenced seen k.token → s.attachmentLeases.lookup k = none →
    ¬ LeaseAbout seen k m

variable {crypto : Crypto} {seen facts : Fact → Prop} {s t : Store} {key : OriginKey}
    {token : Token}
variable {signed w : SignedOffer} {viaPeer : NodeId} {nowMs : Int64} {alloc : Allocator}

theorem row_entry {e : Entry} (h : s.entries.lookup key = some e) : s.row key = some e.wire := by
  simp only [row, h]

theorem row_tombstone {tomb : Tombstone} (he : s.entries.lookup key = none)
    (h : s.tombstones.lookup key = some tomb) :
    s.row key = some tomb.wire := by
  simp only [row, he, h, Option.map_some]

theorem row_none (h : s.row key = none) :
    s.entries.lookup key = none ∧ s.tombstones.lookup key = none := by
  unfold row at h
  split at h
  · cases h
  · next hentry => exact ⟨hentry, Option.map_eq_none_iff.mp h⟩

theorem standing_row (crypto : Crypto) (s : Store) (key : OriginKey) :
    s.standing crypto key =
      (s.row key).map fun w => (w.offer.revision, digestBytes crypto w.transcript) := by
  cases hentry : s.entries.lookup key with
  | some entry =>
    simp only [standing, row, hentry, Option.map_some]
    rfl
  | none =>
    simp only [standing, row, hentry, Option.map_map]
    rfl

theorem merged_init (crypto : Crypto) (cfg : Config) :
    Merged crypto (fun _ => False) (initWithConfig cfg) := by
  have hfence : ∀ token, ¬ Fenced (fun _ => False) token := fun token h => h.elim fun _ hw => hw.1
  constructor
  case offers => exact fun _ _ h => nomatch h
  case revokes => exact fun _ _ h => nomatch h
  case bound => exact fun _ _ _ h => nomatch h
  case apart => exact fun _ _ h => nomatch h
  case held => exact fun _ _ _ h => nomatch h
  case unheld => exact fun _ _ _ _ h => h.1
  case cleared => exact fun k h => absurd h (hfence k.token)
  case fenced => exact fun token => iff_of_false Bool.false_ne_true (hfence token)
  case fence => exact fun _ _ h => nomatch h
  case free => exact fun _ => rfl
  case leaseHeld => exact fun _ _ _ h => nomatch h
  case leaseUnheld => exact fun _ _ _ _ h => h.1

namespace Merged

theorem entry_about {e : Entry} (h : Merged crypto seen s) (he : s.entries.lookup key = some e) :
    ¬ Fenced seen key.token ∧ About seen key e.wire := by
  have hfree : ¬ Fenced seen key.token := fun hfence => by
    have hnone := (h.cleared key hfence).1
    rw [row_entry he] at hnone
    cases hnone
  exact ⟨hfree, (h.held key e.wire hfree (row_entry he)).mem⟩

/-- Every account a token is bound to is the account of the token's facts. -/
theorem account_agrees (hone : OneAccount facts) (hsub : ∀ f, seen f → facts f)
    (hfact : facts (.offer signed)) (hsigned : signed.offer.operation ≠ .remove)
    (hw : seen (.offer w))
    (hoffer : w.offer.operation ≠ .remove) (htoken : w.offer.token = signed.offer.token) :
    lowerString w.offer.account = lowerString signed.offer.account :=
  hone w signed (hsub _ hw) hfact hoffer hsigned htoken

section

variable (h : Merged crypto seen s) (hone : OneAccount facts) (hsub : ∀ f, seen f → facts f)
variable (hfact : facts (.offer signed)) (hsigned : signed.offer.operation ≠ .remove)
include h hone hsub hfact hsigned

theorem entry_agrees {e : Entry}
    (he : s.entries.lookup key = some e) (htoken : key.token = signed.offer.token) :
    eqlIgnoreCase e.account signed.offer.account = true := by
  obtain ⟨-, hseen, hop, hkey⟩ := h.entry_about he
  rw [eqlIgnoreCase_iff]
  refine account_agrees hone hsub hfact hsigned hseen (isOffer_single (h.offers key e he).1) ?_
  rw [← htoken, ← hkey]
  rfl

theorem tombstone_agrees {tomb : Tombstone} {d : Digest}
    (ht : s.tombstones.lookup key = some tomb) (hd : tomb.identityDigest = some d)
    (htoken : key.token = signed.offer.token) : d = accountDigest crypto signed.offer.account := by
  obtain ⟨w, hseen, hoffer, hw, rfl⟩ := h.bound key tomb d ht hd
  exact congrArg crypto.blake3
    (account_agrees hone hsub hfact hsigned hseen (isOffer_single hoffer) (hw.trans htoken))

end

theorem unmarked (h : Merged crypto seen s) (token : Token) : s.hasDenyMarker token = false := by
  rw [hasDenyMarker, Bool.or_eq_false_iff, List.any_eq_false, List.any_eq_false]
  constructor
  · intro slot hslot
    rw [(h.offers slot.1 slot.2 (HashMap.mem_entries.mp hslot)).2]
    exact Bool.false_ne_true
  · intro slot hslot
    rw [(h.revokes slot.1 slot.2 (HashMap.mem_entries.mp hslot)).2]
    exact Bool.false_ne_true

theorem unquarantined (h : Merged crypto seen s) (token : Token) :
    s.hasFullQuarantine token = false := by
  rw [hasFullQuarantine, h.free token]
  rfl

theorem not_quarantined (h : Merged crypto seen s) (token : Token) :
    s.isQuarantined token = false := by
  rw [isQuarantined, h.unquarantined, h.unmarked]
  rfl

section

variable (h : Merged crypto seen s) (hone : OneAccount facts) (hsub : ∀ f, seen f → facts f)
variable (hfact : facts (.offer signed))
include h hone hsub hfact

theorem no_conflict (hoffer : signed.offer.isOffer) :
    s.findIdentityConflict crypto signed.offer.token signed.offer.account nowMs = none := by
  have hentries : (s.entries.entries.find? fun slot => tokenEql slot.1.token signed.offer.token &&
      !decide (slot.2.expiresAtMs < nowMs) && !eqlIgnoreCase slot.2.account signed.offer.account) =
        none := by
    refine List.find?_eq_none.mpr fun slot hslot htrue => ?_
    simp only [Bool.and_eq_true, tokenEql_iff, Bool.not_eq_true'] at htrue
    have hagrees :=
      h.entry_agrees hone hsub hfact (isOffer_single hoffer)
      (HashMap.mem_entries.mp hslot) htrue.1.1
    rw [htrue.2] at hagrees
    cases hagrees
  have htombstones :
      (s.tombstones.entries.find? fun slot => tokenEql slot.1.token signed.offer.token &&
      !decide (slot.2.offerExpiresAtMs < nowMs) &&
      slot.2.identityDigest.any (· != accountDigest crypto signed.offer.account)) = none := by
    refine List.find?_eq_none.mpr fun slot hslot htrue => ?_
    simp only [Bool.and_eq_true, tokenEql_iff, Option.any_eq_true, bne_iff_ne] at htrue
    obtain ⟨⟨htoken, -⟩, d, hd, hne⟩ := htrue
    exact hne
      (h.tombstone_agrees hone hsub hfact (isOffer_single hoffer)
        (HashMap.mem_entries.mp hslot) hd htoken)
  simp only [findIdentityConflict, hentries, htombstones]

theorem no_mismatch (hsigned : signed.offer.operation ≠ .remove) :
    s.accountMismatch crypto signed.offer.token signed.offer.account = false := by
  rw [accountMismatch, Bool.or_eq_false_iff, List.any_eq_false, List.any_eq_false]
  constructor
  · intro slot hslot htrue
    simp only [Bool.and_eq_true, tokenEql_iff, Bool.not_eq_true'] at htrue
    have hagrees := h.entry_agrees hone hsub hfact hsigned (HashMap.mem_entries.mp hslot) htrue.1
    rw [htrue.2] at hagrees
    cases hagrees
  · intro slot hslot htrue
    simp only [Bool.and_eq_true, tokenEql_iff, Option.any_eq_true, bne_iff_ne] at htrue
    obtain ⟨htoken, d, hd, hne⟩ := htrue
    exact hne (h.tombstone_agrees hone hsub hfact hsigned (HashMap.mem_entries.mp hslot) hd htoken)

end

end Merged

end Store

end

end OnyxServer.SessionReplica
