import OnyxServer.SessionReplica.Books
import OnyxServer.SessionReplica.Effects

/-!
# Slots and books under the live calls

The books and the room of the tables are kept by offers and revokes, group fences,
quarantines, leases and sweeps, whatever fails on the way.
-/
namespace OnyxServer.SessionReplica

open Lib Text HashMap Option

namespace Store

variable {crypto : Crypto} {accounts : Set Bytes} {s t : Store} {key : OriginKey} {token : Token}
variable {signed : SignedOffer} {viaPeer : NodeId} {nowMs : Int64} {alloc : Allocator}

structure InOrder (crypto : Crypto) (accounts : Set Bytes) (s : Store) : Prop where
  books : Books crypto accounts s
  room : Room s

theorem InOrder.alike (hs : InOrder crypto accounts s) (h : Alike s t) :
    InOrder crypto accounts t :=
  ⟨hs.books.alike h, hs.room.alike h⟩

theorem removeStateForToken_inOrder (token : Token) (h : InOrder crypto accounts s) :
    InOrder crypto accounts (s.removeStateForToken crypto token) :=
  ⟨removeStateForToken_books token h.books, removeStateForToken_room token h.room⟩

theorem sweep_inOrder (nowMs : Int64) (h : InOrder crypto accounts s) :
    InOrder crypto accounts (s.sweep crypto nowMs) :=
  ⟨sweep_books nowMs h.books, sweep_room nowMs h.room⟩

variable {e : Entry}

/-- The books after a row became an entry: `t` holds it, lists it and has no tombstone of it. -/
theorem books_of_insert (h : Books crypto accounts s) (h0 : key.originNode ≠ 0)
    (hin : lowerString e.account ∈ accounts) (hentries : t.entries = s.entries.insert key e)
    (htombstones : t.tombstones = s.tombstones.erase key)
    (hsoft : t.softCappedTombstones = s.softAfter key)
    (hgroups : t.groupRevocations = s.groupRevocations) (hfaulted : t.faulted = false)
    (hmirrors : Mirrors t.accountIndex fun k d =>
      (k ≠ key ∧ s.owes crypto k d) ∨ (k = key ∧ d = accountDigest crypto e.account)) :
    Books crypto accounts t := by
  have hlookup : ∀ k, t.entries.lookup k = if k = key then some e else s.entries.lookup k := by
    intro k
    rw [hentries, lookup_insert_eq]
  constructor
  case sound => exact hfaulted
  case soft => rw [hsoft, htombstones, softAfter_eq key h.soft]
  case origin =>
    intro k e' hk
    rw [hlookup] at hk
    split at hk
    · next heq => exact heq ▸ h0
    · exact h.origin k e' hk
  case folded =>
    intro k e' hk
    rw [hlookup] at hk
    split at hk
    · exact some.inj hk ▸ hin
    · exact h.folded k e' hk
  case apart =>
    intro k hk
    rw [htombstones, lookup_erase_eq] at hk
    split at hk
    · cases hk
    · next hne =>
      rw [hlookup, if_neg hne]
      exact h.apart k hk
  case mirrors =>
    refine hmirrors.congr fun k d => ?_
    unfold owes
    rw [hlookup, hgroups]
    by_cases hk : k = key
    · subst hk
      rw [if_pos rfl]
      constructor
      · rintro (⟨e', he', hd⟩ | ⟨hzero, -⟩)
        · exact .inr ⟨rfl, some.inj he' ▸ hd.symm⟩
        · exact absurd hzero h0
      · rintro (⟨hne, -⟩ | ⟨-, hd⟩)
        · exact absurd rfl hne
        · exact .inl ⟨e, rfl, hd.symm⟩
    · rw [if_neg hk]
      simp [hk]

/-- Room for the entry of an OFFER that was admitted. -/
theorem room_of_offer (h : Room s)
    (hadmits : s.admitsEntry key = true) (hcfg : t.cfg = s.cfg)
    (hentries : t.entries = s.entries.insert key e)
    (htombstones : t.tombstones = s.tombstones.erase key) : Room t := by
  have hle := count_erase_le s.tombstones key
  obtain ⟨hfirst, hboth⟩ := h
  cases he : s.entries.lookup key with
  | some old =>
    have hcount := count_insert_old (m := s.entries) (k := key) (v := e) (by rw [he]; rfl)
    constructor
    · rw [hentries, hcfg, hcount]
      exact hfirst
    · rw [hentries, htombstones, hcfg, hcount]
      omega
  | none =>
    have hcount := HashMap.count_insert_new (v := e) he
    obtain ⟨hroom, hnew⟩ := admitNewEntry_new (by simp only [he]; rfl) hadmits
    simp only at hroom hnew
    have hroom' : HashMap.count s.entries < s.cfg.maxEntries := hroom
    constructor
    · rw [hentries, hcfg, hcount]
      omega
    · rw [hentries, htombstones, hcfg, hcount]
      cases ht : s.tombstones.lookup key with
      | some old =>
        have hfreed := count_erase_old (m := s.tombstones) (k := key) (by rw [ht]; rfl)
        omega
      | none =>
        have hfree : HashMap.count s.entries + HashMap.count s.tombstones <
          s.cfg.maxEntries + s.cfg.maxTombstones := hnew (by simp only [he, ht]; rfl)
        omega

variable {routes : HashMap RouteKey RouteValue} {room : Allocator} {reserved : Store} {added : Bool}

theorem offered_inOrder
    (hinj : Distinguishes crypto accounts) (hin : Presents accounts signed)
    (h : InOrder crypto accounts s) (hadmits : s.admitsEntry signed.offer.key = true)
    (hreserve : s.reserveAccountOrigin crypto signed.offer.account signed.offer.key room =
      some (added, reserved)) :
    InOrder crypto accounts (s.offered crypto signed viaPeer nowMs added reserved routes) := by
  obtain ⟨hfaulted, hmirrors⟩ := reindex_spec hinj h.books signed.key_origin hin hreserve
  constructor
  · exact books_of_insert (e := s.offeredEntry signed viaPeer nowMs) h.books signed.key_origin hin
      rfl rfl rfl rfl hfaulted hmirrors
  · exact room_of_offer h.room hadmits rfl rfl rfl

/-- The books after a row without an entry became a tombstone. -/
theorem books_of_tombstone (tomb : Tombstone) (h : Books crypto accounts s)
    (hnone : s.entries.lookup key = none)
    (hflag : ∀ old, s.tombstones.lookup key = some old → tomb.softCapped = old.softCapped) :
    Books crypto accounts { s with
      tombstones := s.tombstones.insert key tomb
      softCappedTombstones :=
        if !(s.tombstones.lookup key).isSome && tomb.softCapped then s.softCappedTombstones + 1
        else s.softCappedTombstones } := by
  constructor
  case sound => exact h.sound
  case origin => exact h.origin
  case folded => exact h.folded
  case mirrors => exact h.mirrors
  case apart =>
    intro k hk
    change ((s.tombstones.insert key tomb).lookup k).isSome at hk
    rw [lookup_insert_eq] at hk
    split at hk
    · next heq => exact heq ▸ hnone
    · exact h.apart k hk
  case soft =>
    change (if _ then _ else _) = _
    rw [countIf_insert, h.soft]
    cases ht : s.tombstones.lookup key with
    | some old =>
      have hcount := countIf_erase_old (p := Tombstone.softCapped) ht
      rw [← hflag old ht] at hcount
      exact hcount.symm
    | none =>
      rw [countIf_erase_new ht]
      cases tomb.softCapped <;> rfl

theorem tombstoneSoftCapped_old {old : Tombstone} (h : s.tombstones.lookup key = some old) :
    s.tombstoneSoftCapped key = old.softCapped := by
  simp only [tombstoneSoftCapped, h]

theorem revoked_inOrder (h : InOrder crypto accounts s)
    (hadmits : s.admitsTombstone signed.offer.key = true) :
    InOrder crypto accounts (s.revoked crypto signed nowMs routes) := by
  obtain ⟨index, faulted, hdrop⟩ := dropEntry_frame crypto s signed.offer.key
  have hdropped := dropEntry_books signed.offer.key h.books
  have hgone : (s.dropEntry crypto signed.offer.key).entries.lookup signed.offer.key = none := by
    rw [hdrop, lookup_erase_eq, if_pos rfl]
  have hflag : ∀ old, (s.dropEntry crypto signed.offer.key).tombstones.lookup signed.offer.key =
      some old →
      (s.revokedTombstone crypto signed nowMs).softCapped = old.softCapped := by
    intro old hold
    rw [hdrop] at hold
    exact tombstoneSoftCapped_old hold
  have hbooks := books_of_tombstone (s.revokedTombstone crypto signed nowMs) hdropped hgone hflag
  rw [hdrop] at hbooks
  constructor
  · unfold revoked
    rw [hdrop]
    exact hbooks.alike (.of_eq rfl rfl rfl rfl rfl rfl rfl)
  · obtain ⟨hfirst, hboth⟩ := h.room
    have hshrink := count_erase_le s.entries signed.offer.key
    constructor
    · exact hshrink.trans hfirst
    · change HashMap.count (s.entries.erase _) + HashMap.count (s.tombstones.insert _ _) ≤
        s.cfg.maxEntries + s.cfg.maxTombstones
      cases ht : s.tombstones.lookup signed.offer.key with
      | some old =>
        rw [count_insert_old (by rw [ht]; rfl)]
        exact (Nat.add_le_add_right hshrink _).trans hboth
      | none =>
        rw [HashMap.count_insert_new ht]
        cases he : s.entries.lookup signed.offer.key with
        | some e =>
          have hfreed := count_erase_old (m := s.entries) (k := signed.offer.key) (by rw [he]; rfl)
          omega
        | none =>
          obtain ⟨-, hfree⟩ :=
            admitTombstone_new (by simp only [ht]; rfl) (by simp only [he]; rfl) hadmits
          have hfree' : HashMap.count s.entries + HashMap.count s.tombstones <
            s.cfg.maxEntries + s.cfg.maxTombstones := hfree
          omega

/-- A live entry is never refused its tombstone. -/
theorem admitsTombstone_live (h : Room s) (he : s.entries.lookup key = some e) :
    s.admitsTombstone key = true := by
  refine admitTombstone_live (by simp only [he]; rfl) ?_ h.combined
  have hcount := count_erase_old (m := s.entries) (k := key) (by rw [he]; rfl)
  simp only
  omega

/-- An entry written over with the same wire. -/
theorem rewrite_alike (e' : Entry) (he : s.entries.lookup key = some e) (hwire : e'.wire = e.wire) :
    Alike s { s with entries := s.entries.insert key e' } where
  cfg := rfl
  entries k := by
    rw [lookup_insert_eq]
    split
    · next hk => rw [hk, he, Option.map_some, Option.map_some, hwire]
    · rfl
  tombstones k := rfl
  groups token := rfl
  entriesCount := count_insert_old (by rw [he]; rfl)
  tombstonesCount := rfl
  softCount := rfl
  softCapped := rfl
  index := rfl
  faulted := rfl

/-- An index that lists the same keys is as good. -/
theorem InOrder.relisted {index : HashMap Digest (List OriginKey)} (h : InOrder crypto accounts s)
    (hlisted : ∀ d, listed index d = listed s.accountIndex d) :
    InOrder crypto accounts { s with accountIndex := index } := by
  obtain ⟨hbooks, hroom⟩ := h
  refine ⟨⟨hbooks.sound, hbooks.origin, hbooks.folded, hbooks.apart, hbooks.soft, ?_⟩,
    ⟨hroom.entries, hroom.combined⟩⟩
  exact hbooks.mirrors.of_listed fun d => by rw [hlisted]

theorem reserved_inOrder {account : Bytes}
    (h : InOrder crypto accounts s)
    (hreserve : s.reserveAccountOrigin crypto account key room = some (added, reserved)) :
    InOrder crypto accounts reserved := by
  rcases reserveAccountOrigin_some hreserve with ⟨-, rfl, -⟩ | ⟨-, -, index, rfl, hlisted, -⟩
  · exact h
  · exact h.relisted hlisted

theorem commitGroupRevoke_inOrder
    (h : InOrder crypto accounts s) (hnew : s.groupRevocations.lookup token = none)
    (hreserve : s.reserveAccountOrigin crypto signed.offer.account ⟨token, 0⟩ room =
      some (added, reserved)) :
    InOrder crypto accounts (reserved.commitGroupRevoke crypto ⟨token, some signed⟩).2 := by
  have hunowed : ∀ d, ¬ s.owes crypto ⟨token, 0⟩ d := by
    rintro d (⟨e, he, -⟩ | ⟨-, g, hg, -⟩)
    · exact h.books.origin _ e he rfl
    · rw [hnew] at hg
      cases hg
  rcases reserveAccountOrigin_some hreserve with ⟨-, -, hmem⟩ | ⟨-, -, index, rfl, hlisted, hroom⟩
  · exact absurd ((h.books.mirrors.mem_iff _ _).mp hmem) (hunowed _)
  obtain ⟨index', happend, hmirrors⟩ :=
    appendAccountOrigin_spec (s := { s with accountIndex := index })
    (h.relisted hlisted).books.mirrors hroom (hunowed _)
  have hfenced : InOrder crypto accounts
      { s with accountIndex := index', groupRevocations :=
        s.groupRevocations.insert token ⟨signed⟩ } := by
    refine ⟨⟨h.books.sound, h.books.origin, h.books.folded, h.books.apart, h.books.soft, ?_⟩,
      ⟨h.room.entries, h.room.combined⟩⟩
    refine hmirrors.congr fun k d => ?_
    unfold owes
    rw [lookup_insert_eq]
    by_cases htoken : k.token = token
    · rw [if_pos htoken]
      constructor
      · rintro (hentry | ⟨h0, g, hg, hd⟩)
        · exact .inl (.inl hentry)
        · have hk : k = ⟨token, 0⟩ := by
            cases k
            simp only at htoken h0
            rw [htoken, h0]
          refine .inr ⟨hk, ?_⟩
          rw [← hd, ← some.inj hg]
          rfl
      · rintro ((hentry | ⟨h0, g, hg, hd⟩) | ⟨rfl, hd⟩)
        · exact .inl hentry
        · have hg' : s.groupRevocations.lookup k.token = some g := hg
          rw [htoken, hnew] at hg'
          cases hg'
        · exact .inr ⟨rfl, ⟨signed⟩, rfl, hd.symm⟩
    · rw [if_neg htoken]
      refine ⟨.inl, ?_⟩
      rintro (howes | ⟨rfl, -⟩)
      · exact howes
      · exact absurd rfl htoken
  have hremoved := removeStateForToken_inOrder token hfenced
  simp only [commitGroupRevoke, happend]
  exact hremoved.alike (.of_eq rfl rfl rfl rfl rfl rfl rfl)

theorem abortGroupRevoke_inOrder (prepared : PreparedGroupRevoke) (h : InOrder crypto accounts s) :
    InOrder crypto accounts (s.abortGroupRevoke crypto prepared) := by
  unfold abortGroupRevoke
  split
  · exact h
  rename_i signed
  simp only
  split
  · next hempty =>
    refine h.relisted fun d => ?_
    rw [listed_erase]
    split
    · next hd => rw [hd, listed_some hempty]
    · rfl
  · exact h

theorem OfferEffect.inOrder {answer : Except ApplyError ApplyResult}
    (hinj : Distinguishes crypto accounts) (hin : signed.offer.isOffer → Presents accounts signed)
    (heffect : OfferEffect crypto s signed viaPeer nowMs answer t)
    (h : InOrder crypto accounts s) : InOrder crypto accounts t := by
  cases heffect with
  | refused e routes index hlisted =>
      exact (h.relisted hlisted).alike (.of_eq rfl rfl rfl rfl rfl rfl rfl)
  | fenced => exact h
  | barred => exact h
  | denied => exact h.alike (markTokenDenied_alike _ _ _)
  | isolated =>
    exact (removeStateForToken_inOrder signed.offer.token h).alike
      (.of_eq rfl rfl rfl rfl rfl rfl rfl)
  | outranked => exact h.alike (.of_eq rfl rfl rfl rfl rfl rfl rfl)
  | refreshed entry routes hadmitted hentry =>
    exact (h.alike (rewrite_alike { entry with updatedAtMs := nowMs } hentry rfl)).alike
      (.of_eq rfl rfl rfl rfl rfl rfl rfl)
  | offered disposition current added reserved routes room hinstalls hoffer hdisposition hadmits
      hreserve =>
    exact offered_inOrder hinj (hin hoffer) h hadmits hreserve
  | revoked disposition current routes hinstalls hremove hdisposition hadmits =>
      exact revoked_inOrder h hadmits
  | groupKnown => exact h
  | groupFenced added reserved room hgroup hverified hvalid hnew hagreed hfree hroom hreserve =>
    exact commitGroupRevoke_inOrder h hnew hreserve

theorem revokeGroup_inOrder {commit : Bool} (h : InOrder crypto accounts s) :
    InOrder crypto accounts (s.revokeGroup crypto signed nowMs alloc commit).2 := by
  unfold revokeGroup
  rcases prepareGroupRevoke_cases crypto s signed nowMs alloc with
    ⟨e, heq, -⟩ | ⟨old, hold, heq⟩ | ⟨added, reserved, room, -, -, -, hnew, -, -, -, hreserve, heq⟩
  · rw [heq]
    exact h
  · rw [heq]
    cases commit with
    | true => exact h
    | false => exact h
  · rw [heq]
    cases commit with
    | true => exact commitGroupRevoke_inOrder h hnew hreserve
    | false =>
      exact abortGroupRevoke_inOrder ⟨signed.offer.token, some signed⟩ (reserved_inOrder h hreserve)

/-- A lease touches nothing the books record. -/
theorem applySignedAttachmentLease_frame (crypto : Crypto) (s : Store)
    (signed : SignedAttachmentLease) (nowMs : Int64) (alloc : Allocator) :
    ∃ leases, (s.applySignedAttachmentLease crypto signed nowMs alloc).2 =
      { s with attachmentLeases := leases } := by
  have hinstall : ∀ replacing, ∃ leases,
      (s.installAttachmentLease signed replacing alloc).2 =
        { s with attachmentLeases := leases } := by
    intro replacing
    unfold installAttachmentLease
    split
    · exact ⟨_, rfl⟩
    · exact ⟨_, rfl⟩
  have hwitness : ∀ current, ∃ leases,
      (s.applyLeaseWitness crypto signed current alloc).2 =
        { s with attachmentLeases := leases } := by
    intro current
    simp only [applyLeaseWitness]
    split
    · exact ⟨_, rfl⟩
    split
    · split
      · exact ⟨_, rfl⟩
      · exact ⟨_, rfl⟩
    · split
      · exact ⟨_, rfl⟩
      · exact ⟨_, rfl⟩
  simp only [applySignedAttachmentLease]
  split
  · exact ⟨_, rfl⟩
  split
  · exact ⟨_, rfl⟩
  split
  · exact ⟨_, rfl⟩
  split
  · split
    · exact ⟨_, rfl⟩
    · exact hwitness _
    · exact hinstall true
  · split
    · exact ⟨_, rfl⟩
    · exact hinstall false

end Store

end OnyxServer.SessionReplica
