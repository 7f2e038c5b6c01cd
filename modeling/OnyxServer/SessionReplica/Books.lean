import OnyxServer.SessionReplica.Frames

/-!
# The books of the store

The invariant behind the slot counts, the soft cap and the account index, and what each
operation does to it. Accounts whose digests collide would be listed as one; the accounts
that reach the store are a set on which the hash is injective.
-/
namespace OnyxServer.SessionReplica

open Lib Text HashMap Option

/-- The accounts are told apart by their digest. -/
abbrev Distinguishes (crypto : Crypto) (accounts : Set Bytes) : Prop :=
  Set.InjOn (fun account => crypto.blake3 account) accounts

/-- The account of an object is one of those that are told apart. -/
def Presents (accounts : Set Bytes) (signed : SignedOffer) : Prop :=
  lowerString signed.offer.account ∈ accounts

theorem SignedOffer.key_origin (signed : SignedOffer) : signed.offer.key.originNode ≠ 0 :=
  validateOfferShape_origin signed.shape

namespace Store

variable {crypto : Crypto} {accounts : Set Bytes} {s t : Store} {key : OriginKey} {token : Token}
variable {account : Bytes} {signed : SignedOffer} {viaPeer : NodeId} {nowMs : Int64}
    {alloc : Allocator}

/-- Under which digests the index owes a key: that of its entry's account, and for the key
`(token, 0)` that of the token's group fence. -/
def owes (crypto : Crypto) (s : Store) (k : OriginKey) (d : Digest) : Prop :=
  (∃ e, s.entries.lookup k = some e ∧ accountDigest crypto e.account = d) ∨
    (k.originNode = 0 ∧ ∃ g, s.groupRevocations.lookup k.token = some g ∧
      accountDigest crypto g.account = d)

structure Books (crypto : Crypto) (accounts : Set Bytes) (s : Store) : Prop where
  sound : s.faulted = false
  origin : ∀ k e, s.entries.lookup k = some e → k.originNode ≠ 0
  folded : ∀ k e, s.entries.lookup k = some e → lowerString e.account ∈ accounts
  apart : ∀ k, (s.tombstones.lookup k).isSome → s.entries.lookup k = none
  soft : s.softCappedTombstones = HashMap.countIf Tombstone.softCapped s.tombstones
  mirrors : Mirrors s.accountIndex (s.owes crypto)

/-- The slots are within their bounds. -/
structure Room (s : Store) : Prop where
  entries : HashMap.count s.entries ≤ s.cfg.maxEntries
  combined : HashMap.count s.entries + HashMap.count s.tombstones ≤
    s.cfg.maxEntries + s.cfg.maxTombstones

theorem books_init (crypto : Crypto) (accounts : Set Bytes) (cfg : Config) :
    Books crypto accounts (initWithConfig cfg) := by
  constructor
  case sound => rfl
  case soft => rfl
  case apart => intro k _; rfl
  case origin => intro k e h; cases h
  case folded => intro k e h; cases h
  case mirrors =>
    refine Mirrors.empty.congr fun k d => iff_of_false ?_ id
    rintro (⟨e, h, -⟩ | ⟨-, g, h, -⟩)
    · cases h
    · cases h

theorem room_init (cfg : Config) : Room (initWithConfig cfg) := ⟨Nat.zero_le _, Nat.zero_le _⟩

/-! ## Stores that differ in nothing the books record -/

structure Alike (s t : Store) : Prop where
  cfg : t.cfg = s.cfg
  entries : ∀ k, (t.entries.lookup k).map Entry.wire = (s.entries.lookup k).map Entry.wire
  tombstones : ∀ k, (t.tombstones.lookup k).isSome = (s.tombstones.lookup k).isSome
  groups : ∀ token, t.groupRevocations.lookup token = s.groupRevocations.lookup token
  entriesCount : HashMap.count t.entries = HashMap.count s.entries
  tombstonesCount : HashMap.count t.tombstones = HashMap.count s.tombstones
  softCount : HashMap.countIf Tombstone.softCapped t.tombstones =
    HashMap.countIf Tombstone.softCapped s.tombstones
  softCapped : t.softCappedTombstones = s.softCappedTombstones
  index : t.accountIndex = s.accountIndex
  faulted : t.faulted = s.faulted

namespace Alike

theorem of_eq (hcfg : t.cfg = s.cfg) (hentries : t.entries = s.entries)
    (htombstones : t.tombstones = s.tombstones)
    (hgroups : t.groupRevocations = s.groupRevocations)
    (hsoft : t.softCappedTombstones = s.softCappedTombstones)
    (hindex : t.accountIndex = s.accountIndex) (hfaulted : t.faulted = s.faulted) : Alike s t where
  cfg := hcfg
  entries k := by rw [hentries]
  tombstones k := by rw [htombstones]
  groups token := by rw [hgroups]
  entriesCount := by rw [hentries]
  tombstonesCount := by rw [htombstones]
  softCount := by rw [htombstones]
  softCapped := hsoft
  index := hindex
  faulted := hfaulted

theorem trans {u : Store} (h : Alike s t) (h' : Alike t u) : Alike s u where
  cfg := h'.cfg.trans h.cfg
  entries k := (h'.entries k).trans (h.entries k)
  tombstones k := (h'.tombstones k).trans (h.tombstones k)
  groups token := (h'.groups token).trans (h.groups token)
  entriesCount := h'.entriesCount.trans h.entriesCount
  tombstonesCount := h'.tombstonesCount.trans h.tombstonesCount
  softCount := h'.softCount.trans h.softCount
  softCapped := h'.softCapped.trans h.softCapped
  index := h'.index.trans h.index
  faulted := h'.faulted.trans h.faulted

/-- An entry of the one store has the wire of an entry of the other. -/
theorem entry {k : OriginKey} {e : Entry} (h : Alike s t) (he : t.entries.lookup k = some e) :
    ∃ e', s.entries.lookup k = some e' ∧ e'.wire = e.wire := by
  have hwire := h.entries k
  rw [he, map_some] at hwire
  exact map_eq_some_iff.mp hwire.symm

theorem symm (h : Alike s t) : Alike t s where
  cfg := h.cfg.symm
  entries k := (h.entries k).symm
  tombstones k := (h.tombstones k).symm
  groups token := (h.groups token).symm
  entriesCount := h.entriesCount.symm
  tombstonesCount := h.tombstonesCount.symm
  softCount := h.softCount.symm
  softCapped := h.softCapped.symm
  index := h.index.symm
  faulted := h.faulted.symm

theorem owes_of {k : OriginKey} {d : Digest} (h : Alike s t) (howes : t.owes crypto k d) :
    s.owes crypto k d := by
  rcases howes with ⟨e, he, hd⟩ | ⟨h0, g, hg, hd⟩
  · obtain ⟨e', he', hwire⟩ := h.entry he
    refine .inl ⟨e', he', ?_⟩
    rw [Entry.account, hwire]
    exact hd
  · exact .inr ⟨h0, g, (h.groups k.token).symm.trans hg, hd⟩

end Alike

theorem Books.alike (hs : Books crypto accounts s) (h : Alike s t) : Books crypto accounts t where
  sound := h.faulted.trans hs.sound
  origin k e he := by
    obtain ⟨e', he', -⟩ := h.entry he
    exact hs.origin k e' he'
  folded k e he := by
    obtain ⟨e', he', hwire⟩ := h.entry he
    rw [Entry.account, ← hwire]
    exact hs.folded k e' he'
  apart k hk := by
    have hnone := hs.apart k (h.tombstones k ▸ hk)
    have hwire := h.entries k
    rw [hnone, map_none] at hwire
    exact map_eq_none_iff.mp hwire
  soft := h.softCapped.trans (hs.soft.trans h.softCount.symm)
  mirrors := by
    rw [h.index]
    exact hs.mirrors.congr fun k d => ⟨h.owes_of, h.symm.owes_of⟩

theorem Room.alike (hs : Room s) (h : Alike s t) : Room t := by
  constructor
  · rw [h.entriesCount, h.cfg]
    exact hs.entries
  · rw [h.entriesCount, h.tombstonesCount, h.cfg]
    exact hs.combined

/-- Values rewritten where they stand, with their wires and flags kept. -/
theorem alike_mapValues (s : Store) (f : OriginKey → Entry → Entry)
    (g : OriginKey → Tombstone → Tombstone)
    (hf : ∀ k e, (f k e).wire = e.wire) (hg : ∀ k t, (g k t).softCapped = t.softCapped) :
    Alike s { s with
      entries := HashMap.mapValues f s.entries, tombstones :=
        HashMap.mapValues g s.tombstones } where
  cfg := rfl
  entries k := by
    rw [lookup_mapValues, map_map]
    exact congrArg (Option.map · _) (funext fun e => hf k e)
  tombstones k := by rw [lookup_mapValues, isSome_map]
  groups token := rfl
  entriesCount := count_mapValues f s.entries
  tombstonesCount := count_mapValues g s.tombstones
  softCount := countIf_mapValues s.tombstones hg
  softCapped := rfl
  index := rfl
  faulted := rfl

theorem markTokenDenied_alike (s : Store) (token : Token) (untilMs : Int64) :
    Alike s (s.markTokenDenied token untilMs) := by
  refine (alike_mapValues s (denyEntry token untilMs) (denyTombstone token untilMs) ?_ ?_).trans
    (.of_eq rfl rfl rfl rfl rfl rfl rfl)
  · intro k e
    unfold denyEntry
    split <;> rfl
  · intro k e
    unfold denyTombstone
    split <;> rfl

theorem sweepMarkers_alike (s : Store) (nowMs : Int64) : Alike s (s.sweepMarkers nowMs) :=
  alike_mapValues s (fun _ => clearEntry nowMs) (fun _ => clearTombstone nowMs)
    (fun _ _ => rfl) fun _ _ => rfl

theorem rehash_alike (s : Store) (i : Nat) (table : Table) : Alike s (s.rehash i table) := by
  cases table with
  | entries =>
    have hlookup := lookup_rehash i s.entries
    exact ⟨rfl, fun k => congrArg _ (hlookup k), fun _ => rfl, fun _ => rfl,
      count_congr hlookup, rfl, rfl, rfl, rfl, rfl⟩
  | tombstones =>
    have hlookup := lookup_rehash i s.tombstones
    exact ⟨rfl, fun _ => rfl, fun k => congrArg _ (hlookup k), fun _ => rfl, rfl,
      count_congr hlookup, countIf_congr hlookup, rfl, rfl, rfl⟩
  | quarantines => exact .of_eq rfl rfl rfl rfl rfl rfl rfl
  | attachmentLeases => exact .of_eq rfl rfl rfl rfl rfl rfl rfl
  | groupRevocations =>
    have hlookup := lookup_rehash i s.groupRevocations
    exact ⟨rfl, fun _ => rfl, fun _ => rfl, hlookup, rfl, rfl, rfl, rfl, rfl, rfl⟩

/-- The books of a key that holds an entry. -/
theorem Books.owes_entry {k : OriginKey} {e : Entry} {d : Digest} (h : Books crypto accounts s)
    (he : s.entries.lookup k = some e) : s.owes crypto k d ↔
    accountDigest crypto e.account = d := by
  constructor
  · rintro (⟨e', he', hd⟩ | ⟨h0, -⟩)
    · rw [he] at he'
      exact some.inj he' ▸ hd
    · exact absurd h0 (h.origin k e he)
  · exact fun hd => .inl ⟨e, he, hd⟩

theorem owes_none {k : OriginKey} {d : Digest} (h0 : k.originNode ≠ 0)
    (hnone : s.entries.lookup k = none) :
    ¬ s.owes crypto k d := by
  rintro (⟨e, he, -⟩ | ⟨hzero, -⟩)
  · rw [hnone] at he
    cases he
  · exact h0 hzero

variable {owed : OriginKey → Digest → Prop}

theorem removeAccountOrigin_spec (crypto : Crypto) (account : Bytes) (key : OriginKey)
    (h : Mirrors s.accountIndex owed)
    (howed : owed key (accountDigest crypto account)) :
    ∃ index, s.removeAccountOrigin crypto account key = { s with accountIndex := index } ∧
      Mirrors index fun k d => owed k d ∧ ¬ (k = key ∧ d = accountDigest crypto account) := by
  obtain ⟨i, hi, hremoved⟩ := h.remove howed
  cases hbucket : s.accountIndex.lookup (accountDigest crypto account) with
  | none =>
    have hmem := (h.mem_iff _ _).mpr howed
    rw [listed_none hbucket] at hmem
    exact absurd hmem List.not_mem_nil
  | some bucket =>
    rw [listed_some hbucket] at hi hremoved
    simp only [removeAccountOrigin, hbucket, hi]
    split
    · next hempty =>
      refine ⟨_, rfl, hremoved _ fun e => ?_⟩
      rw [listed_erase, List.length_eq_zero_iff.mp hempty]
    · exact ⟨_, rfl, hremoved _ fun e => listed_insert _ _ _ _⟩

theorem appendAccountOrigin_spec (h : Mirrors s.accountIndex owed)
    (hroom : (s.accountIndex.lookup (accountDigest crypto account)).isSome)
    (hnew : ¬ owed key (accountDigest crypto account)) :
    ∃ index, s.appendAccountOrigin crypto account key = { s with accountIndex := index } ∧
      Mirrors index fun k d => owed k d ∨ k = key ∧ d = accountDigest crypto account := by
  obtain ⟨bucket, hbucket⟩ := isSome_iff_exists.mp hroom
  simp only [appendAccountOrigin, hbucket]
  exact ⟨_, rfl, h.append (listed_some hbucket) hnew⟩

/-- The index after an OFFER: the key under its account and under no other. -/
theorem reindex_spec {added : Bool} {reserved : Store} {room : Allocator}
    (hinj : Distinguishes crypto accounts)
    (h : Books crypto accounts s) (h0 : key.originNode ≠ 0) (hin : lowerString account ∈ accounts)
    (hreserve : s.reserveAccountOrigin crypto account key room = some (added, reserved)) :
    (reserved.reindex crypto added account key).faulted = false ∧
      Mirrors (reserved.reindex crypto added account key).accountIndex fun k d =>
        (k ≠ key ∧ s.owes crypto k d) ∨ (k = key ∧ d = accountDigest crypto account) := by
  rcases reserveAccountOrigin_some hreserve with
    ⟨rfl, hkept, hmem⟩ | ⟨rfl, hnot, index, rfl, hlisted, hroom⟩
  · obtain rfl : s = reserved := hkept.symm
    have howes := (h.mirrors.mem_iff _ _).mp hmem
    cases he : s.entries.lookup key with
    | none => exact absurd howes (owes_none h0 he)
    | some old =>
      have hdigest := (h.owes_entry he).mp howes
      have hfold := hinj (h.folded key old he) hin hdigest
      have hsame : s.reindex crypto false account key = s := by
        simp only [reindex, retireAccount, Bool.false_eq_true, if_false, he]
        rw [if_neg]
        simpa using hfold
      rw [hsame]
      refine ⟨h.sound, h.mirrors.congr fun k d => ?_⟩
      by_cases hk : k = key
      · subst hk
        rw [h.owes_entry he, hdigest]
        simp [eq_comm]
      · simp [hk]
  · have hmirrors : Mirrors index (s.owes crypto) :=
      h.mirrors.of_listed fun d => by rw [hlisted]
    have hnew : ¬ s.owes crypto key (accountDigest crypto account) := fun howes =>
      hnot ((h.mirrors.mem_iff _ _).mpr howes)
    obtain ⟨index', happend, happended⟩ :=
      appendAccountOrigin_spec (s := { s with accountIndex := index }) hmirrors hroom hnew
    simp only [reindex, if_true, happend]
    cases he : s.entries.lookup key with
    | none =>
      have hsame : ({ s with accountIndex := index' } : Store).retireAccount crypto account key =
          { s with accountIndex := index' } := by
        simp only [retireAccount, he]
      rw [hsame]
      refine ⟨h.sound, happended.congr fun k d => ?_⟩
      by_cases hk : k = key
      · subst hk
        simp [owes_none h0 he]
      · simp [hk]
    | some old =>
      have hfold : eqlIgnoreCase old.account account = false := by
        rw [← Bool.not_eq_true, eqlIgnoreCase_iff]
        exact fun heq => hnew ((h.owes_entry he).mpr (congrArg crypto.blake3 heq))
      obtain ⟨index'', hremove, hremoved⟩ :=
        removeAccountOrigin_spec (s := { s with accountIndex := index' }) crypto old.account
          key happended
          (.inl ((h.owes_entry he).mpr rfl))
      have hretire : ({ s with accountIndex := index' } : Store).retireAccount crypto account key =
          { s with accountIndex := index'' } := by
        simp only [retireAccount, he, hfold, Bool.not_false, if_true]
        exact hremove
      rw [hretire]
      refine ⟨h.sound, hremoved.congr fun k d => ?_⟩
      by_cases hk : k = key
      · subst hk
        have hne : accountDigest crypto account ≠ accountDigest crypto old.account :=
          fun heq => hnew ((h.owes_entry he).mpr heq.symm)
        rw [h.owes_entry he]
        constructor
        · rintro (⟨hself, -⟩ | ⟨-, rfl⟩)
          · exact absurd rfl hself
          · exact ⟨.inr ⟨rfl, rfl⟩, fun hboth => hne hboth.2⟩
        · rintro ⟨hd | hd, hne'⟩
          · exact absurd ⟨rfl, hd.symm⟩ hne'
          · exact .inr hd
      · simp [hk]

theorem dropEntry_books (key : OriginKey) (h : Books crypto accounts s) :
    Books crypto accounts (s.dropEntry crypto key) := by
  unfold dropEntry
  split
  · next removed he =>
    obtain ⟨index, hremove, hmirrors⟩ :=
      removeAccountOrigin_spec (s :=
        { s with entries := s.entries.erase key }) crypto removed.account key
        h.mirrors ((h.owes_entry he).mpr rfl)
    rw [hremove]
    have hlookup := lookup_erase_eq s.entries key
    constructor
    case sound => exact h.sound
    case soft => exact h.soft
    case origin =>
      intro k e hk
      change (s.entries.erase key).lookup k = some e at hk
      rw [hlookup] at hk
      split_ifs at hk
      · exact h.origin k e hk
    case folded =>
      intro k e hk
      change (s.entries.erase key).lookup k = some e at hk
      rw [hlookup] at hk
      split_ifs at hk
      · exact h.folded k e hk
    case apart =>
      intro k hk
      change (s.entries.erase key).lookup k = none
      rw [hlookup]
      split
      · rfl
      · exact h.apart k hk
    case mirrors =>
      refine hmirrors.congr fun k d => ?_
      by_cases hkey : k = key
      · subst hkey
        rw [h.owes_entry he]
        refine iff_of_false (owes_none (h.origin k removed he) ?_) ?_
        · change (s.entries.erase k).lookup k = none
          rw [hlookup, if_pos rfl]
        · rintro ⟨hd, hne⟩
          exact hne ⟨rfl, hd.symm⟩
      · have hsame :
            (s.entries.erase key).lookup k = s.entries.lookup k := by rw [hlookup, if_neg hkey]
        simp only [owes, hsame, hkey, false_and, not_false_eq_true, and_true]
  · exact h

theorem dropEntries_books (keys : List OriginKey) (h : Books crypto accounts s) :
    Books crypto accounts (s.dropEntries crypto keys) := by
  induction keys generalizing s with
  | nil => exact h
  | cons key keys ih => exact ih (dropEntry_books key h)

theorem softAfter_eq (key : OriginKey)
    (h : s.softCappedTombstones = HashMap.countIf Tombstone.softCapped s.tombstones) :
    s.softAfter key = HashMap.countIf Tombstone.softCapped (s.tombstones.erase key) := by
  unfold softAfter
  split
  · next removed ht =>
    have hcount := countIf_erase_old (p := Tombstone.softCapped) ht
    rw [h]
    split
    · next hsoft =>
      rw [if_pos hsoft] at hcount
      omega
    · next hsoft =>
      rw [if_neg hsoft] at hcount
      omega
  · next hnone =>
    rw [h, countIf_erase_new hnone]

theorem dropTombstone_books (key : OriginKey) (h : Books crypto accounts s) :
    Books crypto accounts (s.dropTombstone key) := by
  rw [dropTombstone_eq]
  constructor
  case sound => exact h.sound
  case origin => exact h.origin
  case folded => exact h.folded
  case soft => exact softAfter_eq key h.soft
  case mirrors => exact h.mirrors
  case apart =>
    intro k hk
    change ((s.tombstones.erase key).lookup k).isSome at hk
    rw [lookup_erase_eq] at hk
    split at hk
    · cases hk
    · exact h.apart k hk

theorem dropTombstones_books (keys : List OriginKey) (h : Books crypto accounts s) :
    Books crypto accounts (s.dropTombstones keys) := by
  induction keys generalizing s with
  | nil => exact h
  | cons key keys ih => exact ih (dropTombstone_books key h)

theorem removeStateForToken_books (token : Token) (h : Books crypto accounts s) :
    Books crypto accounts (s.removeStateForToken crypto token) :=
  (dropTombstones_books _ (dropEntries_books _ h)).alike (.of_eq rfl rfl rfl rfl rfl rfl rfl)

theorem sweep_books (nowMs : Int64) (h : Books crypto accounts s) :
    Books crypto accounts (s.sweep crypto nowMs) := by
  have hentries : Books crypto accounts ((s.sweepQuarantines nowMs).sweepEntries crypto nowMs) := by
    have hfirst : Books crypto accounts (s.sweepQuarantines nowMs) :=
      h.alike (.of_eq rfl rfl rfl rfl rfl rfl rfl)
    unfold sweepEntries
    generalize (s.sweepQuarantines nowMs).expiredEntries nowMs = keys
    revert hfirst
    generalize s.sweepQuarantines nowMs = u
    intro hu
    induction keys generalizing u with
    | nil => exact hu
    | cons key keys ih =>
      exact ih _ ((dropEntry_books key hu).alike (.of_eq rfl rfl rfl rfl rfl rfl rfl))
  refine (dropTombstones_books _ ?_).alike (sweepMarkers_alike _ nowMs)
  exact hentries.alike (.of_eq rfl rfl rfl rfl rfl rfl rfl)

theorem Room.shrink (h : Room s) (hcfg : t.cfg = s.cfg)
    (hentries : HashMap.count t.entries ≤ HashMap.count s.entries)
    (htombstones : HashMap.count t.tombstones ≤ HashMap.count s.tombstones) : Room t := by
  obtain ⟨hfirst, hboth⟩ := h
  constructor
  · rw [hcfg]
    omega
  · rw [hcfg]
    omega

theorem count_eraseAll_le {ν : Type} (keys : List OriginKey) (m : HashMap OriginKey ν) :
    HashMap.count (HashMap.eraseAll keys m) ≤ HashMap.count m := by
  induction keys generalizing m with
  | nil => exact Nat.le_refl _
  | cons key keys ih => exact (ih (m.erase key)).trans (count_erase_le m key)

theorem removeStateForToken_room (token : Token) (h : Room s) :
    Room (s.removeStateForToken crypto token) := by
  obtain ⟨routes, soft, index, faulted, heq⟩ := removeStateForToken_frame crypto s token
  rw [heq]
  exact h.shrink rfl (count_eraseAll_le _ _) (count_eraseAll_le _ _)

theorem sweep_room (nowMs : Int64) (h : Room s) : Room (s.sweep crypto nowMs) := by
  obtain ⟨leases, routes, soft, index, faulted, heq⟩ := sweep_frame crypto s nowMs
  rw [heq]
  refine h.shrink rfl ?_ ?_
  · exact (count_mapValues _ _).le.trans (count_eraseAll_le _ _)
  · exact (count_mapValues _ _).le.trans (count_eraseAll_le _ _)

end Store

end OnyxServer.SessionReplica
