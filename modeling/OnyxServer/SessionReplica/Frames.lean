import OnyxServer.Lib.Index
import OnyxServer.SessionReplica.Runs

/-!
# What an operation leaves alone

Every operation as one equation: the rows it writes, and beside them only routes, the account
index and the fault flag. What the index holds afterwards is a question of its own.
-/
namespace OnyxServer.SessionReplica

open Lib Text HashMap Option

namespace Store

variable {crypto : Crypto} {s t : Store} {key : OriginKey} {token : Token} {account : Bytes}
variable {signed : SignedOffer} {viaPeer : NodeId} {nowMs : Int64} {alloc : Allocator}

section

variable (crypto : Crypto) (s : Store) (account : Bytes) (key : OriginKey)

theorem removeAccountOrigin_frame :
    ∃ index faulted, s.removeAccountOrigin crypto account key =
      { s with accountIndex := index, faulted := faulted } := by
  simp only [removeAccountOrigin]
  split
  · exact ⟨_, _, rfl⟩
  split
  · exact ⟨_, _, rfl⟩
  · split
    · exact ⟨_, _, rfl⟩
    · exact ⟨_, _, rfl⟩

theorem appendAccountOrigin_frame :
    ∃ index faulted, s.appendAccountOrigin crypto account key =
      { s with accountIndex := index, faulted := faulted } := by
  simp only [appendAccountOrigin]
  split
  · exact ⟨_, _, rfl⟩
  · exact ⟨_, _, rfl⟩

theorem retireAccount_frame :
    ∃ index faulted, s.retireAccount crypto account key =
      { s with accountIndex := index, faulted := faulted } := by
  unfold retireAccount
  split
  · split
    · exact removeAccountOrigin_frame crypto s _ key
    · exact ⟨_, _, rfl⟩
  · exact ⟨_, _, rfl⟩

end

/-- Room in a bucket: either the key is there already, or only an empty bucket may be new. -/
theorem reserveAccountOrigin_some {added : Bool} {reserved : Store}
    (h : s.reserveAccountOrigin crypto account key alloc = some (added, reserved)) :
    (added = false ∧ reserved = s ∧ key ∈ listed s.accountIndex (accountDigest crypto account)) ∨
    (added = true ∧ key ∉ listed s.accountIndex (accountDigest crypto account) ∧
      ∃ index, reserved = { s with accountIndex := index } ∧
        (∀ d, listed index d = listed s.accountIndex d) ∧
        (index.lookup (accountDigest crypto account)).isSome) := by
  simp only [reserveAccountOrigin] at h
  split at h
  · next bucket hbucket =>
    have hlisted := listed_some hbucket
    split at h
    · next hin =>
      cases h
      exact .inl ⟨rfl, rfl, hlisted ▸ hin⟩
    · next hnew =>
      split_ifs at h
      · cases h
        exact .inr ⟨rfl, hlisted ▸ hnew, s.accountIndex, rfl, fun _ => rfl, by rw [hbucket]; rfl⟩
  · next hbucket =>
    have hlisted := listed_none hbucket
    split_ifs at h
    cases h
    refine .inr ⟨rfl, by rw [hlisted]; exact List.not_mem_nil, _, rfl, fun d => ?_, ?_⟩
    · rw [listed_insert]
      split
      · next hd => rw [hd, hlisted]
      · rfl
    · rw [lookup_insert_eq, if_pos rfl]
      rfl

theorem reserveAccountOrigin_frame {added : Bool} {reserved : Store}
    (h : s.reserveAccountOrigin crypto account key alloc = some (added, reserved)) :
    ∃ index, reserved = { s with accountIndex := index } := by
  rcases reserveAccountOrigin_some h with ⟨-, hreserved, -⟩ | ⟨-, -, index, hreserved, -⟩
  · exact ⟨s.accountIndex, hreserved⟩
  · exact ⟨index, hreserved⟩

theorem dropEntry_frame (crypto : Crypto) (s : Store) (key : OriginKey) :
    ∃ index faulted, s.dropEntry crypto key =
      { s with entries := s.entries.erase key, accountIndex := index, faulted := faulted } := by
  unfold dropEntry
  split
  · exact removeAccountOrigin_frame crypto _ _ key
  · next hnone =>
    refine ⟨s.accountIndex, s.faulted, ?_⟩
    rw [erase_of_none hnone]

theorem dropEntries_frame (crypto : Crypto) (s : Store) (keys : List OriginKey) :
    ∃ index faulted, s.dropEntries crypto keys =
      { s with entries := HashMap.eraseAll keys s.entries, accountIndex := index, faulted :=
        faulted } := by
  induction keys generalizing s with
  | nil => exact ⟨_, _, rfl⟩
  | cons key keys ih =>
    obtain ⟨index, faulted, hfirst⟩ := dropEntry_frame crypto s key
    obtain ⟨index', faulted', hrest⟩ := ih (s.dropEntry crypto key)
    refine ⟨index', faulted', hrest.trans ?_⟩
    rw [hfirst]
    rfl

/-- What is left of the soft count. -/
def softAfter (s : Store) (key : OriginKey) : Nat :=
  match s.tombstones.lookup key with
  | some removed => if removed.softCapped then s.softCappedTombstones - 1
      else s.softCappedTombstones
  | none => s.softCappedTombstones

theorem dropTombstone_eq (s : Store) (key : OriginKey) :
    s.dropTombstone key =
      { s with tombstones := s.tombstones.erase key, softCappedTombstones := s.softAfter key } := by
  cases h : s.tombstones.lookup key with
  | some removed => simp only [dropTombstone, softAfter, h]
  | none =>
    simp only [dropTombstone, softAfter, h]
    rw [erase_of_none h]

theorem dropTombstones_frame (s : Store) (keys : List OriginKey) :
    ∃ soft, s.dropTombstones keys =
      { s with tombstones := HashMap.eraseAll keys s.tombstones, softCappedTombstones :=
        soft } := by
  induction keys generalizing s with
  | nil => exact ⟨_, rfl⟩
  | cons key keys ih =>
    obtain ⟨soft, hrest⟩ := ih (s.dropTombstone key)
    refine ⟨soft, hrest.trans ?_⟩
    rw [dropTombstone_eq]
    rfl

theorem lookup_dropToken {ν : Type} (token : Token) (m : HashMap OriginKey ν) (key : OriginKey) :
    (HashMap.eraseAll (ofToken token m) m).lookup key = if key.token = token then none
      else m.lookup key := by
  rw [lookup_eraseAll]
  by_cases htoken : key.token = token
  · rw [if_pos htoken]
    split
    · rfl
    rename_i hout
    refine Option.not_isSome_iff_eq_none.mp fun hin => hout ?_
    rw [ofToken, List.mem_filter, mem_keys_iff]
    exact ⟨hin, by simpa using htoken⟩
  · rw [if_neg htoken, if_neg]
    rw [ofToken, List.mem_filter]
    simp [htoken]

theorem of_lookup_dropToken {ν : Type} {token : Token} {m : HashMap OriginKey ν}
    {key : OriginKey} {row : ν}
    (h : (HashMap.eraseAll (ofToken token m) m).lookup key = some row) :
    m.lookup key = some row := by
  rw [lookup_dropToken] at h
  split_ifs at h
  · exact h

theorem removeStateForToken_frame (crypto : Crypto) (s : Store) (token : Token) :
    ∃ routes soft index faulted, s.removeStateForToken crypto token =
      { s with
        entries := HashMap.eraseAll (ofToken token s.entries) s.entries
        tombstones := HashMap.eraseAll (ofToken token s.tombstones) s.tombstones
        routes := routes, softCappedTombstones := soft, accountIndex := index, faulted :=
          faulted } := by
  obtain ⟨index, faulted, hentries⟩ := dropEntries_frame crypto s (ofToken token s.entries)
  unfold removeStateForToken
  simp only [hentries]
  obtain ⟨soft, htombstones⟩ := dropTombstones_frame
    { s with
      entries := HashMap.eraseAll (ofToken token s.entries) s.entries
      accountIndex := index, faulted := faulted } (ofToken token s.tombstones)
  rw [htombstones]
  exact ⟨_, soft, index, faulted, rfl⟩

theorem reindex_frame (crypto : Crypto) (s : Store) (added : Bool) (account : Bytes)
    (key : OriginKey) :
    ∃ index faulted, s.reindex crypto added account key =
      { s with accountIndex := index, faulted := faulted } := by
  unfold reindex
  cases added with
  | false => exact retireAccount_frame crypto s account key
  | true =>
    obtain ⟨index, faulted, happend⟩ := appendAccountOrigin_frame crypto s account key
    obtain ⟨index', faulted', hretire⟩ :=
      retireAccount_frame crypto { s with accountIndex := index, faulted := faulted } account key
    refine ⟨index', faulted', ?_⟩
    simp only [if_true, happend]
    exact hretire

/-- Whether an OFFER finds room. -/
def admitsEntry (s : Store) (key : OriginKey) : Bool :=
  admitNewEntry {
    entries := HashMap.count s.entries
    tombstones := HashMap.count s.tombstones
    replacingEntry := (s.entries.lookup key).isSome
    convertingTombstone := !(s.entries.lookup key).isSome && (s.tombstones.lookup key).isSome }
    s.cfg.retention

/-- Whether a REVOKE finds room. -/
def admitsTombstone (s : Store) (key : OriginKey) : Bool :=
  admitTombstone {
    entries := HashMap.count s.entries
    tombstones := HashMap.count s.tombstones
    softCappedTombstones := s.softCappedTombstones
    replacing := (s.tombstones.lookup key).isSome
    convertingLiveEntry := (s.entries.lookup key).isSome } s.cfg.retention

/-- An OFFER is refused with nothing changed, or it takes the row of its origin. -/
theorem installUpsert_cases (crypto : Crypto) (s : Store) (signed : SignedOffer) (viaPeer : NodeId)
    (nowMs : Int64) (alloc : Allocator) :
    (∃ e, e.pressure = true ∧ e ≠ .tombstoneFull ∧
      s.installUpsert crypto signed viaPeer nowMs alloc = (.error e, s)) ∨
    (s.admitsEntry signed.offer.key = true ∧ ∃ added reserved routes room,
      s.reserveAccountOrigin crypto signed.offer.account signed.offer.key room =
        some (added, reserved) ∧
      s.installUpsert crypto signed viaPeer nowMs alloc = (.ok (), { s with
        entries := s.entries.insert signed.offer.key (s.offeredEntry signed viaPeer nowMs)
        tombstones := s.tombstones.erase signed.offer.key
        softCappedTombstones := s.softAfter signed.offer.key
        routes := routes
        accountIndex :=
          (reserved.reindex crypto added signed.offer.account signed.offer.key).accountIndex
        faulted :=
          (reserved.reindex crypto added signed.offer.account signed.offer.key).faulted })) := by
  simp only [installUpsert]
  split
  · exact .inl ⟨.entryFull, rfl, nofun, rfl⟩
  rename_i hadmits
  split
  · exact .inl ⟨.routeFull, rfl, nofun, rfl⟩
  split
  · exact .inl ⟨.outOfMemory, rfl, nofun, rfl⟩
  split
  · exact .inl ⟨.outOfMemory, rfl, nofun, rfl⟩
  split
  · exact .inl ⟨.outOfMemory, rfl, nofun, rfl⟩
  split
  · exact .inl ⟨.outOfMemory, rfl, nofun, rfl⟩
  rename_i added reserved hreserve
  refine .inr ⟨by simpa [admitsEntry] using hadmits, added, reserved, ?_⟩
  obtain ⟨index, hreserved⟩ := reserveAccountOrigin_frame hreserve
  obtain ⟨index', faulted', hindexed⟩ :=
    reindex_frame crypto reserved added signed.offer.account signed.offer.key
  rw [hindexed, hreserved]
  split
  · exact ⟨_, _, hreserved ▸ hreserve, by rw [dropTombstone_eq]; rfl⟩
  · exact ⟨_, _, hreserved ▸ hreserve, by rw [dropTombstone_eq]; rfl⟩

/-- What the soft count becomes with the tombstone of a REVOKE. -/
def softRevoked (s : Store) (key : OriginKey) : Nat :=
  if !(s.tombstones.lookup key).isSome && s.tombstoneSoftCapped key then s.softCappedTombstones + 1
  else s.softCappedTombstones

/-- A REVOKE is refused with nothing changed, or it takes the row of its origin. -/
theorem installTombstone_cases (crypto : Crypto) (s : Store) (signed : SignedOffer) (nowMs : Int64)
    (alloc : Allocator) :
    (∃ e, e.pressure = true ∧ (e = .tombstoneFull → s.admitsTombstone signed.offer.key = false) ∧
      s.installTombstone crypto signed nowMs alloc = (.error e, s)) ∨
    (s.admitsTombstone signed.offer.key = true ∧ ∃ routes,
      s.installTombstone crypto signed nowMs alloc = (.ok (), { s with
        entries := s.entries.erase signed.offer.key
        tombstones := s.tombstones.insert signed.offer.key (s.revokedTombstone crypto signed nowMs)
        softCappedTombstones := s.softRevoked signed.offer.key
        routes := routes
        accountIndex := (s.dropEntry crypto signed.offer.key).accountIndex
        faulted := (s.dropEntry crypto signed.offer.key).faulted })) := by
  simp only [installTombstone]
  split
  · next hadmits => exact .inl ⟨_, rfl, fun _ => by simpa [admitsTombstone] using hadmits, rfl⟩
  rename_i hadmits
  split
  · exact .inl ⟨.outOfMemory, rfl, nofun, rfl⟩
  split
  · exact .inl ⟨.outOfMemory, rfl, nofun, rfl⟩
  refine .inr ⟨by simpa [admitsTombstone] using hadmits, ?_⟩
  obtain ⟨index, faulted, hdrop⟩ := dropEntry_frame crypto s signed.offer.key
  rw [hdrop]
  exact ⟨_, rfl⟩

theorem sweepEntries_frame (crypto : Crypto) (s : Store) (nowMs : Int64) :
    ∃ routes index faulted, s.sweepEntries crypto nowMs =
      { s with
        entries := HashMap.eraseAll (s.expiredEntries nowMs) s.entries
        routes := routes, accountIndex := index, faulted := faulted } := by
  unfold sweepEntries
  generalize s.expiredEntries nowMs = keys
  induction keys generalizing s with
  | nil => exact ⟨_, _, _, rfl⟩
  | cons key keys ih =>
    obtain ⟨index, faulted, hdrop⟩ := dropEntry_frame crypto s key
    obtain ⟨routes, index', faulted', hrest⟩ :=
      ih ((s.dropEntry crypto key).removeRoutesForOrigin key)
    refine ⟨routes, index', faulted', hrest.trans ?_⟩
    rw [hdrop]
    rfl

/-- What passes a test stays, when every key of a row that fails it is erased. -/
theorem lookup_eraseFailing {ν : Type} (m : HashMap OriginKey ν) (p : ν → Bool) (key : OriginKey) :
    (HashMap.eraseAll ((m.entries.filter fun slot => p slot.2).map (·.1)) m).lookup key =
      (m.lookup key).filter fun v => !p v := by
  rw [lookup_eraseAll]
  cases h : m.lookup key with
  | none => rw [ite_self, Option.filter_none]
  | some v =>
    have hmem := HashMap.mem_entries.mpr h
    have honly : ∀ w, (⟨key, w⟩ : Sigma fun _ : OriginKey => ν) ∈ m.entries → w = v := by
      intro w hw
      rw [HashMap.mem_entries, h] at hw
      exact (some.inj hw).symm
    by_cases hp : p v = true
    · rw [if_pos, Option.filter_some, if_neg]
      · simpa using hp
      · exact List.mem_map.mpr ⟨⟨key, v⟩, List.mem_filter.mpr ⟨hmem, hp⟩, rfl⟩
    rw [if_neg, Option.filter_some, if_pos]
    · simpa using hp
    · intro hin
      obtain ⟨⟨k, w⟩, hw, rfl⟩ := List.mem_map.mp hin
      obtain ⟨hw, hpw⟩ := List.mem_filter.mp hw
      exact hp (honly w hw ▸ hpw)

section

variable (crypto : Crypto) (s : Store) (nowMs : Int64)

theorem sweep_frame :
    ∃ leases routes soft index faulted, s.sweep crypto nowMs =
      { s with
        quarantines := (s.sweepQuarantines nowMs).quarantines
        entries := HashMap.mapValues (fun _ => clearEntry nowMs)
          (HashMap.eraseAll (s.expiredEntries nowMs) s.entries)
        tombstones := HashMap.mapValues (fun _ => clearTombstone nowMs)
          (HashMap.eraseAll (s.matureTombstones nowMs) s.tombstones)
        attachmentLeases := leases, routes := routes, softCappedTombstones := soft
        accountIndex := index, faulted := faulted } := by
  obtain ⟨routes, index, faulted, hentries⟩ :=
    sweepEntries_frame crypto (s.sweepQuarantines nowMs) nowMs
  unfold sweep
  simp only [hentries]
  obtain ⟨soft, htombstones⟩ := dropTombstones_frame
    ((({ s.sweepQuarantines nowMs with
      entries := HashMap.eraseAll (s.expiredEntries nowMs) s.entries
      routes := routes, accountIndex := index, faulted := faulted } : Store).sweepLeases
      nowMs).sweepRoutes nowMs)
    (s.matureTombstones nowMs)
  exact ⟨_, _, soft, index, faulted, congrArg (fun t => t.sweepMarkers nowMs) htombstones⟩

theorem lookup_sweep_entries (key : OriginKey) :
    (s.sweep crypto nowMs).entries.lookup key =
      ((s.entries.lookup key).filter fun e => !decide (e.expiresAtMs < nowMs)).map
        (clearEntry nowMs) := by
  obtain ⟨leases, routes, soft, index, faulted, h⟩ := sweep_frame crypto s nowMs
  rw [h, lookup_mapValues]
  exact congrArg _ (lookup_eraseFailing s.entries (fun e => decide (e.expiresAtMs < nowMs)) key)

theorem lookup_sweep_tombstones (key : OriginKey) :
    (s.sweep crypto nowMs).tombstones.lookup key =
      ((s.tombstones.lookup key).filter fun t => tombstoneRetained nowMs t.retainUntilMs).map
        (clearTombstone nowMs) := by
  obtain ⟨leases, routes, soft, index, faulted, h⟩ := sweep_frame crypto s nowMs
  rw [h, lookup_mapValues]
  refine (congrArg _ (lookup_eraseFailing s.tombstones
    (fun t => !tombstoneRetained nowMs t.retainUntilMs) key)).trans ?_
  simp only [Bool.not_not]

theorem lookup_sweep_quarantines (token : Token) :
    (s.sweep crypto nowMs).quarantines.lookup token =
      (s.quarantines.lookup token).filter fun q => !decide (q.expiresAtMs < nowMs) := by
  obtain ⟨leases, routes, soft, index, faulted, h⟩ := sweep_frame crypto s nowMs
  rw [h]
  exact lookup_keep _ _ _

theorem lookup_sweep_leases (key : OriginKey) :
    (s.sweep crypto nowMs).attachmentLeases.lookup key =
      (s.attachmentLeases.lookup key).filter fun lease =>
      !(decide (lease.replayUntilMs s.cfg < nowMs) &&
        !((s.sweepQuarantines nowMs).sweepEntries crypto nowMs).positiveLeaseCoversUnexpiredOffer
          key lease nowMs) := by
  have hdrop : ∀ (keys : List OriginKey) (s : Store), (s.dropTombstones keys).attachmentLeases =
      s.attachmentLeases := by
    intro keys s
    obtain ⟨soft, h⟩ := dropTombstones_frame s keys
    rw [h]
  have hleases : (s.sweep crypto nowMs).attachmentLeases =
      (((s.sweepQuarantines nowMs).sweepEntries crypto nowMs).sweepLeases nowMs).attachmentLeases :=
        hdrop _ _
  obtain ⟨routes, index, faulted, hentries⟩ :=
    sweepEntries_frame crypto (s.sweepQuarantines nowMs) nowMs
  rw [hleases, sweepLeases, lookup_keep]
  simp only [hentries]
  rfl

theorem sweep_groupRevocations :
    (s.sweep crypto nowMs).groupRevocations = s.groupRevocations := by
  obtain ⟨leases, routes, soft, index, faulted, h⟩ := sweep_frame crypto s nowMs
  rw [h]

theorem sweep_cfg : (s.sweep crypto nowMs).cfg = s.cfg := by
  obtain ⟨leases, routes, soft, index, faulted, h⟩ := sweep_frame crypto s nowMs
  rw [h]

end

end Store

end OnyxServer.SessionReplica
