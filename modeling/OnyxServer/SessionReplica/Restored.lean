import OnyxServer.SessionReplica.KeptSteps
import OnyxServer.SessionReplica.Restoring

/-!
# What a store is restored to

A restore of the store's own image leaves the same rows. What the image does not hold is
computed again: the high-water marks of an entry start over, the horizon of a tombstone is
the latest that any authority it could have removed may have.
-/
namespace OnyxServer.SessionReplica

open Lib Text HashMap AList Option

def Entry.restored (self : Entry) : Entry where
  wire := self.wire
  updatedAtMs := self.updatedAtMs
  ingressPeer := none
  quarantineUntilMs := self.quarantineUntilMs
  authorityIssuedHwmMs := Int64.minValue
  authorityExpiresHwmMs := Int64.minValue

def Tombstone.restored (cfg : Config) (self : Tombstone) : Tombstone where
  wire := self.wire
  removedAtMs := self.removedAtMs
  retainUntilMs := tombstoneRetainUntil self.removedAtMs self.offerExpiresAtMs
    (some (acceptedAuthorityHorizon self.removedAtMs cfg.retention)) cfg.tombstoneTtlMs
  identityDigest := self.identityDigest
  quarantineUntilMs := self.quarantineUntilMs
  softCapped := self.identityDigest.isNone

theorem Entry.restored_highWater (e : Entry) :
    e.restored.authorityExpiresHighWater = e.expiresAtMs :=
  max_eq_left (Int64.minValue_le e.expiresAtMs)

namespace Store

open CheckpointReader

variable {crypto : Crypto} {cfg : Config} {clock capturedAtMs restoreNowMs : Int64} {s t u : Store}
    {alloc : Allocator}

theorem checkWire_ok {wire wire' : Bytes} (h : checkWire wire = .ok wire') : wire' = wire := by
  unfold checkWire at h
  split_ifs at h
  · exact (Except.ok.inj h).symm

theorem validateCheckpointSignedOffer_own {operation : OfferOperation}
    {signed signed' : SignedOffer}
    (h : s.validateCheckpointSignedOffer crypto signed.wire operation capturedAtMs = .ok signed') :
    signed' = signed := by
  have hdecoded := (validateCheckpointSignedOffer_decodes h).1
  rw [decodeOffer_wire] at hdecoded
  exact (Except.ok.inj hdecoded).symm

theorem putEntry_ok {e : Entry} (h : putEntry crypto capturedAtMs alloc s e = .ok t) :
    ∃ index faulted, t = { s with
      entries := s.entries.insert e.wire.offer.key e.restored, accountIndex := index, faulted :=
        faulted } := by
  obtain ⟨wire, hwire, h⟩ := bind_ok h
  obtain rfl := checkWire_ok hwire
  simp only [restoreCheckpointEntry] at h
  split at h
  · cases h
  rename_i signed hsigned
  obtain rfl := validateCheckpointSignedOffer_own hsigned
  iterate 3
    split at h
    · cases h
  split at h
  · cases h
  · cases h
  · next reserved hreserve =>
    obtain ⟨index, rfl⟩ := reserveAccountOrigin_frame hreserve
    obtain ⟨index', faulted, happend⟩ :=
      appendAccountOrigin_frame crypto { s with accountIndex := index }
      e.wire.offer.account e.wire.offer.key
    rw [happend] at h
    exact ⟨index', faulted, (Except.ok.inj h).symm⟩

theorem putTombstone_ok {tomb : Tombstone}
    (h : putTombstone crypto capturedAtMs alloc s tomb = .ok t) :
    ∃ soft, t = { s with
      tombstones := s.tombstones.insert tomb.wire.offer.key (tomb.restored s.cfg),
        softCappedTombstones := soft } := by
  obtain ⟨wire, hwire, h⟩ := bind_ok h
  obtain rfl := checkWire_ok hwire
  simp only [restoreCheckpointTombstone] at h
  split at h
  · cases h
  rename_i signed hsigned
  obtain rfl := validateCheckpointSignedOffer_own hsigned
  iterate 4
    split at h
    · cases h
  exact ⟨_, (Except.ok.inj h).symm⟩

theorem putQuarantine_ok {q : Quarantine}
    (h : putQuarantine crypto capturedAtMs alloc s q = .ok t) :
    t = { s with quarantines := s.quarantines.insert q.firstWire.offer.token q } := by
  obtain ⟨firstWire, hfirst, h⟩ := bind_ok h
  obtain ⟨secondWire, hsecond, h⟩ := bind_ok h
  obtain rfl := checkWire_ok hfirst
  obtain rfl := checkWire_ok hsecond
  simp only [restoreCheckpointQuarantine] at h
  split at h
  · cases h
  rename_i first hfirst
  obtain rfl := validateCheckpointSignedOffer_own hfirst
  split at h
  · cases h
  rename_i second hsecond
  obtain rfl := validateCheckpointSignedOffer_own hsecond
  iterate 5
    split at h
    · cases h
  exact (Except.ok.inj h).symm

theorem verifiedLease_own {signed signed' : SignedAttachmentLease}
    (h : verifiedLease crypto signed.wire = .ok signed') :
    signed' = signed := by
  unfold verifiedLease at h
  rw [decodeAttachmentLease_wire] at h
  simp only at h
  split at h
  · cases h
  · exact (Except.ok.inj h).symm

theorem checkConflict_ok {l : AttachmentLeaseEntry} {conflict : Bool × Option Bytes}
    (htag : ∀ m, l.conflictWire = some m → l.conflicted = true)
    (h : checkConflict l = .ok conflict) :
    conflict = (l.conflicted, l.conflictWire.map SignedAttachmentLease.wire) := by
  unfold checkConflict at h
  split at h
  · next m hm =>
    obtain ⟨wire, hwire, hconflict⟩ := bind_ok h
    obtain rfl := checkWire_ok hwire
    rw [← Except.ok.inj hconflict, htag m hm, hm]
    rfl
  · next hnone =>
    rw [← Except.ok.inj h, hnone]
    rfl

theorem validateCheckpointConflict_own {signed : SignedAttachmentLease} {conflicted : Bool}
    {witness witness' : Option SignedAttachmentLease}
    (h : s.validateCheckpointConflict crypto signed conflicted capturedAtMs
      (witness.map SignedAttachmentLease.wire) = .ok witness') : witness' = witness := by
  cases witness with
  | none => exact (Except.ok.inj h).symm
  | some m =>
    simp only [map_some, validateCheckpointConflict] at h
    split at h
    · cases h
    split at h
    · cases h
    rename_i candidate hcandidate
    obtain rfl := verifiedLease_own hcandidate
    split_ifs at h
    · exact (Except.ok.inj h).symm

theorem putAttachmentLease_ok {l : AttachmentLeaseEntry}
    (htag : ∀ m, l.conflictWire = some m → l.conflicted = true)
    (h : putAttachmentLease crypto capturedAtMs alloc s l = .ok t) :
    t = { s with attachmentLeases := s.attachmentLeases.insert l.wire.lease.key l } := by
  obtain ⟨wire, hwire, h⟩ := bind_ok h
  obtain ⟨conflict, hconflict, h⟩ := bind_ok h
  obtain rfl := checkWire_ok hwire
  obtain rfl := checkConflict_ok htag hconflict
  simp only [restoreCheckpointAttachmentLease] at h
  split at h
  · cases h
  rename_i signed hsigned
  obtain rfl := verifiedLease_own hsigned
  split at h
  · cases h
  split at h
  · cases h
  rename_i witness hwitness
  obtain rfl := validateCheckpointConflict_own hwitness
  iterate 2
    split at h
    · cases h
  exact (Except.ok.inj h).symm

/-- A fence of the image takes no rows away: there are none of its token. -/
theorem putGroup_ok {g : GroupRevocation} (h : putGroup crypto capturedAtMs alloc s g = .ok t) :
    t.cfg = s.cfg ∧ (∀ k, t.entries.lookup k = s.entries.lookup k) ∧
      (∀ k, t.tombstones.lookup k = s.tombstones.lookup k) ∧ t.quarantines = s.quarantines ∧
      (∀ k, t.attachmentLeases.lookup k = s.attachmentLeases.lookup k) ∧
      t.groupRevocations = s.groupRevocations.insert g.wire.offer.token g := by
  obtain ⟨wire, hwire, h⟩ := bind_ok h
  obtain rfl := checkWire_ok hwire
  simp only [restoreCheckpointGroup] at h
  split at h
  · cases h
  rename_i signed hsigned
  obtain rfl := validateCheckpointSignedOffer_own hsigned
  split_ifs at h with hstate hleases
  simp only [not_or, isGroupRevoked, hasAnyCheckpointState, Bool.or_eq_true, List.any_eq_true,
    tokenEql_iff, not_exists, not_and] at hstate hleases
  obtain ⟨hnew, ⟨hentries, htombstones⟩, -⟩ := hstate
  rcases prepareGroupRevoke_cases crypto s g.wire capturedAtMs alloc with
    ⟨e, heq, -⟩ | ⟨old, hold, heq⟩ | ⟨added, reserved, room, -, -, -, -, -, -, -, hreserve, heq⟩
  · rw [heq] at h
    cases e <;> cases h
  · rw [hold] at hnew
    exact absurd rfl hnew
  · rw [heq] at h
    obtain ⟨index, rfl⟩ := reserveAccountOrigin_frame hreserve
    obtain ⟨routes, soft, index', faulted, hcommit⟩ :=
      commitGroupRevoke_frame crypto { s with accountIndex := index } g.wire.offer.token g.wire
    simp only [hcommit] at h
    rw [← Except.ok.inj h]
    refine ⟨rfl, fun k => ?_, fun k => ?_, rfl, fun k => ?_, rfl⟩
    · rw [lookup_dropToken]
      split
      · next hk =>
        refine (not_isSome_iff_eq_none.mp fun hin => ?_).symm
        exact hentries k (mem_keys_iff.mpr hin) hk
      · rfl
    · rw [lookup_dropToken]
      split
      · next hk =>
        refine (not_isSome_iff_eq_none.mp fun hin => ?_).symm
        exact htombstones k (mem_keys_iff.mpr hin) hk
      · rfl
    · rw [lookup_keep]
      cases hl : s.attachmentLeases.lookup k with
      | none => rfl
      | some l =>
        have hk : k.token ≠ g.wire.offer.token :=
          hleases k (mem_keys_iff.mpr (by rw [hl]; rfl))
        rw [filter_some, if_pos (by rw [tokenEql, decide_eq_false hk]; rfl)]

/-- A table that takes each row under its key holds them all in the end. -/
theorem putRows_lookup {κ ρ ν : Type} [DecidableEq κ] {P : Store → Prop}
    (table : Store → HashMap κ ν) (value : ρ → ν)
    {put : Nat → Store → (Sigma fun _ : κ => ρ) → Except UpgradeCheckpointError Store}
    {rows : HashMap κ ρ} {n : Nat}
    (hput : ∀ n self slot next, slot ∈ rows.entries → P self → put n self slot = .ok next → P next ∧
      ∀ k, (table next).lookup k = if k = slot.1 then some (value slot.2)
        else (table self).lookup k) (hs : P s) (h : putRows put rows.entries n s = .ok t) :
    P t ∧ ∀ k, (table t).lookup k = ((rows.lookup k).map value).or ((table s).lookup k) := by
  have hnodup := rows.nodupKeys
  unfold AList.lookup
  revert hput h hnodup
  generalize rows.entries = slots
  intro hput h hnodup
  induction slots generalizing n s with
  | nil =>
    cases h
    exact ⟨hs, fun _ => rfl⟩
  | cons slot slots ih =>
    obtain ⟨mid, hfirst, hrest⟩ := bind_ok h
    obtain ⟨hnew, hnodup⟩ := List.nodupKeys_cons.mp hnodup
    obtain ⟨hmid, hlookup⟩ := hput n s slot mid List.mem_cons_self hs hfirst
    obtain ⟨hend, hall⟩ :=
      ih hmid (fun n self slot next hslot => hput n self slot next (List.mem_cons_of_mem _ hslot))
      hrest hnodup
    refine ⟨hend, fun k => ?_⟩
    have hk := hlookup k
    unfold AList.lookup at hk
    rw [hall, hk]
    by_cases hsame : k = slot.1
    · subst hsame
      rw [if_pos rfl, List.dlookup_eq_none.mpr hnew, List.dlookup_cons_eq]
      rfl
    · rw [if_neg hsame, List.dlookup_cons_ne _ _ hsame]

/-- What each table of a store answers. -/
structure Contents (cfg : Config) (entries : OriginKey → Option Entry)
    (tombstones : OriginKey → Option Tombstone)
    (quarantines : Token → Option Quarantine) (leases : OriginKey → Option AttachmentLeaseEntry)
    (groups : Token → Option GroupRevocation) (u : Store) : Prop where
  cfg : u.cfg = cfg
  entries : ∀ k, u.entries.lookup k = entries k
  tombstones : ∀ k, u.tombstones.lookup k = tombstones k
  quarantines : ∀ token, u.quarantines.lookup token = quarantines token
  leases : ∀ k, u.attachmentLeases.lookup k = leases k
  groups : ∀ token, u.groupRevocations.lookup token = groups token

/-- The rows of a restored store, before they are swept. -/
def RestoredTo (s u : Store) : Prop :=
  Contents s.cfg (fun k => (s.entries.lookup k).map Entry.restored)
    (fun k => (s.tombstones.lookup k).map (Tombstone.restored s.cfg))
      (fun token => s.quarantines.lookup token)
    (fun k => s.attachmentLeases.lookup k) (fun token => s.groupRevocations.lookup token) u

section Phases

variable {entries : OriginKey → Option Entry} {tombstones : OriginKey → Option Tombstone}
variable {quarantines : Token → Option Quarantine}
    {leases : OriginKey → Option AttachmentLeaseEntry}
variable {groups : Token → Option GroupRevocation} {v : Store} {n : Nat}

section

variable (h : Kept crypto clock s)
include h

theorem putEntries_contents
    (hv : Contents cfg (fun _ => none) tombstones quarantines leases groups v)
    (hput : putRows
      (fun n self slot => putEntry crypto capturedAtMs (recordSites alloc n) self slot.2)
      s.entries.entries n v = .ok u) :
    Contents cfg (fun k => (s.entries.lookup k).map Entry.restored) tombstones quarantines leases
      groups u := by
  obtain ⟨⟨rows, hu⟩, hlookup⟩ := putRows_lookup
    (P := fun u => ∃ rows, Contents cfg rows tombstones quarantines leases groups u)
    Store.entries Entry.restored (fun n self slot next hslot hself hone => by
      obtain ⟨rows, hself⟩ := hself
      obtain ⟨index, faulted, rfl⟩ := putEntry_ok hone
      rw [(h.entries slot.1 slot.2 (HashMap.mem_entries.mp hslot)).keyed]
      exact ⟨⟨_, { hself with entries := fun _ => rfl }⟩, fun k => lookup_insert_eq _ _ k _⟩)
      ⟨_, hv⟩ hput
  exact { hu with entries := fun k => by rw [hlookup, hv.entries, or_none] }

theorem putTombstones_contents
    (hv : Contents cfg entries (fun _ => none) quarantines leases groups v)
    (hput : putRows
      (fun n self slot => putTombstone crypto capturedAtMs (recordSites alloc n) self slot.2)
      s.tombstones.entries n v = .ok u) :
    Contents cfg entries (fun k => (s.tombstones.lookup k).map (Tombstone.restored cfg)) quarantines
      leases groups u := by
  obtain ⟨⟨rows, hu⟩, hlookup⟩ := putRows_lookup
    (P := fun u => ∃ rows, Contents cfg entries rows quarantines leases groups u)
    Store.tombstones (Tombstone.restored cfg) (fun n self slot next hslot hself hone => by
      obtain ⟨rows, hself⟩ := hself
      obtain ⟨soft, rfl⟩ := putTombstone_ok hone
      refine ⟨⟨_, { hself with tombstones := fun _ => rfl }⟩, fun k => ?_⟩
      rw [lookup_insert_eq, (h.tombstones slot.1 slot.2 (HashMap.mem_entries.mp hslot)).keyed,
      hself.cfg]) ⟨_, hv⟩ hput
  exact { hu with tombstones := fun k => by rw [hlookup, hv.tombstones, or_none] }

theorem putQuarantines_contents
    (hv : Contents cfg entries tombstones (fun _ => none) leases groups v)
    (hput : putRows
      (fun n self slot => putQuarantine crypto capturedAtMs (recordSites alloc n) self slot.2)
      s.quarantines.entries n v = .ok u) :
    Contents cfg entries tombstones (fun token => s.quarantines.lookup token) leases groups u := by
  obtain ⟨⟨rows, hu⟩, hlookup⟩ := putRows_lookup
    (P := fun u => ∃ rows, Contents cfg entries tombstones rows leases groups u)
    Store.quarantines id (fun n self slot next hslot hself hone => by
      obtain ⟨rows, hself⟩ := hself
      obtain rfl := putQuarantine_ok hone
      rw [(h.quarantines slot.1 slot.2 (HashMap.mem_entries.mp hslot)).first.2.2]
      exact ⟨⟨_, { hself with quarantines := fun _ => rfl }⟩, fun k => lookup_insert_eq _ _ k _⟩)
      ⟨_, hv⟩ hput
  refine { hu with quarantines := fun token => ?_ }
  rw [hlookup, hv.quarantines, or_none, map_id, id]

theorem putLeases_contents
    (hv : Contents cfg entries tombstones quarantines (fun _ => none) groups v)
    (hput : putRows
      (fun n self slot => putAttachmentLease crypto capturedAtMs (recordSites alloc n) self slot.2)
      s.attachmentLeases.entries n v = .ok u) :
    Contents cfg entries tombstones quarantines
      (fun k => s.attachmentLeases.lookup k) groups u := by
  obtain ⟨⟨rows, hu⟩, hlookup⟩ := putRows_lookup
    (P := fun u => ∃ rows, Contents cfg entries tombstones quarantines rows groups u)
    Store.attachmentLeases id (fun n self slot next hslot hself hone => by
      obtain ⟨rows, hself⟩ := hself
      have hkept := h.leases slot.1 slot.2 (HashMap.mem_entries.mp hslot)
      obtain rfl := putAttachmentLease_ok (fun m hm => (hkept.witness m hm).1) hone
      rw [hkept.keyed]
      exact ⟨⟨_, { hself with leases := fun _ => rfl }⟩, fun k => lookup_insert_eq _ _ k _⟩)
      ⟨_, hv⟩ hput
  exact { hu with leases := fun k => by rw [hlookup, hv.leases, or_none, map_id, id] }

theorem putGroups_contents
    (hv : Contents cfg entries tombstones quarantines leases (fun _ => none) v)
    (hput : putRows
      (fun n self slot => putGroup crypto capturedAtMs (recordSites alloc n) self slot.2)
      s.groupRevocations.entries n v = .ok u) :
    Contents cfg entries tombstones quarantines leases
      (fun token => s.groupRevocations.lookup token) u := by
  obtain ⟨⟨rows, hu⟩, hlookup⟩ := putRows_lookup
    (P := fun u => ∃ rows, Contents cfg entries tombstones quarantines leases rows u)
    Store.groupRevocations id (fun n self slot next hslot hself hone => by
      obtain ⟨rows, hself⟩ := hself
      obtain ⟨hcfg, hentries, htombstones, hquarantines, hleases, hgroups⟩ := putGroup_ok hone
      rw [(h.groups slot.1 slot.2 (HashMap.mem_entries.mp hslot)).keyed] at hgroups
      refine ⟨⟨fun token => next.groupRevocations.lookup token, ?_⟩, fun k => by
        rw [hgroups]
        exact lookup_insert_eq _ _ k _⟩
      exact {
        cfg := hcfg.trans hself.cfg
        entries := fun k => (hentries k).trans (hself.entries k)
        tombstones := fun k => (htombstones k).trans (hself.tombstones k)
        quarantines := fun token => by rw [hquarantines, hself.quarantines]
        leases := fun k => (hleases k).trans (hself.leases k)
        groups := fun _ => rfl }) ⟨_, hv⟩ hput
  exact { hu with groups := fun token => by rw [hlookup, hv.groups, or_none, map_id, id] }

end

end Phases

theorem Kept.tagged (h : Kept crypto clock s) : s.Tagged := by
  intro k l hl hwitness
  obtain ⟨m, hm⟩ := isSome_iff_exists.mp hwitness
  exact ((h.leases k l hl).witness m hm).1

theorem putRecords_restored (h : Kept crypto clock s)
    (hput : putRecords crypto s.cfg capturedAtMs alloc s = .ok u) : RestoredTo s u := by
  obtain ⟨u₁, hentries, hput⟩ := bind_ok hput
  obtain ⟨u₂, htombstones, hput⟩ := bind_ok hput
  obtain ⟨u₃, hquarantines, hput⟩ := bind_ok hput
  obtain ⟨u₄, hleases, hgroups⟩ := bind_ok hput
  have hstart :
      Contents s.cfg (fun _ => none) (fun _ => none) (fun _ => none) (fun _ => none) (fun _ => none)
      (initWithConfig s.cfg) :=
    ⟨rfl, lookup_empty, lookup_empty, lookup_empty, lookup_empty, lookup_empty⟩
  exact putGroups_contents h
    (putLeases_contents h (putQuarantines_contents h (putTombstones_contents h
    (putEntries_contents h hstart hentries) htombstones) hquarantines) hleases) hgroups

/-- A restore never brings a horizon forward. -/
theorem retained_restored {key : OriginKey} {tomb : Tombstone}
    (h : KeptTombstone crypto cfg clock key tomb) :
    tomb.retainUntilMs ≤ (tomb.restored cfg).retainUntilMs := by
  have hretained := h.retained
  unfold farthestMs at hretained
  rcases le_sup_iff.mp hretained with httl | haccepted
  · exact le_retainUntil_ttl httl
  · exact (le_saturateToI64 haccepted).trans le_retainUntil_superseded

theorem RestoredTo.kept (h : Kept crypto clock s) (hto : RestoredTo s u) : Kept crypto clock u where
  entries k e he := by
    rw [hto.entries] at he
    obtain ⟨old, hold, rfl⟩ := map_eq_some_iff.mp he
    obtain ⟨hkeyed, hoffer, hvouched, hupdated, -⟩ := h.entries k old hold
    rw [hto.cfg]
    refine ⟨hkeyed, hoffer, hvouched, hupdated, ?_⟩
    rw [old.restored_highWater]
    exact hvouched.expires_le
  tombstones k tomb htomb := by
    rw [hto.tombstones] at htomb
    obtain ⟨old, hold, rfl⟩ := map_eq_some_iff.mp htomb
    obtain ⟨hkeyed, hremove, hvouched, hremoved, halive, -, -⟩ := h.tombstones k old hold
    rw [hto.cfg]
    have hlow : minI64 ≤ farthestMs s.cfg old.removedAtMs :=
      (toInt_bounds _).1.trans clock_le_farthestMs
    refine ⟨hkeyed, hremove, hvouched, hremoved, halive, ?_, ?_⟩
    · refine retainUntil_le hlow (le_max_left _ _) hvouched.expires_le fun superseded hsuperseded =>
        ?_
      rw [← some.inj hsuperseded]
      exact toInt_saturateToI64_le hlow (le_max_right _ _)
    · intro hnone
      change old.identityDigest = none at hnone
      change old.identityDigest.isNone = true
      rw [hnone]
      rfl
  quarantines token q hq := by
    rw [hto.quarantines] at hq
    rw [hto.cfg]
    exact h.quarantines token q hq
  leases k l hl := by
    rw [hto.leases] at hl
    rw [hto.cfg]
    exact h.leases k l hl
  groups token g hg := by
    rw [hto.groups] at hg
    rw [hto.cfg]
    exact h.groups token g hg
  apart k tomb htomb := by
    rw [hto.tombstones] at htomb
    obtain ⟨old, hold, rfl⟩ := map_eq_some_iff.mp htomb
    rw [hto.entries, h.apart k old hold]
    rfl
  isolated k q hq := by
    rw [hto.quarantines] at hq
    obtain ⟨hentry, htomb⟩ := h.isolated k q hq
    rw [hto.entries, hto.tombstones, hentry, htomb]
    exact ⟨rfl, rfl⟩
  fenced k g hg := by
    rw [hto.groups] at hg
    obtain ⟨hentry, htomb, hlease⟩ := h.fenced k g hg
    rw [hto.entries, hto.tombstones, hto.leases, hentry, htomb]
    exact ⟨rfl, rfl, hlease⟩
  unquarrelled token g hg := by
    rw [hto.groups] at hg
    rw [hto.quarantines]
    exact h.unquarrelled token g hg

/-- The store after an upgrade: its rows restored, and swept at the restore time. -/
theorem upgraded_restored {encodeAlloc : Allocator} (h : Kept crypto clock s)
    (hupgraded : s.upgraded crypto capturedAtMs restoreNowMs encodeAlloc alloc = .ok t) :
    ∃ u, RestoredTo s u ∧ t = u.sweep crypto restoreNowMs := by
  obtain ⟨u, -, hput, rfl⟩ := upgraded_ok h.tagged hupgraded
  exact ⟨u, putRecords_restored h hput, rfl⟩

end Store

/-- Any call but a restore of octets from elsewhere. -/
def Call.isOwn : Call → Bool
  | .restore _ _ _ => false
  | _ => true

/-- The clock after a call. -/
def Call.clock (clock : Int64) (call : Call) : Int64 := call.endMs.getD clock

/-- From `clock` on, no call reads an earlier time than the one before it. -/
def InTime : Int64 → List Call → Prop
  | _, [] => True
  | clock, call :: calls =>
    clock ≤ call.startMs.getD clock ∧ call.startMs.getD clock ≤ call.clock clock ∧
      InTime (call.clock clock) calls

instance decidableInTime : (clock : Int64) → (calls : List Call) → Decidable (InTime clock calls)
  | _, [] => isTrue trivial
  | clock, call :: calls =>
    have := decidableInTime (call.clock clock) calls
    inferInstanceAs (Decidable (_ ∧ _ ∧ _))

/-- The clock at the end of a run. -/
def lastMs (clock : Int64) (calls : List Call) : Int64 := calls.foldl Call.clock clock

theorem InTime.append {clock : Int64} {calls more : List Call} (h : InTime clock (calls ++ more)) :
    InTime clock calls ∧ InTime (lastMs clock calls) more := by
  induction calls generalizing clock with
  | nil => exact ⟨trivial, h⟩
  | cons call calls ih =>
    obtain ⟨hstart, hend, hrest⟩ := h
    obtain ⟨hcalls, hmore⟩ := ih hrest
    exact ⟨⟨hstart, hend, hcalls⟩, hmore⟩

namespace Store

variable {crypto : Crypto} {clock : Int64} {s : Store}

theorem step_kept {call : Call} (h : Kept crypto clock s) (hstart : clock ≤ call.startMs.getD clock)
    (hend : call.startMs.getD clock ≤ call.clock clock) (hown : call.isOwn = true) :
    Kept crypto (call.clock clock) (s.step crypto call).2 := by
  cases call with
  | applySignedOffer signed viaPeer nowMs alloc =>
    exact (applySignedOffer_effect crypto s signed viaPeer nowMs alloc).kept h hstart
  | groupRevoke signed nowMs alloc commit => exact revokeGroup_kept h hstart
  | applySignedAttachmentLease signed nowMs alloc => exact applySignedAttachmentLease_kept h hstart
  | sweep nowMs => exact h.thinned hstart (sweep_thinned s nowMs)
  | removePeer peer => exact removePeer_kept peer h
  | restore bytes restoreNowMs alloc => cases hown
  | upgrade capturedAtMs restoreNowMs encodeAlloc restoreAlloc =>
    have hlater : clock ≤ restoreNowMs := hstart.trans hend
    change Kept crypto restoreNowMs (s.replaced _).2
    cases hupgraded : s.upgraded crypto capturedAtMs restoreNowMs encodeAlloc restoreAlloc with
    | error e => exact h.later hlater
    | ok t =>
      obtain ⟨u, hto, rfl⟩ := upgraded_restored h hupgraded
      exact (hto.kept h).thinned hlater (sweep_thinned u restoreNowMs)
  | rehash table i => exact h.thinned le_rfl (rehash_within s i table).thinned

/-- A fact of the store and the clock that every step of a run keeps, each under its own rule. -/
theorem timed_invariant {P : Int64 → Store → Prop} {G : Visit Store Call Answer → Prop}
    (hstep : ∀ clock s call, clock ≤ call.startMs.getD clock →
      call.startMs.getD clock ≤ call.clock clock →
      G ⟨s, call, (s.step crypto call).1, (s.step crypto call).2⟩ → P clock s →
      P (call.clock clock) (s.step crypto call).2)
    {calls : List Call} (htime : InTime clock calls)
    (hall : ∀ v ∈ visits (fun s => s.step crypto) s calls, G v)
    (hs : P clock s) : P (lastMs clock calls) (final (fun s => s.step crypto) s calls) := by
  induction calls generalizing clock s with
  | nil => exact hs
  | cons call calls ih =>
    obtain ⟨hstart, hend, hrest⟩ := htime
    obtain ⟨hfirst, hothers⟩ := List.forall_mem_cons.mp hall
    exact ih hrest hothers (hstep clock s call hstart hend hfirst hs)

end Store

end OnyxServer.SessionReplica
