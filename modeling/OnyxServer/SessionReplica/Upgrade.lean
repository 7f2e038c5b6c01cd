import OnyxServer.SessionReplica.Readmission

/-!
# Live upgrades

The image that a store encodes of itself is restored, and nothing is lost that a sweep at the
restore time would have kept, in every run whose calls leave no deny marker beyond its row and
bind no token to a second account over a row that is still there.
-/
namespace OnyxServer.SessionReplica

open Lib Text List HashMap AList

namespace Store

open CheckpointReader

variable {crypto : Crypto} {accounts : Set Bytes} {cfg : Config}
    {clock capturedAtMs restoreNowMs : Int64}
variable {s t u self : Store} {key : OriginKey} {token : Token} {alloc : Allocator} {n : Nat}

theorem bind_succeeds {ε α β : Type} {x : Except ε α} {f : α → Except ε β} {a : α} {b : β}
    (hx : x = .ok a) (hf : f a = .ok b) : (x >>= f) = .ok b := by
  rw [hx]
  exact hf

/-- Rows are all taken when each is taken by a table that holds rows of the image only, and
not this one. -/
theorem putRows_succeeds {κ ρ ν : Type} [DecidableEq κ] {P : Store → Prop}
    (table : Store → HashMap κ ν) (value : ρ → ν)
    {put : Nat → Store → (Sigma fun _ : κ => ρ) → Except UpgradeCheckpointError Store}
    {rows : HashMap κ ρ} {n : Nat}
    (hput : ∀ n self slot, slot ∈ rows.entries → P self → (table self).lookup slot.1 = none →
      (∀ k v, (table self).lookup k = some v → ∃ r, rows.lookup k = some r ∧ value r = v) →
      ∃ next, put n self slot = .ok next ∧ P next ∧
        ∀ k, (table next).lookup k = if k = slot.1 then some (value slot.2)
          else (table self).lookup k)
    (hs : P s) (hempty : ∀ k, (table s).lookup k = none) :
    ∃ t, putRows put rows.entries n s = .ok t ∧ P t := by
  have hall : ∀ slots : List (Sigma fun _ : κ => ρ), slots.NodupKeys →
      (∀ slot ∈ slots, slot ∈ rows.entries) →
      ∀ n s, P s → (∀ slot ∈ slots, (table s).lookup slot.1 = none) →
      (∀ k v, (table s).lookup k = some v → ∃ r, rows.lookup k = some r ∧ value r = v) →
      ∃ t, putRows put slots n s = .ok t ∧ P t := by
    intro slots
    induction slots with
    | nil => exact fun _ _ n s hs _ _ => ⟨s, rfl, hs⟩
    | cons slot slots ih =>
      intro hnodup hin n s hs hfresh hsub
      obtain ⟨hnew, hnodup⟩ := nodupKeys_cons.mp hnodup
      obtain ⟨hslot, hin⟩ := forall_mem_cons.mp hin
      obtain ⟨hfirst, hfresh⟩ := forall_mem_cons.mp hfresh
      obtain ⟨next, hone, hnext, hlookup⟩ := hput n s slot hslot hs hfirst hsub
      obtain ⟨t, hrest, ht⟩ := ih hnodup hin (n + 1) next hnext (fun other hother => by
        rw [hlookup, if_neg]
        · exact hfresh other hother
        · intro hsame
          exact hnew (hsame ▸ mem_keys_of_mem hother)) (fun k v hv => by
        rw [hlookup] at hv
        split at hv
        · next hk =>
          subst hk
          exact ⟨slot.2, HashMap.mem_entries.mp hslot, Option.some.inj hv⟩
        · exact hsub k v hv)
      exact ⟨t, bind_succeeds hone hrest, ht⟩
  exact hall rows.entries rows.nodupKeys (fun _ h => h) n s hs (fun slot _ => hempty slot.1)
    fun k v hv => nomatch (hempty k).symm.trans hv

theorem recordSites_all (halloc : ∀ n, alloc n = true) (site : Nat) :
    ∀ n, recordSites alloc site n = true :=
  fun n => halloc (4 + 4 * site + n)

section Phases

variable {entries : OriginKey → Option Entry} {tombstones : OriginKey → Option Tombstone}
variable {quarantines : Token → Option Quarantine}
    {leases : OriginKey → Option AttachmentLeaseEntry}
variable {groups : Token → Option GroupRevocation} {v : Store}

theorem putEntries_succeeds (h : Upgradable crypto accounts clock s)
    (hinj : Distinguishes crypto accounts)
    (hcaptured : clock ≤ capturedAtMs) (halloc : ∀ n, alloc n = true) :
    ∃ u, putRows (fun n self slot => putEntry crypto capturedAtMs (recordSites alloc n) self slot.2)
      s.entries.entries 0 (initWithConfig s.cfg) = .ok u ∧
      ∃ m, Reading crypto accounts s.cfg m m u := by
  obtain ⟨u, hput, ⟨m, hread⟩, -⟩ := putRows_succeeds
    (P := fun self => (∃ m, Reading crypto accounts s.cfg m m self) ∧
      ∀ k, self.tombstones.lookup k = none)
    Store.entries Entry.restored (fun n self slot hslot hself hnew hsub => by
      obtain ⟨⟨m, hread⟩, hnone⟩ := hself
      have he := HashMap.mem_entries.mp hslot
      have hkept := h.kept.entries slot.1 slot.2 he
      have hone :=
        putEntry_succeeds (hread.cfg.symm ▸ hkept) (h.restorable.entries slot.1 slot.2 he) hcaptured
        hread.books hnew (hnone slot.1) (recordSites_all halloc n)
      obtain ⟨next, hone⟩ := hone
      have hnext := putEntry_reading hinj (h.inOrder.books.folded slot.1 slot.2 he) hread hone
      obtain ⟨index, faulted, rfl⟩ := putEntry_ok hone
      rw [hkept.keyed] at hone hnext
      exact ⟨_, hone, ⟨⟨_, hnext⟩, hnone⟩, fun k => lookup_insert_eq _ _ k _⟩)
    ⟨⟨0, reading_init crypto accounts s.cfg⟩, lookup_empty⟩ (fun k => lookup_empty k)
  exact ⟨u, hput, m, hread⟩

theorem putTombstone_reading {entries : Nat} {tomb : Tombstone}
    (hs : Reading crypto accounts cfg entries n self)
    (h : putTombstone crypto capturedAtMs alloc self tomb = .ok t) :
    Reading crypto accounts cfg entries (n + 1) t := by
  obtain ⟨wire, -, hput⟩ := bind_ok h
  exact restoreCheckpointTombstone_reading hs hput

section

variable (h : Upgradable crypto accounts clock s)
include h

theorem putTombstones_succeeds (hcaptured : clock ≤ capturedAtMs)
    (halloc : ∀ n, alloc n = true) {m : Nat} (hread : Reading crypto accounts s.cfg m m v)
    (hv : Contents s.cfg (fun k => (s.entries.lookup k).map Entry.restored)
      (fun _ => none) quarantines leases groups v) :
    ∃ u, putRows (fun n self slot =>
      putTombstone crypto capturedAtMs (recordSites alloc n) self slot.2)
      s.tombstones.entries n v = .ok u := by
  obtain ⟨u, hput, -⟩ := putRows_succeeds
    (P := fun self => (∃ n, Reading crypto accounts s.cfg m n self) ∧
      ∀ k, self.entries.lookup k = (s.entries.lookup k).map Entry.restored)
    Store.tombstones (Tombstone.restored s.cfg) (fun n self slot hslot hself hnew hsub => by
      obtain ⟨⟨r, hread⟩, hentries⟩ := hself
      have htomb := HashMap.mem_entries.mp hslot
      have hkept := h.kept.tombstones slot.1 slot.2 htomb
      have hnone : self.entries.lookup slot.1 = none := by
        rw [hentries, h.kept.apart slot.1 slot.2 htomb]
        rfl
      have hroom : slot.2.identityDigest = none →
      self.softCappedTombstones < self.cfg.maxTombstones := by
        intro hunbound
        -- with this row in, no more tombstones are capped than the image has
        have hcount : HashMap.countIf Tombstone.softCapped (self.tombstones.insert slot.1
          (slot.2.restored s.cfg)) ≤
            HashMap.countIf Tombstone.softCapped s.tombstones := by
          refine countIf_le_of_lookup fun k tomb hk hsoft => ?_
          have hrow : ∃ r, s.tombstones.lookup k = some r ∧ r.restored s.cfg = tomb := by
            rw [lookup_insert_eq] at hk
            split at hk
            · next hsame =>
              subst hsame
              exact ⟨slot.2, htomb, Option.some.inj hk⟩
            · exact hsub k tomb hk
          obtain ⟨r, hr, rfl⟩ := hrow
          exact ⟨r, hr, (h.kept.tombstones k r hr).unbound (Option.isNone_iff_eq_none.mp hsoft)⟩
        have hflag : (slot.2.restored s.cfg).softCapped = true :=
          Option.isNone_iff_eq_none.mpr hunbound
        rw [countIf_insert, countIf_erase_new hnew, hflag, if_pos rfl, ← hread.books.soft] at hcount
        rw [hread.cfg]
        exact hcount.trans h.restorable.softRoom
      have hone :=
        putTombstone_succeeds (hread.cfg.symm ▸ hkept) (h.restorable.tombstones slot.1 slot.2 htomb)
        hcaptured hnone hnew hroom (recordSites_all halloc n)
      obtain ⟨next, hone⟩ := hone
      have hnext := putTombstone_reading hread hone
      obtain ⟨soft, rfl⟩ := putTombstone_ok hone
      rw [hkept.keyed, hread.cfg] at hone hnext
      exact ⟨_, hone, ⟨⟨_, hnext⟩, hentries⟩, fun k => lookup_insert_eq _ _ k _⟩)
    ⟨⟨m, hread⟩, hv.entries⟩ hv.tombstones
  exact ⟨u, hput⟩

theorem putQuarantines_succeeds (hinj : Distinguishes crypto accounts)
    (hcaptured : clock ≤ capturedAtMs) (halloc : ∀ n, alloc n = true)
    (hv : Contents s.cfg (fun k => (s.entries.lookup k).map Entry.restored)
      (fun k => (s.tombstones.lookup k).map (Tombstone.restored s.cfg))
      (fun _ => none) leases groups v) :
    ∃ u, putRows (fun n self slot =>
        putQuarantine crypto capturedAtMs (recordSites alloc n) self slot.2)
      s.quarantines.entries n v = .ok u := by
  obtain ⟨u, hput, -⟩ := putRows_succeeds
    (P := fun self => self.cfg = s.cfg ∧ self.entries = v.entries ∧ self.tombstones = v.tombstones)
    Store.quarantines id (fun n self slot hslot hself hnew hsub => by
      obtain ⟨hcfg, hentries, htombstones⟩ := hself
      have hq := HashMap.mem_entries.mp hslot
      have hkept := h.kept.quarantines slot.1 slot.2 hq
      have hgone : ∀ k : OriginKey, k.token = slot.1 → self.entries.lookup k = none ∧
      self.tombstones.lookup k = none := by
        intro k hk
        obtain ⟨hentry, htomb⟩ := h.kept.isolated k slot.2 (by rw [hk]; exact hq)
        rw [hentries, htombstones, hv.entries, hv.tombstones, hentry, htomb]
        exact ⟨rfl, rfl⟩
      have hone :=
        putQuarantine_succeeds (hcfg.symm ▸ hkept)
        (h.restorable.quarantines slot.1 slot.2 hq) hinj hcaptured
        hnew hgone (recordSites_all halloc n)
      obtain ⟨next, hone⟩ := hone
      obtain rfl := putQuarantine_ok hone
      rw [hkept.first.2.2] at hone
      exact ⟨_, hone, ⟨hcfg, hentries, htombstones⟩, fun k => lookup_insert_eq _ _ k _⟩)
    ⟨hv.cfg, rfl, rfl⟩ hv.quarantines
  exact ⟨u, hput⟩

theorem putLeases_succeeds (hcaptured : clock ≤ capturedAtMs)
    (halloc : ∀ n, alloc n = true)
    (hv : Contents s.cfg entries tombstones quarantines (fun _ => none) groups v) :
    ∃ u, putRows (fun n self slot =>
        putAttachmentLease crypto capturedAtMs (recordSites alloc n) self slot.2)
      s.attachmentLeases.entries n v = .ok u := by
  obtain ⟨u, hput, -⟩ := putRows_succeeds (P := fun self => self.cfg = s.cfg)
    Store.attachmentLeases id (fun n self slot hslot hself hnew hsub => by
      have hkept := h.kept.leases slot.1 slot.2 (HashMap.mem_entries.mp hslot)
      have hone :=
        putAttachmentLease_succeeds (hself.symm ▸ hkept) hcaptured hnew (recordSites_all halloc n)
      obtain ⟨next, hone⟩ := hone
      obtain rfl := putAttachmentLease_ok (fun m hm => (hkept.witness m hm).1) hone
      rw [hkept.keyed] at hone
      exact ⟨_, hone, hself, fun k => lookup_insert_eq _ _ k _⟩) hv.cfg hv.leases
  exact ⟨u, hput⟩

theorem putGroups_succeeds (hcaptured : clock ≤ capturedAtMs)
    (halloc : ∀ n, alloc n = true)
    (hv : Contents s.cfg (fun k => (s.entries.lookup k).map Entry.restored)
      (fun k => (s.tombstones.lookup k).map (Tombstone.restored s.cfg))
      (fun token => s.quarantines.lookup token)
      (fun k => s.attachmentLeases.lookup k) (fun _ => none) v) :
    ∃ u, putRows (fun n self slot => putGroup crypto capturedAtMs (recordSites alloc n) self slot.2)
      s.groupRevocations.entries n v = .ok u := by
  obtain ⟨u, hput, -⟩ := putRows_succeeds
    (P := fun self => ∃ rows, Contents s.cfg (fun k => (s.entries.lookup k).map Entry.restored)
      (fun k => (s.tombstones.lookup k).map (Tombstone.restored s.cfg))
      (fun token => s.quarantines.lookup token) (fun k => s.attachmentLeases.lookup k) rows self)
    Store.groupRevocations id (fun n self slot hslot hself hnew hsub => by
      obtain ⟨rows, hself⟩ := hself
      have hg := HashMap.mem_entries.mp hslot
      have hkept := h.kept.groups slot.1 slot.2 hg
      have hgone : ∀ k : OriginKey, k.token = slot.1 → self.entries.lookup k = none ∧
      self.tombstones.lookup k = none ∧ self.attachmentLeases.lookup k = none := by
        intro k hk
        obtain ⟨hentry, htomb, hlease⟩ := h.kept.fenced k slot.2 (by rw [hk]; exact hg)
        rw [hself.entries, hself.tombstones, hself.leases, hentry, htomb, hlease]
        exact ⟨rfl, rfl, rfl⟩
      have hquarantine : self.quarantines.lookup slot.1 = none := by
        rw [hself.quarantines]
        exact h.kept.unquarrelled slot.1 slot.2 hg
      have hroom : HashMap.count self.groupRevocations < self.cfg.maxGroupRevocations := by
        have hcount : HashMap.count (self.groupRevocations.insert slot.1 slot.2) ≤
          HashMap.count s.groupRevocations := by
          refine count_le_of_lookup fun k g hk => ?_
          rw [lookup_insert_eq] at hk
          split at hk
          · next hsame =>
            rw [hsame, hg]
            rfl
          · obtain ⟨r, hr, -⟩ := hsub k g hk
            rw [hr]
            rfl
        rw [HashMap.count_insert_new hnew] at hcount
        rw [hself.cfg]
        exact hcount.trans h.restorable.groupRoom
      have hone := putGroup_succeeds (hself.cfg.symm ▸ hkept) hcaptured hnew hgone hquarantine hroom
        (recordSites_all halloc n)
      obtain ⟨next, hone⟩ := hone
      obtain ⟨hcfg, hentries, htombstones, hquarantines, hleases, hgroups⟩ := putGroup_ok hone
      rw [hkept.keyed] at hgroups
      refine ⟨next, hone, ⟨fun token => next.groupRevocations.lookup token, ?_⟩, fun k => by
        rw [hgroups]
        exact lookup_insert_eq _ _ k _⟩
      exact {
        cfg := hcfg.trans hself.cfg
        entries := fun k => (hentries k).trans (hself.entries k)
        tombstones := fun k => (htombstones k).trans (hself.tombstones k)
        quarantines := fun token => by rw [hquarantines, hself.quarantines]
        leases := fun k => (hleases k).trans (hself.leases k)
        groups := fun _ => rfl })
    ⟨_, hv⟩ hv.groups
  exact ⟨u, hput⟩

end

end Phases

/-- Every record of the image is taken back. -/
theorem putRecords_succeeds (h : Upgradable crypto accounts clock s)
    (hinj : Distinguishes crypto accounts)
    (hcaptured : clock ≤ capturedAtMs) (halloc : ∀ n, alloc n = true) :
    ∃ u, putRecords crypto s.cfg capturedAtMs alloc s = .ok u := by
  have hstart :
      Contents s.cfg (fun _ => none) (fun _ => none) (fun _ => none) (fun _ => none) (fun _ => none)
      (initWithConfig s.cfg) :=
    ⟨rfl, lookup_empty, lookup_empty, lookup_empty, lookup_empty, lookup_empty⟩
  obtain ⟨u₁, hentries, m, hread⟩ := putEntries_succeeds h hinj hcaptured halloc
  have hu₁ := putEntries_contents h.kept hstart hentries
  obtain ⟨u₂, htombstones⟩ := putTombstones_succeeds h hcaptured halloc hread hu₁
  have hu₂ := putTombstones_contents h.kept hu₁ htombstones
  obtain ⟨u₃, hquarantines⟩ := putQuarantines_succeeds h hinj hcaptured halloc hu₂
  have hu₃ := putQuarantines_contents h.kept hu₂ hquarantines
  obtain ⟨u₄, hleases⟩ := putLeases_succeeds h hcaptured halloc hu₃
  have hu₄ := putLeases_contents h.kept hu₃ hleases
  obtain ⟨u₅, hgroups⟩ := putGroups_succeeds h hcaptured halloc hu₄
  exact ⟨u₅, bind_succeeds hentries (bind_succeeds htombstones (bind_succeeds hquarantines
    (bind_succeeds hleases hgroups)))⟩

/-- More than any record takes. -/
def rowBytes : Nat := 2 * (4 + maxSignedPayloadLen) + 64

theorem flatMap_bounds {α : Type} (rows : List α) {encode : α → Bytes} {low high : Nat}
    (h : ∀ row ∈ rows, low ≤ (encode row).length ∧ (encode row).length ≤ high) :
    rows.length * low ≤ (rows.flatMap encode).length ∧
    (rows.flatMap encode).length ≤ rows.length * high := by
  induction rows with
  | nil => simp
  | cons row rows ih =>
    obtain ⟨⟨hlow, hhigh⟩, hrest⟩ := forall_mem_cons.mp h
    obtain ⟨hlows, hhighs⟩ := ih hrest
    rw [flatMap_cons, length_append, length_cons, Nat.succ_mul, Nat.succ_mul]
    omega

theorem encodeWire_length (wire : Bytes) : (encodeWire wire).length = 4 + wire.length := by
  rw [encodeWire, length_append, beBytes_length]

theorem encodeOptionalI64_length (value : Option Int64) :
    1 ≤ (encodeOptionalI64 value).length ∧ (encodeOptionalI64 value).length ≤ 9 := by
  cases value with
  | none => decide
  | some a =>
    rw [encodeOptionalI64, length_cons, i64Bytes_length]
    omega

theorem encodeOptionalDigest_length (value : Option Digest) :
    1 ≤ (encodeOptionalDigest value).length ∧ (encodeOptionalDigest value).length ≤ 33 := by
  cases value with
  | none => decide
  | some d =>
    rw [encodeOptionalDigest, length_cons, d.property]
    omega

theorem entry_bounds (e : Entry) :
    4 + 1 + 8 + 1 ≤ e.encode.length ∧ e.encode.length ≤ rowBytes := by
  obtain ⟨hlow, hhigh⟩ := offer_wire_bounds e.wire
  obtain ⟨hmark, hmark'⟩ := encodeOptionalI64_length e.quarantineUntilMs
  rw [Entry.encode, length_append, length_append, encodeWire_length, i64Bytes_length, rowBytes]
  omega

theorem tombstone_bounds (tomb : Tombstone) :
    4 + 1 + 8 + 1 + 1 ≤ tomb.encode.length ∧ tomb.encode.length ≤ rowBytes := by
  obtain ⟨hlow, hhigh⟩ := offer_wire_bounds tomb.wire
  obtain ⟨hmark, hmark'⟩ := encodeOptionalI64_length tomb.quarantineUntilMs
  obtain ⟨hbound, hbound'⟩ := encodeOptionalDigest_length tomb.identityDigest
  rw [Tombstone.encode, length_append, length_append, length_append, encodeWire_length,
    i64Bytes_length, rowBytes]
  omega

theorem quarantine_bounds (q : Quarantine) :
    4 + 1 + 4 + 1 + 8 + 8 ≤ q.encode.length ∧ q.encode.length ≤ rowBytes := by
  obtain ⟨hlow, hhigh⟩ := offer_wire_bounds q.firstWire
  obtain ⟨hlow', hhigh'⟩ := offer_wire_bounds q.secondWire
  rw [Quarantine.encode, length_append, length_append, length_append, encodeWire_length,
    encodeWire_length, i64Bytes_length, i64Bytes_length, rowBytes]
  omega

theorem lease_bounds {l : AttachmentLeaseEntry} (h : KeptLease crypto cfg clock key l) :
    4 + 1 + 1 ≤ l.encode.length ∧ l.encode.length ≤ rowBytes := by
  obtain ⟨hlow, hhigh⟩ := lease_wire_bounds h.vouched.verified
  unfold AttachmentLeaseEntry.encode
  rw [length_append, encodeWire_length, rowBytes]
  cases hconflict : l.conflictWire with
  | none =>
    simp only [length_singleton]
    omega
  | some m =>
    obtain ⟨hlow', hhigh'⟩ := lease_wire_bounds (h.witness m hconflict).2.1.verified
    simp only [length_cons, encodeWire_length]
    omega

theorem group_bounds (g : GroupRevocation) :
    4 + 1 ≤ g.encode.length ∧ g.encode.length ≤ rowBytes := by
  obtain ⟨hlow, hhigh⟩ := offer_wire_bounds g.wire
  rw [GroupRevocation.encode, encodeWire_length, rowBytes]
  omega

theorem encodeRecords_bounds (h : Kept crypto clock s) :
    s.checkpointCounts.minimumRecordBytes ≤ s.encodeRecords.length ∧
    s.encodeRecords.length ≤ s.counts.sum * rowBytes := by
  have hentries := flatMap_bounds s.entries.entries fun slot _ => entry_bounds slot.2
  have htombstones := flatMap_bounds s.tombstones.entries fun slot _ => tombstone_bounds slot.2
  have hquarantines := flatMap_bounds s.quarantines.entries fun slot _ => quarantine_bounds slot.2
  have hleases := flatMap_bounds s.attachmentLeases.entries fun slot hslot =>
    lease_bounds (h.leases slot.1 slot.2 (HashMap.mem_entries.mp hslot))
  have hgroups := flatMap_bounds s.groupRevocations.entries fun slot _ => group_bounds slot.2
  have hsum : s.counts.sum * rowBytes =
      HashMap.count s.entries * rowBytes + (HashMap.count s.tombstones * rowBytes +
      (HashMap.count s.quarantines * rowBytes + (HashMap.count s.attachmentLeases * rowBytes +
        HashMap.count s.groupRevocations * rowBytes))) := by
    simp only [counts, sum_cons, sum_nil, Nat.add_zero, Nat.add_mul]
  simp only [HashMap.count] at hsum
  rw [hsum]
  simp only [encodeRecords, length_append, CheckpointCounts.minimumRecordBytes, checkpointCounts,
    HashMap.count]
  omega

theorem encodeHeader_length (s : Store) (capturedAtMs : Int64) :
    (s.encodeHeader capturedAtMs).length = 33 := by
  simp [encodeHeader, upgradeCheckpointMagic, i64Bytes_length, counts, beBytes_length]

/-- Counts of 32 bits keep the whole image below the address space. -/
theorem image_fits (h : Kept crypto clock s) (hcounts : ∀ count ∈ s.counts, count ≤ maxU32) :
    (s.encodeHeader capturedAtMs ++ s.encodeRecords).length + upgradeCheckpointChecksumLen <
      usizeLimit := by
  have hrecords := (encodeRecords_bounds h).2
  have hsum : s.counts.sum ≤ 5 * maxU32 := by
    simp only [counts, forall_mem_cons, sum_cons, sum_nil] at hcounts ⊢
    omega
  have hbytes : s.counts.sum * rowBytes ≤ 5 * maxU32 * rowBytes := Nat.mul_le_mul_right _ hsum
  have hfits : 33 + 5 * maxU32 * rowBytes + upgradeCheckpointChecksumLen < usizeLimit := by decide
  rw [length_append, encodeHeader_length]
  omega

theorem checkpointWires_bounds (h : Kept crypto clock s) :
    ∀ wire ∈ s.checkpointWires, 0 < wire.length ∧ wire.length ≤ maxSignedPayloadLen := by
  simp only [checkpointWires, forall_mem_append, forall_mem_map, mem_flatMap]
  refine ⟨fun slot _ => offer_wire_bounds slot.2.wire,
    fun slot _ => offer_wire_bounds slot.2.wire, ?_, ?_,
    fun slot _ => offer_wire_bounds slot.2.wire⟩
  · rintro wire ⟨slot, -, hwire⟩
    rcases mem_pair.mp hwire with rfl | rfl
    · exact offer_wire_bounds slot.2.firstWire
    · exact offer_wire_bounds slot.2.secondWire
  · rintro wire ⟨slot, hslot, hwire⟩
    have hkept := h.leases slot.1 slot.2 (HashMap.mem_entries.mp hslot)
    rcases mem_cons.mp hwire with rfl | hwire
    · exact lease_wire_bounds hkept.vouched.verified
    · obtain ⟨m, hm, rfl⟩ := Option.map_eq_some_iff.mp (Option.mem_toList.mp hwire)
      exact lease_wire_bounds (hkept.witness m hm).2.1.verified

/-! ## The image is encoded and restored -/

theorem encodeUpgradeCheckpoint_succeeds (h : Upgradable crypto accounts clock s)
    (hcaptured : clock ≤ capturedAtMs)
    (hcounts : ∀ count ∈ s.counts, count ≤ maxU32) (halloc : alloc 0 = true) :
    s.encodeUpgradeCheckpoint crypto capturedAtMs alloc =
      .ok (s.encodeHeader capturedAtMs ++ s.encodeRecords ++
      (digestBytes crypto (s.encodeHeader capturedAtMs ++ s.encodeRecords)).val) := by
  have hclock : ¬ capturedAtMs < 0 := not_lt.mpr (h.started.trans hcaptured)
  have hlarge : ¬ s.counts.any (fun count => decide (maxU32 < count)) = true := by
    simp only [any_eq_true, decide_eq_true_eq, not_exists, not_and, not_lt]
    exact hcounts
  have hwires :
      ¬ s.checkpointWires.any (fun wire => decide (wire.length = 0 ∨ maxU32 < wire.length)) =
        true := by
    simp only [any_eq_true, decide_eq_true_eq, not_exists, not_and, not_or, not_lt]
    intro wire hwire
    obtain ⟨hlow, hhigh⟩ := checkpointWires_bounds h.kept wire hwire
    have hmax : maxSignedPayloadLen ≤ maxU32 := by decide
    exact ⟨hlow.ne', hhigh.trans hmax⟩
  simp only [encodeUpgradeCheckpoint, if_neg hclock, if_neg hlarge,
    if_neg (not_le.mpr (image_fits h.kept hcounts)),
    halloc, Bool.not_true, Bool.false_eq_true, if_false, if_neg hwires]

theorem checkpointCounts_fit (h : Upgradable crypto accounts clock s) :
    s.checkpointCounts.exceed s.cfg = false := by
  obtain ⟨hentries, hcombined⟩ := h.inOrder.room
  obtain ⟨-, -, -, -, -, hquarantines, hleases, hgroups⟩ := h.restorable
  have hslots : saturatingAdd (HashMap.count s.entries) (HashMap.count s.tombstones) ≤
      combinedSlots s.cfg.retention := by
    change min _ _ ≤ min (s.cfg.maxEntries + s.cfg.maxTombstones) _
    omega
  simp only [CheckpointCounts.exceed, checkpointCounts, Bool.or_eq_false_iff]
  exact ⟨⟨⟨⟨decide_eq_false (not_lt.mpr hgroups), decide_eq_false (not_lt.mpr hentries)⟩,
    decide_eq_false (not_lt.mpr hslots)⟩, decide_eq_false (not_lt.mpr hquarantines)⟩,
    decide_eq_false (not_lt.mpr hleases)⟩

/-- A row of a token that names an account stands against no other row of it. -/
theorem Restorable.agrees {d : Digest} (h : Restorable crypto accounts s)
    (hkept : Kept crypto clock s) (hd : s.identity crypto key = some d) :
    (∀ k e, s.entries.lookup k = some e → k.token = key.token →
      accountDigest crypto e.account = d) ∧
      ∀ k tomb, s.tombstones.lookup k = some tomb → k.token = key.token →
        tomb.identityDigest.any (· != d) = false := by
  refine ⟨fun k e he htoken => ?_, fun k tomb htomb htoken => ?_⟩
  · refine h.agreed k key _ _ htoken ?_ hd
    rw [identity, he]
  · cases hbound : tomb.identityDigest with
    | none => rfl
    | some d' =>
      have hsame : d' = d := by
        refine h.agreed k key _ _ htoken ?_ hd
        rw [identity, hkept.apart k tomb htomb, htomb]
        exact hbound
      rw [Option.any_some, hsame, bne_self_eq_false]

theorem Restorable.unquarrelsome {e : Entry} (h : Restorable crypto accounts s)
    (hkept : Kept crypto clock s) (hinj : Distinguishes crypto accounts)
    (hfolded : ∀ k e, s.entries.lookup k = some e → lowerString e.account ∈ accounts)
    (he : s.entries.lookup key = some e) : s.accountMismatch crypto key.token e.account =
      false := by
  have hnamed :
      s.identity crypto key = some (accountDigest crypto e.account) := by rw [identity, he]
  obtain ⟨hentries, htombstones⟩ := h.agrees hkept hnamed
  rw [accountMismatch, Bool.or_eq_false_iff, any_eq_false, any_eq_false]
  refine ⟨fun slot hslot htest => ?_, fun slot hslot htest => ?_⟩
  · obtain ⟨htoken, hdiffer⟩ := Bool.and_eq_true_iff.mp htest
    have hother := HashMap.mem_entries.mp hslot
    have hsame :=
      hinj (hfolded _ _ hother) (hfolded _ _ he) (hentries _ _ hother (tokenEql_iff.mp htoken))
    rw [eqlIgnoreCase_iff.mpr hsame] at hdiffer
    cases hdiffer
  · obtain ⟨htoken, hdiffer⟩ := Bool.and_eq_true_iff.mp htest
    rw [htombstones _ _ (HashMap.mem_entries.mp hslot) (tokenEql_iff.mp htoken)] at hdiffer
    cases hdiffer

/-- The rows of a token name one account in the restored store as in the store itself. -/
theorem restored_agrees (h : Upgradable crypto accounts clock s)
    (hinj : Distinguishes crypto accounts)
    (hto : RestoredTo s u) : u.validateCheckpointIdentityState crypto = .ok () := by
  have hrestorable := h.restorable.fewer h.kept (hto.fewer h.kept)
  have hkept := hto.kept h.kept
  have hfolded : ∀ k e, u.entries.lookup k = some e → lowerString e.account ∈ accounts := by
    intro k e he
    rw [hto.entries] at he
    obtain ⟨old, hold, rfl⟩ := Option.map_eq_some_iff.mp he
    exact h.inOrder.books.folded k old hold
  have hfree : ∀ k : OriginKey, (u.entries.lookup k).isSome ∨ (u.tombstones.lookup k).isSome →
      u.hasFullQuarantine k.token = false := by
    intro k hk
    rw [hasFullQuarantine, Bool.eq_false_iff]
    intro hin
    obtain ⟨q, hq⟩ := Option.isSome_iff_exists.mp hin
    obtain ⟨hentry, htomb⟩ := hkept.isolated k q hq
    rw [hentry, htomb] at hk
    exact absurd hk (by decide)
  have hentries :
      u.entries.entries.findSome? (fun slot => u.entryIdentityError crypto slot.1 slot.2) =
        none := by
    rw [List.findSome?_eq_none_iff]
    intro slot hslot
    have he := HashMap.mem_entries.mp hslot
    simp only [entryIdentityError, hfree slot.1 (.inl (by rw [he]; rfl)),
      hrestorable.unquarrelsome hkept hinj hfolded he, Bool.false_eq_true, if_false]
  have htombstones :
      u.tombstones.entries.findSome? (fun slot => u.tombstoneIdentityError slot.1 slot.2) =
        none := by
    rw [List.findSome?_eq_none_iff]
    intro slot hslot
    have htomb := HashMap.mem_entries.mp hslot
    simp only [tombstoneIdentityError, hfree slot.1 (.inr (by rw [htomb]; rfl)),
      Bool.false_eq_true, if_false]
    cases hbound : slot.2.identityDigest with
    | none => rfl
    | some d =>
      have hnamed : u.identity crypto slot.1 = some d := by
        rw [identity, hkept.apart slot.1 slot.2 htomb, htomb]
        exact hbound
      simp only
      rw [if_neg]
      rw [Bool.not_eq_true, any_eq_false]
      intro other hother htest
      obtain ⟨htoken, hdiffer⟩ := Bool.and_eq_true_iff.mp htest
      rw [(hrestorable.agrees hkept hnamed).2 _ _ (HashMap.mem_entries.mp hother)
        (tokenEql_iff.mp htoken)] at hdiffer
      cases hdiffer
  simp only [validateCheckpointIdentityState, hentries, htombstones]

theorem drop_image (body : Bytes) (digest : Digest) :
    (body ++ digest.val).drop ((body ++ digest.val).length - upgradeCheckpointChecksumLen) =
      digest.val := by
  rw [length_append, digest.property, upgradeCheckpointChecksumLen, Nat.add_sub_cancel, drop_left]

/-- The image of the store is restored to its rows. -/
theorem restoreUpgradeCheckpoint_succeeds (h : Upgradable crypto accounts clock s)
    (hinj : Distinguishes crypto accounts)
    (hcaptured : clock ≤ capturedAtMs) (hcounts : ∀ count ∈ s.counts, count ≤ maxU32)
    (halloc : ∀ n, alloc n = true) :
    ∃ u, RestoredTo s u ∧
    restoreUpgradeCheckpoint crypto s.cfg (s.encodeHeader capturedAtMs ++ s.encodeRecords ++
      (digestBytes crypto (s.encodeHeader capturedAtMs ++ s.encodeRecords)).val)
        restoreNowMs alloc =
        .ok (u.sweep crypto restoreNowMs) := by
  obtain ⟨u, hput⟩ := putRecords_succeeds h hinj hcaptured halloc
  have hto := putRecords_restored h.kept hput
  have hwires : ∀ wire ∈ s.checkpointWires, wire.length ≤ maxU32 := by
    intro wire hwire
    have hmax : maxSignedPayloadLen ≤ maxU32 := by decide
    exact (checkpointWires_bounds h.kept wire hwire).2.trans hmax
  have hheader := takes_readHeader (h.started.trans hcaptured) hcounts s.encodeRecords
  have hrecords :
      restoreRecords crypto s.cfg capturedAtMs s.checkpointCounts alloc (s.encodeRecords ++ []) =
      (putRecords crypto s.cfg capturedAtMs alloc s).map fun u => (u, []) :=
        reads_restoreRecords hwires h.kept.tagged []
  rw [append_nil, hput] at hrecords
  have hlength : ¬ (s.encodeHeader capturedAtMs ++ s.encodeRecords ++
      (digestBytes crypto (s.encodeHeader capturedAtMs ++ s.encodeRecords)).val).length <
        upgradeCheckpointV1HeaderLen + upgradeCheckpointChecksumLen := by
    rw [length_append, length_append, encodeHeader_length,
      (digestBytes crypto (s.encodeHeader capturedAtMs ++ s.encodeRecords)).property]
    simp only [upgradeCheckpointV1HeaderLen, upgradeCheckpointChecksumLen]
    omega
  have hmagic : ∀ rest : Bytes, ¬ (s.encodeHeader capturedAtMs ++ s.encodeRecords ++ rest).take 4 ≠
      upgradeCheckpointMagic :=
    fun _ => not_not.mpr rfl
  refine ⟨u, hto, ?_⟩
  rw [restoreUpgradeCheckpoint, if_neg hlength, if_neg (hmagic _)]
  simp only [take_image, drop_image, ne_eq, not_true_eq_false, if_false, hheader,
    checkpointCounts_fit h,
    Bool.false_eq_true, if_neg (not_lt.mpr (encodeRecords_bounds h.kept).1), halloc, Bool.not_true,
    or_self, hrecords, Except.map, length_nil, restored_agrees h hinj hto]

/-- Every row of the one store is in the other, with its revision, its digest and its wire. -/
structure Carries (crypto : Crypto) (s t : Store) : Prop where
  entries : ∀ k e, s.entries.lookup k = some e → ∃ e', t.entries.lookup k = some e' ∧
    e'.revision = e.revision ∧
    e'.digest crypto = e.digest crypto ∧ e'.wire.wire = e.wire.wire
  tombstones : ∀ k tomb, s.tombstones.lookup k = some tomb →
    ∃ tomb', t.tombstones.lookup k = some tomb' ∧
    tomb'.revision = tomb.revision ∧ tomb'.digest crypto = tomb.digest crypto ∧
      tomb'.wire.wire = tomb.wire.wire
  quarantines : ∀ token q, s.quarantines.lookup token = some q → t.quarantines.lookup token = some q
  leases : ∀ k l, s.attachmentLeases.lookup k = some l → t.attachmentLeases.lookup k = some l
  groups : ∀ token g, s.groupRevocations.lookup token = some g →
    t.groupRevocations.lookup token = some g

theorem hasDenyMarker_iff : s.hasDenyMarker token = true ↔
    (∃ k e, s.entries.lookup k = some e ∧ e.quarantineUntilMs.isSome ∧ k.token = token) ∨
      ∃ k tomb, s.tombstones.lookup k = some tomb ∧ tomb.quarantineUntilMs.isSome ∧
      k.token = token := by
  simp only [hasDenyMarker, Bool.or_eq_true, any_eq_true, Bool.and_eq_true, tokenEql_iff,
    Sigma.exists, HashMap.mem_entries]

theorem RestoredTo.hasDenyMarker (h : RestoredTo s u) (token : Token) :
    u.hasDenyMarker token = s.hasDenyMarker token := by
  rw [Bool.eq_iff_iff, hasDenyMarker_iff, hasDenyMarker_iff]
  refine or_congr ⟨?_, ?_⟩ ⟨?_, ?_⟩
  · rintro ⟨k, e, he, hmarker, htoken⟩
    rw [h.entries] at he
    obtain ⟨old, hold, rfl⟩ := Option.map_eq_some_iff.mp he
    exact ⟨k, old, hold, hmarker, htoken⟩
  · rintro ⟨k, e, he, hmarker, htoken⟩
    exact ⟨k, e.restored, by rw [h.entries, he]; rfl, hmarker, htoken⟩
  · rintro ⟨k, tomb, htomb, hmarker, htoken⟩
    rw [h.tombstones] at htomb
    obtain ⟨old, hold, rfl⟩ := Option.map_eq_some_iff.mp htomb
    exact ⟨k, old, hold, hmarker, htoken⟩
  · rintro ⟨k, tomb, htomb, hmarker, htoken⟩
    exact ⟨k, tomb.restored s.cfg, by rw [h.tombstones, htomb]; rfl, hmarker, htoken⟩

/-- A lease covers an OFFER of the restored store as it does in the store itself. -/
theorem RestoredTo.covers (h : RestoredTo s u) (key : OriginKey) (lease : AttachmentLeaseEntry)
    (nowMs : Int64) :
    u.positiveLeaseCoversUnexpiredOffer key lease nowMs =
      s.positiveLeaseCoversUnexpiredOffer key lease nowMs := by
  have hquarantined : u.isQuarantined key.token = s.isQuarantined key.token := by
    rw [isQuarantined, isQuarantined, hasFullQuarantine, hasFullQuarantine, h.quarantines,
      h.hasDenyMarker]
  have hgroup : u.isGroupRevoked key.token = s.isGroupRevoked key.token := by
    rw [isGroupRevoked, isGroupRevoked, h.groups]
  unfold positiveLeaseCoversUnexpiredOffer getOrigin getOriginInventory
  rw [hquarantined, hgroup, h.entries]
  split
  · rfl
  rename_i hfree
  cases hrevoked : s.isGroupRevoked key.token || s.isQuarantined key.token with
  | true => rfl
  | false =>
    simp only [Bool.false_eq_true, if_false]
    cases s.entries.lookup key with
    | none => rfl
    | some e =>
      simp only [Option.map_some, Option.filter_some]
      have heligible : e.restored.resumeEligible = e.resumeEligible := rfl
      rw [heligible]
      cases e.resumeEligible with
      | false => rfl
      | true => rfl

/-- The rows in front of the leases: swept of quarantines and entries. -/
theorem RestoredTo.sweepEntries (h : RestoredTo s u) (nowMs : Int64) :
    RestoredTo ((s.sweepQuarantines nowMs).sweepEntries crypto nowMs)
      ((u.sweepQuarantines nowMs).sweepEntries crypto nowMs) := by
  obtain ⟨routes, index, faulted, hs⟩ := sweepEntries_frame crypto (s.sweepQuarantines nowMs) nowMs
  obtain ⟨routes', index', faulted', hu⟩ :=
    sweepEntries_frame crypto (u.sweepQuarantines nowMs) nowMs
  rw [hs, hu]
  refine ⟨h.cfg, fun k => ?_, h.tombstones, fun token => ?_, h.leases, h.groups⟩
  · have hleft := lookup_eraseFailing u.entries (fun e => decide (e.expiresAtMs < nowMs)) k
    have hright := lookup_eraseFailing s.entries (fun e => decide (e.expiresAtMs < nowMs)) k
    refine hleft.trans ?_
    change _ =
      (AList.lookup k (HashMap.eraseAll (s.expiredEntries nowMs) s.entries)).map Entry.restored
    rw [expiredEntries, hright, h.entries]
    cases s.entries.lookup k with
    | none => rfl
    | some e =>
      rw [Option.map_some, Option.filter_some, Option.filter_some]
      change (if (!decide (e.expiresAtMs < nowMs)) = true then _ else _) = _
      split
      · rfl
      · rfl
  · change (HashMap.keep _ u.quarantines).lookup token = (HashMap.keep _ s.quarantines).lookup token
    rw [lookup_keep, lookup_keep, h.quarantines]

/-- What a sweep of the store keeps, a sweep of the restored one keeps. -/
theorem RestoredTo.carries (h : RestoredTo s u) (hkept : Kept crypto clock s) (nowMs : Int64) :
    Carries crypto (s.sweep crypto nowMs) (u.sweep crypto nowMs) where
  entries k e he := by
    rw [lookup_sweep_entries] at he
    obtain ⟨old, hold, rfl⟩ := Option.map_eq_some_iff.mp he
    obtain ⟨hthere, halive⟩ := Option.filter_eq_some_iff.mp hold
    have halive' : (!decide (old.restored.expiresAtMs < nowMs)) = true := halive
    refine ⟨clearEntry nowMs old.restored, ?_, rfl, rfl, rfl⟩
    rw [lookup_sweep_entries, h.entries, hthere, Option.map_some, Option.filter_some,
      if_pos halive', Option.map_some]
  tombstones k tomb htomb := by
    rw [lookup_sweep_tombstones] at htomb
    obtain ⟨old, hold, rfl⟩ := Option.map_eq_some_iff.mp htomb
    obtain ⟨hthere, hretained⟩ := Option.filter_eq_some_iff.mp hold
    have hlonger := retained_restored (hkept.tombstones k old hthere)
    have hretained' : tombstoneRetained nowMs (old.restored s.cfg).retainUntilMs = true :=
      decide_eq_true ((of_decide_eq_true hretained).trans hlonger)
    refine ⟨clearTombstone nowMs (old.restored s.cfg), ?_, rfl, rfl, rfl⟩
    rw [lookup_sweep_tombstones, h.tombstones, hthere, Option.map_some, Option.filter_some,
      if_pos hretained', Option.map_some]
  quarantines token q hq := by
    rw [lookup_sweep_quarantines] at hq ⊢
    rw [h.quarantines]
    exact hq
  leases k l hl := by
    rw [lookup_sweep_leases] at hl ⊢
    rw [h.leases, h.cfg]
    obtain ⟨hthere, hstays⟩ := Option.filter_eq_some_iff.mp hl
    rw [hthere, Option.filter_some, if_pos]
    rw [(h.sweepEntries nowMs).covers]
    exact hstays
  groups token g hg := by
    rw [sweep_groupRevocations] at hg ⊢
    exact (h.groups token).trans hg

/-- The store goes through an upgrade: its image is encoded and restored, with every row that
a sweep at the restore time would keep. -/
def Survives (crypto : Crypto) (s : Store) (capturedAtMs restoreNowMs : Int64)
    (encodeAlloc restoreAlloc : Allocator) : Prop :=
  ∃ bytes restored, s.encodeUpgradeCheckpoint crypto capturedAtMs encodeAlloc = .ok bytes ∧
    restoreUpgradeCheckpoint crypto s.cfg bytes restoreNowMs restoreAlloc = .ok restored ∧
    Carries crypto (s.sweep crypto restoreNowMs) restored

/-- Every store reached by calls that leave what can be restored goes through an upgrade,
whenever it is captured and restored. -/
theorem run_survives (clock : Int64) (cfg : Config) {calls : List Call} (hclock : 0 ≤ clock)
    (hinj : Distinguishes crypto (hashed calls)) (htime : InTime clock calls)
    (hportable : ∀ v ∈ visits (fun s => s.step crypto) (initWithConfig cfg) calls,
      PortableVisit crypto v)
    (hcounts : ∀ count ∈ (final (fun s => s.step crypto) (initWithConfig cfg) calls).counts,
      count ≤ maxU32)
    (hcaptured : lastMs clock calls ≤ capturedAtMs) {encodeAlloc restoreAlloc : Allocator}
    (hencode : ∀ n, encodeAlloc n = true) (hmemory : ∀ n, restoreAlloc n = true) :
    Survives crypto (final (fun s => s.step crypto) (initWithConfig cfg) calls) capturedAtMs
      restoreNowMs encodeAlloc
      restoreAlloc := by
  have h := run_upgradable cfg hclock hinj htime hportable
  obtain ⟨u, hto, hrestored⟩ := restoreUpgradeCheckpoint_succeeds h hinj hcaptured hcounts hmemory
  exact ⟨_, _, encodeUpgradeCheckpoint_succeeds h hcaptured hcounts (hencode 0), hrestored,
    hto.carries h.kept restoreNowMs⟩

theorem upgradeCalls_hashed {bytes : Bytes} (h : bytes ∈ hashed sampleCalls) :
    bytes ∈ [sampleUpsert.transcript, [97], sampleRemove.transcript, []] := by
  obtain ⟨signed, viaPeer, nowMs, alloc, hin, hbytes⟩ := h
  simp only [sampleCalls, mem_cons, not_mem_nil, or_false, Call.applySignedOffer.injEq,
    reduceCtorEq] at hin
  rcases hin with ⟨rfl, -⟩ | ⟨rfl, -⟩
  · rcases hbytes with rfl | rfl
    · exact mem_cons_self
    · exact mem_cons_of_mem _ mem_cons_self
  · rcases hbytes with rfl | rfl
    · exact mem_cons_of_mem _ (mem_cons_of_mem _ mem_cons_self)
    · exact mem_cons_of_mem _ (mem_cons_of_mem _ (mem_cons_of_mem _ mem_cons_self))

theorem portable_revoke {signed : SignedOffer} {viaPeer : NodeId} {nowMs : Int64}
    (hremove : signed.offer.operation = .remove) :
    s.Portable crypto (.applySignedOffer signed viaPeer nowMs alloc) := by
  have hnot : ¬ signed.offer.isOffer := by
    rintro (h | h)
    · exact nomatch hremove.symm.trans h
    · exact nomatch hremove.symm.trans h
  exact ⟨fun conflict hdenies => absurd hdenies.isOffer hnot,
    fun henters => absurd henters.isOffer hnot⟩

theorem run_survives_sample :
    Survives sampleCrypto
      (final (fun s => s.step sampleCrypto) (initWithConfig sampleConfig) sampleCalls) 2000 3000
      (fun _ => true) fun _ => true := by
  refine run_survives 0 sampleConfig (by decide) ?_ (by decide +kernel) ?_ (by decide +kernel)
    (by decide +kernel) (fun _ => rfl) fun _ => rfl
  · intro a ha b hb hsame
    have hall : ∀ a ∈ [sampleUpsert.transcript, [97], sampleRemove.transcript, []],
        ∀ b ∈ [sampleUpsert.transcript, [97], sampleRemove.transcript, []],
        sampleCrypto.blake3 a = sampleCrypto.blake3 b → a = b := by decide +kernel
    exact hall a (upgradeCalls_hashed ha) b (upgradeCalls_hashed hb) hsame
  · refine forall_mem_cons.mpr ⟨⟨rfl, ?_⟩, forall_mem_cons.mpr ⟨⟨rfl, portable_revoke rfl⟩,
      forall_mem_cons.mpr ⟨⟨rfl, trivial⟩, forall_mem_cons.mpr ⟨⟨rfl, trivial⟩, forall_mem_nil _⟩⟩⟩⟩
    refine ⟨fun conflict hdenies => ?_, fun _ key _ _ d hd => ?_⟩
    · have hnone :
          (initWithConfig sampleConfig).findIdentityConflict sampleCrypto sampleUpsert.offer.token
          sampleUpsert.offer.account 5 = none := rfl
      exact nomatch hnone.symm.trans hdenies.conflicts
    · have hnone : (initWithConfig sampleConfig).identity sampleCrypto key = none := rfl
      exact nomatch hnone.symm.trans hd

/-- The error of an upgrade, if there is one. -/
def upgradeError (crypto : Crypto) (s : Store) (capturedAtMs restoreNowMs : Int64) :
    Option UpgradeCheckpointError :=
  match s.upgraded crypto capturedAtMs restoreNowMs (fun _ => true) fun _ => true with
  | .ok _ => none
  | .error e => some e

theorem not_survives (h : (s.upgradeError crypto capturedAtMs restoreNowMs).isSome = true) :
    ¬ Survives crypto s capturedAtMs restoreNowMs (fun _ => true) fun _ => true := by
  rintro ⟨bytes, restored, hencode, hrestore, -⟩
  simp only [upgradeError, upgraded, hencode, hrestore] at h
  cases h

/-- The key of node 2. -/
def otherKey : PublicKey := FixedBytes.ofSlice 32 [2]

/-- An OFFER of node 2 for the same token. -/
def otherOffer (account : Bytes) (epoch : UInt64) (issuedAtMs expiresAtMs : Int64) : Offer :=
  { sampleOffer account epoch issuedAtMs expiresAtMs with revision := ⟨epoch, epoch <<< 16, 2⟩ }

def expiringOffer : SignedOffer :=
  (sampleOffer [97] 1 1 13).signedBy sampleKey sampleSignature (by decide) (by decide)

def reboundOffer : SignedOffer :=
  (otherOffer [98] 15 15 200).signedBy otherKey sampleSignature (by decide) (by decide)

def enduringOffer : SignedOffer :=
  (otherOffer [97] 2 2 200).signedBy otherKey sampleSignature (by decide) (by decide)

def strangeOffer : SignedOffer :=
  (sampleOffer [98] 4 4 300).signedBy sampleKey sampleSignature (by decide) (by decide)

/-- Two runs whose stores no restore takes back: a token bound to a second account over an
expired row, and a deny marker that outlasts the row of another origin. -/
theorem upgrade_refused :
    (∃ calls : List Call, InTime 0 calls ∧ (∀ call ∈ calls, call.isOwn = true) ∧
      ¬ Survives sampleCrypto
        (final (fun s => s.step sampleCrypto) (initWithConfig sampleConfig) calls)
        (lastMs 0 calls) (lastMs 0 calls) (fun _ => true) fun _ => true) ∧
    ∃ calls : List Call, InTime 0 calls ∧ (∀ call ∈ calls, call.isOwn = true) ∧
      ¬ Survives sampleCrypto
        (final (fun s => s.step sampleCrypto)
          (initWithConfig { sampleConfig with maxQuarantines := 0 }) calls)
        (lastMs 0 calls) (lastMs 0 calls) (fun _ => true) fun _ => true := by
  refine ⟨⟨[.applySignedOffer expiringOffer 0 1 fun _ => true,
    .applySignedOffer reboundOffer 0 15 fun _ => true],
      by decide +kernel, by decide, not_survives ?_⟩,
    ⟨[.applySignedOffer expiringOffer 0 1 fun _ => true,
    .applySignedOffer enduringOffer 0 2 fun _ => true,
      .applySignedOffer strangeOffer 0 4 fun _ =>
      true], by decide +kernel, by decide, not_survives ?_⟩⟩
  · decide +kernel
  · decide +kernel

end Store

end OnyxServer.SessionReplica
