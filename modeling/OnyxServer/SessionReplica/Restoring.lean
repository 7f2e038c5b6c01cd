import OnyxServer.SessionReplica.Image
import OnyxServer.SessionReplica.Slots

/-!
# The books of a restored store

A restore reads record after record into a fresh store. Each record keeps the books, and the
counts in the header bound how many rows there can be, so the octets of the image may be any.
-/
namespace OnyxServer.SessionReplica

open Lib Text Except

/-- Every OFFER that stands somewhere in the octets is of one of the accounts. -/
def PresentsImage (accounts : Set Bytes) (bytes : Bytes) : Prop :=
  ∀ wire signed, wire <:+: bytes → decodeOffer wire = .ok signed → signed.offer.isOffer →
    Presents accounts signed

namespace CheckpointReader

variable {α : Type}

theorem take_leaves (n : Nat) : LeavesEnd (take n) :=
    leavesEnd_takeBytes UpgradeCheckpointError.truncated n
theorem readByte_leaves : LeavesEnd readByte := (take_leaves 1).map _
theorem readU32_leaves : LeavesEnd readU32 := (take_leaves 4).map _
theorem readI64_leaves : LeavesEnd readI64 := (take_leaves 8).map _

theorem readU32_answers : Answers (fun n => n ≤ maxU32) readU32 := by
  intro xs n rest h
  obtain ⟨field, mid, hfield, hn⟩ := cursor_bind_ok (f := fun bytes => pure (beNat bytes)) h
  rw [(cursor_pure_ok hn).1]
  have hlen := takeBytes_length hfield
  have hlt := leNat_lt field.reverse
  rw [List.length_reverse, hlen] at hlt
  rw [beNat, maxU32]
  omega

theorem readWire_leaves : LeavesEnd readWire := by
  refine readU32_leaves.bind fun len => ?_
  split
  · exact leavesEnd_throw _
  · exact take_leaves len

theorem readOptionalI64_leaves : LeavesEnd readOptionalI64 := by
  refine readByte_leaves.bind fun tag => ?_
  split
  · exact leavesEnd_pure _
  · exact readI64_leaves.map _
  · exact leavesEnd_throw _

theorem readOptionalDigest_leaves : LeavesEnd readOptionalDigest := by
  refine readByte_leaves.bind fun tag => ?_
  split
  · exact leavesEnd_pure _
  · exact (take_leaves 32).map _
  · exact leavesEnd_throw _

theorem readConflict_leaves : LeavesEnd readConflict := by
  refine readByte_leaves.bind fun tag => ?_
  split
  · exact leavesEnd_pure _
  · exact readWire_leaves.map _
  · exact leavesEnd_pure _
  · exact leavesEnd_throw _

theorem check_leaves (answer : Except UpgradeCheckpointError α) : LeavesEnd (check answer) := by
  intro xs a rest h
  cases answer with
  | error e => cases h
  | ok b =>
    cases h
    exact List.suffix_refl xs

theorem check_ok {answer : Except UpgradeCheckpointError α} {a : α} {xs rest : Bytes}
    (h : check answer xs = .ok (a, rest)) : answer = .ok a := by
  cases answer with
  | error e => cases h
  | ok b => exact congrArg Except.ok (Prod.mk.inj (ok.inj h)).1

/-- A wire that is read stands in the image. -/
theorem readWire_within {whole xs wire rest : Bytes} (hend : xs <:+ whole)
    (h : readWire xs = .ok (wire, rest)) :
    wire <:+: whole := by
  obtain ⟨len, mid, hlen, htake⟩ := cursor_bind_ok h
  split at htake
  · cases htake
  · exact takeBytes_infix ((readU32_leaves _ _ _ hlen).trans hend) htake

variable {read : Nat → Store → CheckpointReader Store}

/-- What every record keeps holds after all of them. -/
theorem readRecords_rule {P : Nat → Store → Prop} (whole : Bytes)
    (hleaves : ∀ n s, LeavesEnd (read n s))
    (hstep : ∀ n s s' xs rest, xs <:+ whole → P n s → read n s xs = .ok (s', rest) → P (n + 1) s')
    {count site : Nat} {s s' : Store} {xs rest : Bytes} (hend : xs <:+ whole) (hs : P site s)
    (h : readRecords read count site s xs = .ok (s', rest)) : P (site + count) s' ∧
    rest <:+ whole := by
  induction count generalizing site s xs with
  | zero =>
    obtain ⟨rfl, rfl⟩ := cursor_pure_ok h
    exact ⟨hs, hend⟩
  | succ count ih =>
    obtain ⟨u, mid, hfirst, hrest⟩ := cursor_bind_ok h
    have hnext :=
      ih ((hleaves site s _ _ _ hfirst).trans hend) (hstep site s u xs mid hend hs hfirst) hrest
    rw [Nat.add_right_comm] at hnext
    exact hnext

/-- Records that keep a fact, whatever their number. -/
theorem readRecords_keep {P : Store → Prop} {count site : Nat}
    {s t : Store} {xs rest : Bytes} (hleaves : ∀ n s, LeavesEnd (read n s))
    (hstep : ∀ n s s' ys zs, P s → read n s ys = .ok (s', zs) → P s') (hs : P s)
    (h : readRecords read count site s xs = .ok (t, rest)) : P t :=
  (readRecords_rule (P := fun _ => P) xs hleaves
    (fun n s s' ys zs _ hs hone => hstep n s s' ys zs hs hone) (List.suffix_refl xs) hs h).1

end CheckpointReader

namespace Store

open CheckpointReader

variable {crypto : Crypto} {accounts : Set Bytes} {s t : Store} {cfg : Config}
variable {capturedAtMs restoreNowMs : Int64}
variable {alloc : Allocator} {bytes whole : Bytes} {n : Nat}

theorem readEntry_leaves (s : Store) : LeavesEnd (readEntry crypto capturedAtMs alloc s) :=
  readWire_leaves.bind fun _ => readI64_leaves.bind fun _ => readOptionalI64_leaves.bind fun _ =>
    check_leaves _

theorem readTombstone_leaves (s : Store) : LeavesEnd (readTombstone crypto capturedAtMs alloc s) :=
  readWire_leaves.bind fun _ => readI64_leaves.bind fun _ => readOptionalDigest_leaves.bind fun _ =>
    readOptionalI64_leaves.bind fun _ => check_leaves _

theorem readQuarantine_leaves (s : Store) :
    LeavesEnd (readQuarantine crypto capturedAtMs alloc s) :=
  readWire_leaves.bind fun _ => readWire_leaves.bind fun _ => readI64_leaves.bind fun _ =>
    readI64_leaves.bind fun _ => check_leaves _

theorem readAttachmentLeaseRecord_leaves (s : Store) :
    LeavesEnd (readAttachmentLeaseRecord crypto capturedAtMs alloc s) :=
  readWire_leaves.bind fun _ => readConflict_leaves.bind fun _ => check_leaves _

theorem readGroup_leaves (s : Store) : LeavesEnd (readGroup crypto capturedAtMs alloc s) :=
  readWire_leaves.bind fun _ => check_leaves _

theorem validateCheckpointSignedOffer_decodes {operation : OfferOperation} {signed : SignedOffer}
    (h : s.validateCheckpointSignedOffer crypto bytes operation capturedAtMs = .ok signed) :
    decodeOffer bytes = .ok signed ∧ signed.offer.operation.restoresAs operation = true := by
  unfold validateCheckpointSignedOffer at h
  split at h
  · cases h
  rename_i found hdecode
  split at h
  · cases h
  simp only at h
  split_ifs at h with hbounds
  · push Not at hbounds
    cases h
    exact ⟨hdecode, by simpa using hbounds.1⟩

theorem restoresAs_upsert {offer : Offer} (h : offer.operation.restoresAs .upsert = true) :
    offer.isOffer := by
  unfold Offer.isOffer
  cases hop : offer.operation with
  | upsert => exact .inl rfl
  | inventoryUpsert => exact .inr rfl
  | remove =>
    rw [hop] at h
    cases h
  | groupRevoke =>
    rw [hop] at h
    cases h

/-- So many rows were read, at most so many of them entries. -/
structure Reading (crypto : Crypto) (accounts : Set Bytes) (cfg : Config) (entries rows : Nat)
    (s : Store) : Prop where
  books : Books crypto accounts s
  cfg : s.cfg = cfg
  entriesCount : HashMap.count s.entries ≤ entries
  rowsCount : HashMap.count s.entries + HashMap.count s.tombstones ≤ rows

theorem notMem_lookup {ν : Type} {m : HashMap OriginKey ν} {key : OriginKey} (h : key ∉ m) :
    m.lookup key = none := AList.lookup_eq_none.mpr h

theorem restoreCheckpointEntry_reading {updatedAtMs : Int64} {marker : Option Int64}
    (hinj : Distinguishes crypto accounts)
    (hin : ∀ signed, decodeOffer bytes = .ok signed → signed.offer.isOffer →
      Presents accounts signed) (hs : Reading crypto accounts cfg n n s)
    (h : s.restoreCheckpointEntry crypto bytes updatedAtMs marker capturedAtMs alloc = .ok t) :
    Reading crypto accounts cfg (n + 1) (n + 1) t := by
  simp only [restoreCheckpointEntry] at h
  split at h
  · cases h
  rename_i signed hvalid
  obtain ⟨hdecode, hop⟩ := validateCheckpointSignedOffer_decodes hvalid
  have hpresent := hin signed hdecode (restoresAs_upsert hop)
  split at h
  · cases h
  split at h
  · cases h
  rename_i hfresh
  push Not at hfresh
  have hentry := notMem_lookup hfresh.1
  have htomb := notMem_lookup hfresh.2
  split at h
  · cases h
  split at h
  · cases h
  · cases h
  · next reserved hreserve =>
    obtain ⟨hfaulted, hmirrors⟩ := reindex_spec hinj hs.books signed.key_origin hpresent hreserve
    obtain ⟨index, hreserved⟩ := reserveAccountOrigin_frame hreserve
    obtain ⟨index', faulted', happend⟩ :=
      appendAccountOrigin_frame crypto reserved signed.offer.account signed.offer.key
    have hindexed : reserved.reindex crypto true signed.offer.account signed.offer.key =
        reserved.appendAccountOrigin crypto signed.offer.account signed.offer.key := by
      have hnone : (reserved.appendAccountOrigin crypto signed.offer.account
          signed.offer.key).entries.lookup signed.offer.key = none := by
        rw [happend, hreserved]
        exact hentry
      simp only [reindex, if_true, retireAccount, hnone]
    rw [hindexed] at hfaulted hmirrors
    rw [← ok.inj h]
    rw [happend, hreserved] at hfaulted hmirrors ⊢
    have hcount := HashMap.count_insert_new (v := Entry.mk signed updatedAtMs none marker
      Int64.minValue Int64.minValue) hentry
    obtain ⟨hentries, hrows⟩ := And.intro hs.entriesCount hs.rowsCount
    refine ⟨?_, hs.cfg, ?_, ?_⟩
    · refine books_of_insert (e :=
        ⟨signed, updatedAtMs, none, marker, Int64.minValue, Int64.minValue⟩)
        hs.books signed.key_origin hpresent rfl ?_ ?_ rfl hfaulted hmirrors
      · exact (HashMap.erase_of_none htomb).symm
      · simp only [softAfter, htomb]
    · change HashMap.count (s.entries.insert _ _) ≤ n + 1
      omega
    · change HashMap.count (s.entries.insert _ _) + HashMap.count s.tombstones ≤ n + 1
      omega

theorem restoreCheckpointTombstone_reading {entries : Nat} {removedAtMs : Int64}
    {identity : Option Digest}
    {marker : Option Int64} (hs : Reading crypto accounts cfg entries n s)
    (h : s.restoreCheckpointTombstone crypto bytes removedAtMs identity marker capturedAtMs alloc =
      .ok t) :
    Reading crypto accounts cfg entries (n + 1) t := by
  simp only [restoreCheckpointTombstone] at h
  split at h
  · cases h
  rename_i signed hvalid
  split at h
  · cases h
  split at h
  · cases h
  rename_i hfresh
  push Not at hfresh
  have hentry := notMem_lookup hfresh.1
  have htomb := notMem_lookup hfresh.2
  split at h
  · cases h
  split at h
  · cases h
  rw [← ok.inj h]
  have hbooks := books_of_tombstone {
    wire := signed, removedAtMs
    retainUntilMs := tombstoneRetainUntil removedAtMs signed.offer.expiresAtMs
      (some (acceptedAuthorityHorizon removedAtMs s.cfg.retention)) s.cfg.tombstoneTtlMs
    identityDigest := identity, quarantineUntilMs := marker, softCapped := identity.isNone
  } hs.books hentry fun old hold => by
      rw [htomb] at hold
      cases hold
  rw [htomb] at hbooks
  refine ⟨hbooks, hs.cfg, hs.entriesCount, ?_⟩
  change HashMap.count s.entries + HashMap.count (s.tombstones.insert _ _) ≤ n + 1
  rw [HashMap.count_insert_new htomb]
  have hrows := hs.rowsCount
  omega

theorem restoreCheckpointQuarantine_alike {secondBytes : Bytes} {expiresAtMs detectedAtMs : Int64}
    (h : s.restoreCheckpointQuarantine crypto bytes secondBytes expiresAtMs detectedAtMs
      capturedAtMs alloc = .ok t) :
    Alike s t := by
  simp only [restoreCheckpointQuarantine] at h
  split at h
  · cases h
  split at h
  · cases h
  iterate 5
    split at h
    · cases h
  rw [← ok.inj h]
  exact .of_eq rfl rfl rfl rfl rfl rfl rfl

theorem restoreCheckpointAttachmentLease_alike {conflicted : Bool} {conflictBytes : Option Bytes}
    (h : s.restoreCheckpointAttachmentLease crypto bytes conflicted conflictBytes capturedAtMs
      alloc = .ok t) :
    Alike s t := by
  simp only [restoreCheckpointAttachmentLease] at h
  split at h
  · cases h
  split at h
  · cases h
  split at h
  · cases h
  iterate 2
    split at h
    · cases h
  rw [← ok.inj h]
  exact .of_eq rfl rfl rfl rfl rfl rfl rfl

/-- The books and the room under a configuration. -/
structure OrderlyAt (crypto : Crypto) (accounts : Set Bytes) (cfg : Config) (s : Store) : Prop where
  inOrder : InOrder crypto accounts s
  cfg : s.cfg = cfg

theorem OrderlyAt.alike (hs : OrderlyAt crypto accounts cfg s) (h : Alike s t) :
    OrderlyAt crypto accounts cfg t :=
  ⟨hs.inOrder.alike h, h.cfg.trans hs.cfg⟩

theorem restoreCheckpointGroup_orderly (hs : OrderlyAt crypto accounts cfg s)
    (h : s.restoreCheckpointGroup crypto bytes capturedAtMs alloc = .ok t) :
    OrderlyAt crypto accounts cfg t := by
  simp only [restoreCheckpointGroup] at h
  split at h
  · cases h
  rename_i signed hvalid
  iterate 2
    split at h
    · cases h
  rcases prepareGroupRevoke_cases crypto s signed capturedAtMs alloc with
    ⟨e, heq, -⟩ | ⟨old, hold, heq⟩ | ⟨added, reserved, room, -, -, -, hnew, -, -, -, hreserve, heq⟩
  · rw [heq] at h
    cases e <;> cases h
  · rw [heq] at h
    rw [← ok.inj h]
    exact hs
  · rw [heq] at h
    rw [← ok.inj h]
    refine ⟨commitGroupRevoke_inOrder hs.inOrder hnew hreserve, ?_⟩
    obtain ⟨index, hreserved⟩ := reserveAccountOrigin_frame hreserve
    obtain ⟨routes, soft, index', faulted, hcommit⟩ :=
      commitGroupRevoke_frame crypto reserved signed.offer.token signed
    rw [hcommit, hreserved]
    exact hs.cfg

theorem reading_init (crypto : Crypto) (accounts : Set Bytes) (cfg : Config) :
    Reading crypto accounts cfg 0 0 (initWithConfig cfg) :=
  ⟨books_init crypto accounts cfg, rfl, Nat.le_refl 0, Nat.le_refl 0⟩

variable {xs rest : Bytes}

/-- The entries of any octets. -/
theorem readEntries_reading {count : Nat} (hinj : Distinguishes crypto accounts)
    (hin : PresentsImage accounts whole) (hend : xs <:+ whole)
    (h : readRecords (fun n => readEntry crypto capturedAtMs (recordSites alloc n)) count 0
      (initWithConfig cfg) xs = .ok (t, rest)) : Reading crypto accounts cfg count count t := by
  have hread := (readRecords_rule (P := fun n => Reading crypto accounts cfg n n) whole
    (fun n s => readEntry_leaves s) ?_ hend (reading_init crypto accounts cfg) h).1
  · rw [Nat.zero_add] at hread
    exact hread
  · intro n s s' ys zs hends hs hone
    obtain ⟨wire, mid, hwire, hone⟩ := cursor_bind_ok hone
    obtain ⟨updatedAtMs, mid', -, hone⟩ := cursor_bind_ok hone
    obtain ⟨marker, mid'', -, hone⟩ := cursor_bind_ok hone
    exact restoreCheckpointEntry_reading hinj
      (fun signed => hin wire signed (readWire_within hends hwire)) hs (check_ok hone)

theorem putEntry_reading {e : Entry} (hinj : Distinguishes crypto accounts)
    (hin : lowerString e.account ∈ accounts)
    (hs : Reading crypto accounts cfg n n s) (h : putEntry crypto capturedAtMs alloc s e = .ok t) :
    Reading crypto accounts cfg (n + 1) (n + 1) t := by
  obtain ⟨wire, hwire, hput⟩ := bind_ok h
  have hsame : wire = e.wire.wire := by
    unfold checkWire at hwire
    split_ifs at hwire
    · exact (ok.inj hwire).symm
  subst hsame
  refine restoreCheckpointEntry_reading hinj (fun signed hdecode _ => ?_) hs hput
  rw [decodeOffer_wire] at hdecode
  rw [← ok.inj hdecode]
  exact hin

/-- The entries of the store's own image. -/
theorem putEntries_reading {rows : List (Sigma fun _ : OriginKey => Entry)}
    (hinj : Distinguishes crypto accounts)
    (hin : ∀ slot ∈ rows, lowerString slot.2.account ∈ accounts)
    (hs : Reading crypto accounts cfg n n s)
    (h : putRows (fun n self slot => putEntry crypto capturedAtMs (recordSites alloc n) self slot.2)
      rows n s = .ok t) : Reading crypto accounts cfg (n + rows.length) (n + rows.length) t := by
  induction rows generalizing n s with
  | nil => exact ok.inj h ▸ hs
  | cons slot rows ih =>
    obtain ⟨hfirst, hrest⟩ := List.forall_mem_cons.mp hin
    obtain ⟨u, hput, hputs⟩ := bind_ok h
    have hall := ih hrest (putEntry_reading hinj hfirst hs hput) hputs
    rw [List.length_cons, Nat.add_comm rows.length, ← Nat.add_assoc]
    exact hall

theorem readTombstones_reading {entries count site : Nat}
    (hs : Reading crypto accounts cfg entries site s)
    (h : readRecords (fun n => readTombstone crypto capturedAtMs (recordSites alloc n)) count
      site s xs = .ok (t, rest)) : Reading crypto accounts cfg entries (site + count) t := by
  refine (readRecords_rule (P := fun n => Reading crypto accounts cfg entries n) xs
    (fun n s => readTombstone_leaves s) ?_ (List.suffix_refl xs) hs h).1
  intro n s s' ys zs hends hs hone
  obtain ⟨wire, mid, -, hone⟩ := cursor_bind_ok hone
  obtain ⟨removedAtMs, mid', -, hone⟩ := cursor_bind_ok hone
  obtain ⟨identity, mid'', -, hone⟩ := cursor_bind_ok hone
  obtain ⟨marker, mid''', -, hone⟩ := cursor_bind_ok hone
  exact restoreCheckpointTombstone_reading hs (check_ok hone)

theorem restoreRecords_orderly {counts : CheckpointCounts}
    (hentries : ∀ u mid,
      readRecords (fun n => readEntry crypto capturedAtMs (recordSites alloc n)) counts.entries 0
        (initWithConfig cfg) xs = .ok (u, mid) →
        Reading crypto accounts cfg counts.entries counts.entries u)
    (hcap : counts.entries ≤ cfg.maxEntries)
    (hcombined : counts.entries + counts.tombstones ≤ cfg.maxEntries + cfg.maxTombstones)
    (h : restoreRecords crypto cfg capturedAtMs counts alloc xs = .ok (t, rest)) :
    OrderlyAt crypto accounts cfg t := by
  obtain ⟨u, mid, hread, h⟩ := cursor_bind_ok h
  have hu := hentries u mid hread
  obtain ⟨v, mid, hread, h⟩ := cursor_bind_ok h
  have hv := readTombstones_reading hu hread
  have hrows := hv.rowsCount
  have horder : OrderlyAt crypto accounts cfg v := by
    refine ⟨⟨hv.books, ⟨?_, ?_⟩⟩, hv.cfg⟩
    · rw [hv.cfg]
      exact hv.entriesCount.trans hcap
    · rw [hv.cfg]
      exact hrows.trans hcombined
  obtain ⟨w, mid, hread, h⟩ := cursor_bind_ok h
  have hw :=
    readRecords_keep (P := OrderlyAt crypto accounts cfg) (fun n s => readQuarantine_leaves s)
    (fun n s s' ys zs hs hone => by
    obtain ⟨first, _, -, hone⟩ := cursor_bind_ok hone
    obtain ⟨second, _, -, hone⟩ := cursor_bind_ok hone
    obtain ⟨expiresAtMs, _, -, hone⟩ := cursor_bind_ok hone
    obtain ⟨detectedAtMs, _, -, hone⟩ := cursor_bind_ok hone
    exact hs.alike (restoreCheckpointQuarantine_alike (check_ok hone))) horder hread
  obtain ⟨x, mid, hread, h⟩ := cursor_bind_ok h
  have hx := readRecords_keep (P := OrderlyAt crypto accounts cfg)
    (fun n s => readAttachmentLeaseRecord_leaves s) (fun n s s' ys zs hs hone => by
    obtain ⟨wire, _, -, hone⟩ := cursor_bind_ok hone
    obtain ⟨conflict, _, -, hone⟩ := cursor_bind_ok hone
    exact hs.alike (restoreCheckpointAttachmentLease_alike (check_ok hone))) hw hread
  exact readRecords_keep (P := OrderlyAt crypto accounts cfg) (fun n s => readGroup_leaves s)
    (fun n s s' ys zs hs hone => by
    obtain ⟨wire, _, -, hone⟩ := cursor_bind_ok hone
    exact restoreCheckpointGroup_orderly hs (check_ok hone)) hx h

theorem readHeader_answers : Answers
    (fun header : Int64 × CheckpointCounts => header.2.entries ≤ maxU32 ∧
      header.2.tombstones ≤ maxU32)
    readHeader := by
  refine .bind fun _ => .bind fun version => ?_
  split
  · exact fun _ _ _ h => nomatch h
  refine .bind fun capturedAtMs => ?_
  split
  · exact fun _ _ _ h => nomatch h
  exact .andThen readU32_answers fun entries hentries =>
    .andThen readU32_answers fun tombstones htombstones =>
    .bind fun _ => .bind fun _ => .bind fun _ _ a _ h => by
      rw [(cursor_pure_ok h).1]
      exact ⟨hentries, htombstones⟩

/-- The bounds of a header that was accepted. -/
theorem counts_within {counts : CheckpointCounts} (hentries : counts.entries ≤ maxU32)
    (htombstones : counts.tombstones ≤ maxU32) (h : counts.exceed cfg = false) :
    counts.entries ≤ cfg.maxEntries ∧
      counts.entries + counts.tombstones ≤ cfg.maxEntries + cfg.maxTombstones := by
  simp only [CheckpointCounts.exceed, Bool.or_eq_false_iff] at h
  obtain ⟨⟨⟨⟨-, hcap⟩, hcombined⟩, -⟩, -⟩ := h
  have hslots := not_lt.mp (of_decide_eq_false hcombined)
  have hsmall : counts.entries + counts.tombstones ≤ usizeLimit - 1 := by
    simp only [maxU32, usizeLimit] at hentries htombstones ⊢
    omega
  rw [saturatingAdd, min_eq_left hsmall] at hslots
  exact ⟨not_lt.mp (of_decide_eq_false hcap), hslots.trans (min_le_left _ _)⟩

/-- A restore is a reading of the body and a sweep. -/
theorem restoreUpgradeCheckpoint_ok
    (h : restoreUpgradeCheckpoint crypto cfg bytes restoreNowMs alloc = .ok t) :
    ∃ body capturedAtMs counts mid read rest, body <+: bytes ∧
      body = bytes.take (bytes.length - upgradeCheckpointChecksumLen) ∧
      readHeader body = .ok ((capturedAtMs, counts), mid) ∧ counts.exceed cfg = false ∧
      restoreRecords crypto cfg capturedAtMs counts alloc mid = .ok (read, rest) ∧
      t = read.sweep crypto restoreNowMs := by
  simp only [restoreUpgradeCheckpoint] at h
  iterate 3
    split at h
    · cases h
  split at h
  · cases h
  rename_i capturedAtMs counts mid hheader
  split at h
  · cases h
  rename_i hexceed
  iterate 2
    split at h
    · cases h
  split at h
  · cases h
  rename_i read rest hrecords
  split at h
  · cases h
  split at h
  · cases h
  · exact ⟨_, capturedAtMs, counts, mid, read, rest, List.take_prefix _ _, rfl, hheader,
      by simpa using hexceed, hrecords, (ok.inj h).symm⟩

theorem readHeader_leaves : LeavesEnd readHeader := by
  refine (take_leaves _).bind fun _ => readByte_leaves.bind fun _ => ?_
  split
  · exact leavesEnd_throw _
  refine readI64_leaves.bind fun _ => ?_
  split
  · exact leavesEnd_throw _
  · exact readU32_leaves.bind fun _ => readU32_leaves.bind fun _ => readU32_leaves.bind fun _ =>
      readU32_leaves.bind fun _ => readU32_leaves.bind fun _ => leavesEnd_pure _

/-- A store restored from any octets is in order. -/
theorem restoreUpgradeCheckpoint_orderly (hinj : Distinguishes crypto accounts)
    (hin : PresentsImage accounts bytes)
    (h : restoreUpgradeCheckpoint crypto cfg bytes restoreNowMs alloc = .ok t) :
    OrderlyAt crypto accounts cfg t := by
  obtain ⟨body, capturedAtMs, counts, mid, read, rest, hbody, -, hheader, hexceed, hrecords, rfl⟩ :=
    restoreUpgradeCheckpoint_ok h
  obtain ⟨hentries, htombstones⟩ := readHeader_answers _ _ _ hheader
  obtain ⟨hcap, hcombined⟩ := counts_within hentries htombstones hexceed
  have hinBody : PresentsImage accounts body := fun wire signed hwire =>
    hin wire signed (hwire.trans hbody.isInfix)
  have hread : OrderlyAt crypto accounts cfg read := by
    refine restoreRecords_orderly (fun u mid' hentries => ?_) hcap hcombined hrecords
    exact readEntries_reading hinj hinBody (readHeader_leaves _ _ _ hheader) hentries
  exact ⟨sweep_inOrder restoreNowMs hread.inOrder,
    (sweep_cfg crypto read restoreNowMs).trans hread.cfg⟩

variable {encodeAlloc : Allocator}

/-- A restore of the store's own image reads the rows of the store. -/
theorem upgraded_reads
    (h : s.upgraded crypto capturedAtMs restoreNowMs encodeAlloc alloc = .ok t) :
    ∃ read rest, 0 ≤ capturedAtMs ∧ s.checkpointCounts.exceed s.cfg = false ∧
      (∀ count ∈ s.counts, count ≤ maxU32) ∧ (∀ wire ∈ s.checkpointWires, wire.length ≤ maxU32) ∧
      restoreRecords crypto s.cfg capturedAtMs s.checkpointCounts alloc s.encodeRecords =
        .ok (read, rest) ∧
      t = read.sweep crypto restoreNowMs := by
  unfold upgraded at h
  split at h
  · cases h
  rename_i bytes hencode
  obtain ⟨hclock, hcounts, hwires, rfl⟩ := encodeUpgradeCheckpoint_ok hencode
  obtain ⟨body, capturedAtMs', counts, mid, read, rest, -, hbody, hheader, hexceed,
    hrecords, rfl⟩ :=
    restoreUpgradeCheckpoint_ok h
  rw [take_image] at hbody
  rw [hbody, takes_readHeader hclock hcounts] at hheader
  obtain ⟨hcaptured, rfl⟩ := Prod.mk.inj (ok.inj hheader)
  cases hcaptured
  exact ⟨read, rest, hclock, hexceed, hcounts, hwires, hrecords, rfl⟩

/-- A store restored from the image of one in order is in order. -/
theorem upgraded_orderly (hinj : Distinguishes crypto accounts)
    (hs : InOrder crypto accounts s)
    (h : s.upgraded crypto capturedAtMs restoreNowMs encodeAlloc alloc = .ok t) :
    OrderlyAt crypto accounts s.cfg t := by
  obtain ⟨read, rest, -, hexceed, hcounts, hwires, hrecords, rfl⟩ := upgraded_reads h
  obtain ⟨hcap, hcombined⟩ := counts_within (hcounts _ (by simp [Store.counts, checkpointCounts]))
    (hcounts _ (by simp [Store.counts, checkpointCounts])) hexceed
  have hread : OrderlyAt crypto accounts s.cfg read := by
    refine restoreRecords_orderly (fun u mid' hentries => ?_) hcap hcombined hrecords
    rw [encodeRecords, reads_entries hwires] at hentries
    cases hput : putRows
      (fun n self slot => putEntry crypto capturedAtMs (recordSites alloc n) self slot.2)
        s.entries.entries 0 (initWithConfig s.cfg) with
    | error e =>
      rw [hput] at hentries
      cases hentries
    | ok put =>
      rw [hput] at hentries
      cases hentries
      have hall := putEntries_reading hinj (fun slot hslot => hs.books.folded slot.1 slot.2
        (HashMap.mem_entries.mp hslot)) (reading_init crypto accounts s.cfg) hput
      rw [Nat.zero_add] at hall
      exact hall
  exact ⟨sweep_inOrder restoreNowMs hread.inOrder,
    (sweep_cfg crypto read restoreNowMs).trans hread.cfg⟩

/-- With the tags of the leases in order, that is a restore of its rows, one by one. -/
theorem upgraded_ok (htags : s.Tagged)
    (h : s.upgraded crypto capturedAtMs restoreNowMs encodeAlloc alloc = .ok t) :
    ∃ u, 0 ≤ capturedAtMs ∧ putRecords crypto s.cfg capturedAtMs alloc s = .ok u ∧
      t = u.sweep crypto restoreNowMs := by
  obtain ⟨read, rest, hclock, -, -, hwires, hrecords, rfl⟩ := upgraded_reads h
  have hread :
      restoreRecords crypto s.cfg capturedAtMs s.checkpointCounts alloc (s.encodeRecords ++ []) =
      (putRecords crypto s.cfg capturedAtMs alloc s).map fun u => (u, []) :=
        reads_restoreRecords hwires htags []
  rw [List.append_nil, hrecords] at hread
  cases hput : putRecords crypto s.cfg capturedAtMs alloc s with
  | error e =>
    rw [hput] at hread
    cases hread
  | ok u =>
    rw [hput] at hread
    cases hread
    exact ⟨read, hclock, rfl, rfl⟩

end Store

end OnyxServer.SessionReplica
