import OnyxServer.Outbox.Checkpoint

/-!
# The invariant of the outbox, and what it seals

No two rows and no two receipts share a peer and an id, no row excludes its own peer, and
the encoded rows fit a checkpoint. Such an outbox always seals; the validator accepts the
bytes, and a restore that verifies every wire finds the same rows.
-/
namespace OnyxServer.Outbox

open Lib List
open Relay.V2 (RelayId Crypto)

def Entry.key (entry : Entry) : UInt64 × RelayId := (entry.peer, entry.relayId)

def Receipt.key (receipt : Receipt) : UInt64 × RelayId := (receipt.peer, receipt.relayId)

/-- What a row takes up in a checkpoint. -/
def entryBytes (entry : Entry) : Nat := entryPrefixLen + entry.wire.length

def bodyLen (outbox : Outbox) : Nat :=
  outbox.receipts.length * receiptPrefixLen + (outbox.entries.map entryBytes).sum

structure Entry.Wf (entry : Entry) : Prop where
  exclusion : entry.excludedPeer ≠ entry.peer
  wireNonempty : 0 < entry.wire.length
  wireBound : entry.wire.length ≤ hardMaxWireBytes

structure Wf (outbox : Outbox) : Prop where
  configPos : 0 < outbox.maxEntries
  configBound : outbox.maxEntries ≤ hardMaxEntries
  entriesBound : outbox.entries.length ≤ outbox.maxEntries
  receiptsBound : outbox.receipts.length ≤ outbox.maxReceiptEntries
  entryKeys : (outbox.entries.map Entry.key).Nodup
  receiptKeys : (outbox.receipts.map Receipt.key).Nodup
  entry : ∀ entry ∈ outbox.entries, entry.Wf
  receiptPeer : ∀ receipt ∈ outbox.receipts, receipt.peer ≠ unboundPeer
  bodyBound : bodyLen outbox ≤ hardMaxCheckpointBytes - headerLen - checksumLen

theorem Entry.holds_iff {entry : Entry} {peer : UInt64} {relayId : RelayId} :
    entry.holds peer relayId = true ↔ entry.key = (peer, relayId) := by
  rw [Entry.holds, Bool.and_eq_true, beq_iff_eq, beq_iff_eq, Entry.key, Prod.mk.injEq]

theorem Receipt.holds_iff {receipt : Receipt} {peer : UInt64} {relayId : RelayId} :
    receipt.holds peer relayId = true ↔ receipt.key = (peer, relayId) := by
  rw [Receipt.holds, Bool.and_eq_true, beq_iff_eq, beq_iff_eq, Receipt.key, Prod.mk.injEq]

section Seal

variable {crypto : Crypto} {outbox : Outbox}

def sealedPrefix (outbox : Outbox) : Bytes := encodePrefix outbox (bodyLen outbox)

def sealedBytes (crypto : Crypto) (outbox : Outbox) : Bytes :=
  sealedPrefix outbox ++ (checkpointChecksum crypto (sealedPrefix outbox)).val

theorem measureEntries_ok {entries : List Entry} (h : ∀ entry ∈ entries, entry.Wf) {body : Nat}
    (hbound : body + (entries.map entryBytes).sum < usizeLimit) :
    measureEntries entries body = .ok (body + (entries.map entryBytes).sum) := by
  induction entries generalizing body with
  | nil => rfl
  | cons entry entries ih =>
    obtain ⟨hentry, hentries⟩ := forall_mem_cons.mp h
    have hpos := hentry.wireNonempty
    have hmax := hentry.wireBound
    rw [map_cons, sum_cons, entryBytes] at hbound
    rw [measureEntries, if_neg (by omega), if_neg hentry.exclusion, checkedAdd_some (by omega)]
    simp only
    rw [ih hentries (by omega), map_cons, sum_cons, entryBytes, Nat.add_assoc]

theorem encodeCheckpoint_eq (h : Wf outbox) (alloc : Allocator) :
    encodeCheckpoint crypto outbox alloc = if alloc 0 then .ok (sealedBytes crypto outbox)
      else .error .outOfMemory := by
  have hbody := h.bodyBound
  have hlimit : hardMaxCheckpointBytes < usizeLimit := by decide
  have hsize : headerLen + checksumLen ≤ hardMaxCheckpointBytes := by decide
  have hmul := checkedMul_some (show outbox.receipts.length * receiptPrefixLen < usizeLimit by
    rw [bodyLen] at hbody
    omega)
  have hmeasure := measureEntries_ok h.entry (show outbox.receipts.length * receiptPrefixLen +
      (outbox.entries.map entryBytes).sum < usizeLimit by
    rw [bodyLen] at hbody
    omega)
  rw [← bodyLen] at hmeasure
  have hpeers : outbox.receipts.any (fun receipt => receipt.peer == unboundPeer) = false := by
    rw [any_eq_false]
    intro receipt hreceipt
    rw [beq_iff_eq]
    exact h.receiptPeer receipt hreceipt
  have hpre := checkedAdd_some (show headerLen + bodyLen outbox < usizeLimit by omega)
  have htotal :=
    checkedAdd_some (show headerLen + bodyLen outbox + checksumLen < usizeLimit by omega)
  have hbounds := h.entriesBound
  have hreceipts := h.receiptsBound
  rw [encodeCheckpoint, if_neg (by omega)]
  simp only [hmul, hmeasure, hpeers, Bool.false_eq_true, if_false, hpre, htotal]
  rw [if_neg (by omega)]
  cases alloc 0 <;> rfl

end Seal

def prefixOf (entry : Entry) : EntryPrefix where
  peer := entry.peer
  excludedPeer := entry.excludedPeer
  relayId := entry.relayId
  retryAfterMs := entry.retryAfterMs
  attempts := entry.attempts
  wireLen := entry.wire.length

theorem encodeEntryPrefix_length (entry : Entry) :
    (encodeEntryPrefix entry).length = entryPrefixLen := by
  simp [encodeEntryPrefix, entry.relayId.property, entryPrefixLen]

theorem encodeEntry_length (entry : Entry) : (encodeEntry entry).length = entryBytes entry := by
  rw [encodeEntry, length_append, encodeEntryPrefix_length, entryBytes]

theorem encodeReceipt_length (receipt : Receipt) :
    (encodeReceipt receipt).length = receiptPrefixLen := by
  simp [encodeReceipt, receipt.relayId.property, receiptPrefixLen]

section Offsets

variable {front tail : Bytes} {pos : Nat}

theorem slice_after (hfront : front.length = pos) (start stop : Nat) :
    slice (front ++ tail) (pos + start) (pos + stop) = slice tail start stop := by
  rw [slice_skip hfront (by omega)]
  congr 1 <;> omega

theorem slice_at (hfront : front.length = pos) (stop : Nat) :
    slice (front ++ tail) pos (pos + stop) = slice tail 0 stop :=
  slice_after hfront 0 stop

theorem readEntryPrefix_encodeEntry (entry : Entry) (hwire : entry.wire.length < 256 ^ 4)
    (hfront : front.length = pos) :
    readEntryPrefix (front ++ (encodeEntry entry ++ tail)) pos = prefixOf entry := by
  have hid := entry.relayId.property
  simp only [readEntryPrefix, slice_at hfront, slice_after hfront, encodeEntry, encodeEntryPrefix,
    append_assoc, prefixOf]
  simp [slice_skip hid, slice_skip (beBytes_length _ _), slice_first (beBytes_length _ _),
    slice_first hid, u64_read, u32_read, beNat_beBytes hwire]

theorem readReceipt_encodeReceipt (receipt : Receipt) (hfront : front.length = pos) :
    readReceipt (front ++ (encodeReceipt receipt ++ tail)) pos = receipt := by
  have hid := receipt.relayId.property
  simp only [readReceipt, slice_at hfront, slice_after hfront, encodeReceipt, append_assoc]
  simp [slice_skip hid, slice_skip (beBytes_length _ _), slice_first (beBytes_length _ _),
    slice_first hid, u64_read, u32_read]

theorem slice_wire (entry : Entry) (hfront : front.length = pos) :
    slice (front ++ (encodeEntry entry ++ tail)) (pos + entryPrefixLen)
    (pos + entryPrefixLen + entry.wire.length) =
      entry.wire := by
  have hbytes : front ++ (encodeEntry entry ++ tail) =
      (front ++ encodeEntryPrefix entry) ++ (entry.wire ++ tail) := by
    rw [encodeEntry, append_assoc, append_assoc]
  refine slice_field hbytes ?_ rfl
  rw [length_append, hfront, encodeEntryPrefix_length]

end Offsets

/-! ## The two passes over sealed rows -/

section Passes

variable {crypto : Crypto} {bytes front tail : Bytes} {pos : Nat}

def entriesBytes (entries : List Entry) : Nat := (entries.map entryBytes).sum

theorem flatMap_encodeEntry_length (entries : List Entry) :
    (entries.flatMap encodeEntry).length = entriesBytes entries := by
  rw [entriesBytes, length_flatMap]
  congr 1
  exact map_congr_left fun entry _ => encodeEntry_length entry

theorem flatMap_encodeReceipt_length (receipts : List Receipt) :
    (receipts.flatMap encodeReceipt).length = receipts.length * receiptPrefixLen := by
  induction receipts with
  | nil => rfl
  | cons receipt receipts ih =>
    rw [flatMap_cons, length_append, encodeReceipt_length, ih, length_cons, Nat.succ_mul,
      Nat.add_comm]

theorem Entry.Wf.small {entry : Entry} (h : entry.Wf) : entry.wire.length < 256 ^ 4 := by
  have hmax := h.wireBound
  have : hardMaxWireBytes < 256 ^ 4 := by decide
  omega

/-- The look back meets the rows in front and no other. -/
theorem priorEntry_encoded {peer : UInt64} {relayId : RelayId} {rowStart rounds : Nat}
    {entries : List Entry}
    (front : Bytes) (hbytes : bytes = front ++ (entries.flatMap encodeEntry ++ tail))
    (hfront : front.length = pos)
    (hstart : rowStart = pos + entriesBytes entries) (hwf : ∀ entry ∈ entries, entry.Wf)
    (hkeys : ∀ entry ∈ entries, entry.key ≠ (peer, relayId)) :
    priorEntry bytes peer relayId rowStart rounds pos = false := by
  induction entries generalizing front pos rounds with
  | nil =>
    rw [entriesBytes, map_nil, sum_nil] at hstart
    cases rounds with
    | zero => rfl
    | succ rounds => rw [priorEntry, if_neg (by omega)]
  | cons entry entries ih =>
    obtain ⟨hentry, hentries⟩ := forall_mem_cons.mp hwf
    obtain ⟨hkey, hkeys⟩ := forall_mem_cons.mp hkeys
    rw [flatMap_cons, append_assoc] at hbytes
    have hread : readEntryPrefix bytes pos = prefixOf entry := by
      rw [hbytes]
      exact readEntryPrefix_encodeEntry entry hentry.small hfront
    cases rounds with
    | zero => rfl
    | succ rounds =>
      rw [priorEntry]
      split
      · simp only [hread, prefixOf]
        rw [if_neg fun hsame => hkey (Prod.ext hsame.1 hsame.2)]
        refine ih (front ++ encodeEntry entry) (by rw [hbytes, append_assoc]) ?_ ?_ hentries hkeys
        · rw [length_append, hfront, encodeEntry_length, entryBytes, Nat.add_assoc]
        · rw [hstart, entriesBytes, map_cons, sum_cons, entriesBytes, entryBytes]
          omega
      · rfl

theorem validateEntries_encoded {before entries : List Entry} {header : Bytes} {prefixLen : Nat}
    (hbytes : bytes = header ++ ((before ++ entries).flatMap encodeEntry ++ tail))
    (hheader : header.length = headerLen)
    (hpos : pos = headerLen + entriesBytes before) (hwf : ∀ entry ∈ before ++ entries, entry.Wf)
    (hkeys : ((before ++ entries).map Entry.key).Nodup)
    (hlen : headerLen + entriesBytes (before ++ entries) ≤ prefixLen) :
    validateEntries bytes prefixLen entries.length pos =
      .ok (headerLen + entriesBytes (before ++ entries)) := by
  induction entries generalizing before pos with
  | nil =>
    rw [append_nil, hpos]
    rfl
  | cons entry entries ih =>
    have hentry := hwf entry (by simp)
    have hsplit : before ++ entry :: entries = (before ++ [entry]) ++ entries := by simp
    have hsum : entriesBytes (before ++ entry :: entries) =
        entriesBytes before + (entryBytes entry + entriesBytes entries) := by
      simp [entriesBytes]
    have hread : readEntryPrefix bytes pos = prefixOf entry := by
      have hsame : bytes = (header ++ before.flatMap encodeEntry) ++
          (encodeEntry entry ++ (entries.flatMap encodeEntry ++ tail)) := by
        rw [hbytes]
        simp
      rw [hsame]
      refine readEntryPrefix_encodeEntry entry hentry.small ?_
      rw [length_append, hheader, flatMap_encodeEntry_length, hpos]
    have hprior : priorEntry bytes entry.peer entry.relayId pos pos headerLen = false := by
      have hsame :
          bytes = header ++
            (before.flatMap encodeEntry ++ ((entry :: entries).flatMap encodeEntry ++ tail)) := by
        rw [hbytes]
        simp
      refine priorEntry_encoded header hsame hheader hpos ?_ ?_
      · exact fun prior hmem => hwf prior (mem_append_left _ hmem)
      · intro prior hmem hkey
        rw [map_append, map_cons, nodup_append] at hkeys
        exact hkeys.2.2 prior.key (mem_map_of_mem hmem) entry.key mem_cons_self hkey
    have hnonempty := hentry.wireNonempty
    have hmax := hentry.wireBound
    have hexcluded := hentry.exclusion
    rw [hsum, entryBytes] at hlen
    rw [length_cons, validateEntries, if_neg (by omega)]
    simp only [hread, prefixOf]
    rw [if_neg hexcluded, if_neg (by omega), hprior, if_neg (by simp), hsplit]
    rw [hsplit] at hbytes hwf hkeys
    refine ih hbytes ?_ hwf hkeys ?_
    · simp only [entriesBytes, map_append, sum_append, map_cons, map_nil, sum_cons,
        sum_nil, entryBytes] at hpos ⊢
      omega
    · rw [← hsplit, hsum, entryBytes]
      omega

theorem readReceipt_flatMap {receipts : List Receipt} {start index : Nat} {receipt : Receipt}
    (hbytes : bytes = front ++ (receipts.flatMap encodeReceipt ++ tail))
    (hfront : front.length = start)
    (hat : receipts[index]? = some receipt) : readReceipt bytes (start + index * receiptPrefixLen) =
      receipt := by
  obtain ⟨hlt, rfl⟩ := List.getElem?_eq_some_iff.mp hat
  have hsame : bytes = (front ++ (receipts.take index).flatMap encodeReceipt) ++
      (encodeReceipt receipts[index] ++
        ((receipts.drop (index + 1)).flatMap encodeReceipt ++ tail)) := by
    have hflat : receipts.flatMap encodeReceipt = (receipts.take index).flatMap encodeReceipt ++
        (encodeReceipt receipts[index] ++ (receipts.drop (index + 1)).flatMap encodeReceipt) := by
      rw [← flatMap_cons, ← drop_eq_getElem_cons hlt, ← flatMap_append, take_append_drop]
    rw [hbytes, hflat]
    simp only [append_assoc]
  rw [hsame]
  refine readReceipt_encodeReceipt _ ?_
  rw [length_append, hfront, flatMap_encodeReceipt_length, length_take, Nat.min_eq_left hlt.le]

theorem validateReceipts_encoded {before receipts : List Receipt} {prefixLen start : Nat}
    (hbytes : bytes = front ++ ((before ++ receipts).flatMap encodeReceipt ++ tail))
    (hfront : front.length = start) (hpeer : ∀ receipt ∈ receipts, receipt.peer ≠ unboundPeer)
    (hkeys : ((before ++ receipts).map Receipt.key).Nodup)
    (hlen : start + (before ++ receipts).length * receiptPrefixLen ≤ prefixLen) :
    validateReceipts bytes prefixLen start receipts.length before.length
      (start + before.length * receiptPrefixLen) =
      .ok (start + (before ++ receipts).length * receiptPrefixLen) := by
  induction receipts generalizing before with
  | nil => simp [validateReceipts]
  | cons receipt receipts ih =>
    obtain ⟨hfirst, hrest⟩ := forall_mem_cons.mp hpeer
    have hsplit : before ++ receipt :: receipts = (before ++ [receipt]) ++ receipts := by simp
    have hread : readReceipt bytes (start + before.length * receiptPrefixLen) = receipt :=
      readReceipt_flatMap hbytes hfront (by simp)
    have hprior : (List.range before.length).any (fun priorIndex =>
        (readReceipt bytes (start + priorIndex * receiptPrefixLen)).holds receipt.peer
        receipt.relayId) = false := by
      rw [any_eq_false]
      intro index hindex
      rw [mem_range] at hindex
      have hat : (before ++ receipt :: receipts)[index]? = some before[index] := by
        rw [List.getElem?_append_left hindex, List.getElem?_eq_getElem hindex]
      rw [readReceipt_flatMap hbytes hfront hat, Receipt.holds_iff]
      intro hkey
      rw [map_append, map_cons, nodup_append] at hkeys
      exact hkeys.2.2 _ (mem_map_of_mem (getElem_mem hindex)) receipt.key mem_cons_self hkey
    rw [length_append, length_cons, Nat.add_mul, Nat.succ_mul] at hlen
    rw [length_cons, validateReceipts, if_neg (by omega)]
    simp only [hread, hprior]
    rw [if_neg hfirst, if_neg (by simp), hsplit]
    rw [hsplit] at hbytes hkeys
    have hnext := ih hbytes hrest hkeys (by
      rw [← hsplit, length_append, length_cons, Nat.add_mul, Nat.succ_mul]
      omega)
    rw [length_append, length_singleton, Nat.succ_mul, ← Nat.add_assoc] at hnext
    exact hnext

theorem decodeReceipts_encoded {receipts : List Receipt}
    (hbytes : bytes = front ++ (receipts.flatMap encodeReceipt ++ tail))
    (hfront : front.length = pos) :
    decodeReceipts bytes receipts.length pos = receipts := by
  induction receipts generalizing front pos with
  | nil => rfl
  | cons receipt receipts ih =>
    rw [flatMap_cons, append_assoc] at hbytes
    have hread : readReceipt bytes pos = receipt := by
      rw [hbytes]
      exact readReceipt_encodeReceipt receipt hfront
    rw [length_cons, decodeReceipts, hread]
    congr 1
    refine ih (by rw [hbytes, append_assoc]) ?_
    rw [length_append, hfront, encodeReceipt_length]

/-- A wire is restored under the id it was sealed with, if at all. -/
def Verifies (crypto : Crypto) (entry : Entry) : Prop :=
  ∃ msg, Relay.V2.decode entry.wire = .ok msg ∧
    Relay.V2.verifyAndRelayId crypto msg = .verified entry.relayId

variable {alloc : Allocator}

theorem decodeEntry_ok {entry restored : Entry}
    (h : decodeEntry crypto (prefixOf entry) entry.wire alloc = .ok restored) : restored = entry ∧
    Verifies crypto entry := by
  rw [decodeEntry] at h
  split at h
  · cases h
  split at h
  · cases h
  rename_i msg hmsg
  split_ifs at h
  split at h
  · next derived hverify =>
    split_ifs at h with hid
    rw [not_not] at hid
    refine ⟨?_, msg, hmsg, by rw [hverify, hid]; rfl⟩
    cases h
    rfl
  · cases h

theorem decodeEntry_verifies {entry : Entry} (h : Verifies crypto entry)
    (halloc : ∀ site, alloc site = true) : decodeEntry crypto (prefixOf entry) entry.wire alloc =
      .ok entry := by
  obtain ⟨msg, hmsg, hverify⟩ := h
  rw [decodeEntry, if_neg (by simp [halloc])]
  have hid : (prefixOf entry).relayId = entry.relayId := rfl
  simp only [hmsg, halloc, hverify, hid]
  rw [if_neg (by simp), if_neg (by simp)]
  rfl

/-- The second pass reads back the rows, and stops behind them. -/
theorem decodeEntries_encoded {entries : List Entry} {site : Nat}
    (hbytes : bytes = front ++ (entries.flatMap encodeEntry ++ tail)) (hfront : front.length = pos)
    (hwf : ∀ entry ∈ entries, entry.Wf) :
    (∀ restored after, decodeEntries crypto bytes alloc entries.length site pos =
      .ok (restored, after) → restored = entries ∧ after = pos + entriesBytes entries) ∧
    ((∀ entry ∈ entries, Verifies crypto entry) → (∀ site, alloc site = true) →
      decodeEntries crypto bytes alloc entries.length site pos =
        .ok (entries, pos + entriesBytes entries)) := by
  induction entries generalizing front pos site with
  | nil =>
    constructor
    · intro restored after h
      cases h
      exact ⟨rfl, rfl⟩
    · intro _ _
      rfl
  | cons entry entries ih =>
    obtain ⟨hentry, hentries⟩ := forall_mem_cons.mp hwf
    rw [flatMap_cons, append_assoc] at hbytes
    have hread : readEntryPrefix bytes pos = prefixOf entry := by
      rw [hbytes]
      exact readEntryPrefix_encodeEntry entry hentry.small hfront
    have hwire : slice bytes (pos + entryPrefixLen) (pos + entryPrefixLen + entry.wire.length) =
        entry.wire := by
      rw [hbytes]
      exact slice_wire entry hfront
    have hsum : pos + entryPrefixLen + entry.wire.length + entriesBytes entries =
        pos + entriesBytes (entry :: entries) := by
      simp only [entriesBytes, map_cons, sum_cons, entryBytes]
      omega
    have hnext : (front ++ encodeEntry entry).length =
        pos + entryPrefixLen + entry.wire.length := by
      rw [length_append, hfront, encodeEntry_length, entryBytes, Nat.add_assoc]
    obtain ⟨hsound, hcomplete⟩ :=
      @ih (front ++ encodeEntry entry) _ (site + 3) (by rw [hbytes, append_assoc]) hnext hentries
    have hlen : (prefixOf entry).wireLen = entry.wire.length := rfl
    constructor
    · intro restored after h
      rw [length_cons, decodeEntries] at h
      simp only [hread, hlen, hwire] at h
      split at h
      · cases h
      rename_i first hfirst
      split at h
      · cases h
      rename_i rest stop hrest
      cases h
      obtain ⟨rfl, rfl⟩ := hsound rest after hrest
      rw [(decodeEntry_ok hfirst).1]
      exact ⟨rfl, hsum⟩
    · intro hverify halloc
      obtain ⟨hfirst, hrest⟩ := forall_mem_cons.mp hverify
      rw [length_cons, decodeEntries]
      simp only [hread, hlen, hwire, decodeEntry_verifies hfirst fun n => halloc (site + n),
        hcomplete hrest halloc, hsum]

end Passes

section Checkpoint

variable {crypto : Crypto} {outbox : Outbox}

theorem encodeHeader_length (maxEntries count receiptCount body : Nat) :
    (encodeHeader maxEntries count receiptCount body).length = headerLen := by
  simp [encodeHeader, magic, headerLen]

theorem encodeHeader_fields {maxEntries count receiptCount body : Nat} (hmax : maxEntries < 256 ^ 4)
    (hcount : count < 256 ^ 4) (hreceipts : receiptCount < 256 ^ 4) (hbody : body < 256 ^ 4)
    (tail : Bytes) :
    let bytes := encodeHeader maxEntries count receiptCount body ++ tail
    bytes.take 4 = magic ∧ slice bytes 4 5 = [version] ∧ beNat (slice bytes 5 9) = maxEntries ∧
      beNat (slice bytes 9 13) = count ∧ beNat (slice bytes 13 17) = receiptCount ∧
        beNat (slice bytes 17 21) = body := by
  intro bytes
  have hfive : (magic ++ [version]).length = 5 := rfl
  have hbytes : bytes = (magic ++ [version]) ++ (beBytes 4 maxEntries ++ (beBytes 4 count ++
      (beBytes 4 receiptCount ++ (beBytes 4 body ++ tail)))) := by
    simp [bytes, encodeHeader]
  refine ⟨rfl, rfl, ?_, ?_, ?_, ?_⟩ <;>
    rw [hbytes, slice_skip hfive (by decide)] <;>
    simp only [slice_skip (beBytes_length _ _), slice_first (beBytes_length _ _), Nat.reduceSub,
      Nat.reduceLeDiff] <;>
    exact beNat_beBytes (by assumption)

theorem sealedPrefix_length (outbox : Outbox) :
    (sealedPrefix outbox).length = headerLen + bodyLen outbox := by
  rw [sealedPrefix, encodePrefix, length_append, encodeHeader_length, length_append,
    flatMap_encodeEntry_length, flatMap_encodeReceipt_length, bodyLen, entriesBytes]
  omega

theorem sealedBytes_eq (crypto : Crypto) (outbox : Outbox) :
    sealedBytes crypto outbox = encodeHeader outbox.maxEntries outbox.entries.length
      outbox.receipts.length (bodyLen outbox) ++ (outbox.entries.flatMap encodeEntry ++
        (outbox.receipts.flatMap encodeReceipt ++
          (checkpointChecksum crypto (sealedPrefix outbox)).val)) := by
  rw [sealedBytes]
  conv => lhs; lhs; rw [sealedPrefix, encodePrefix]
  simp only [append_assoc]

theorem validateCheckpoint_sealed (h : Wf outbox) :
    validateCheckpoint crypto (sealedBytes crypto outbox) =
      .ok ⟨outbox.maxEntries, outbox.entries.length, outbox.receipts.length⟩ := by
  have hconfigPos := h.configPos
  have hconfig := h.configBound
  have hentries := h.entriesBound
  have hreceipts := h.receiptsBound
  have hbody := h.bodyBound
  rw [maxReceiptEntries] at hreceipts
  have hlimits : hardMaxEntries < 256 ^ 4 ∧ hardMaxReceipts < 256 ^ 4 ∧
      hardMaxCheckpointBytes < 256 ^ 4 ∧
      hardMaxCheckpointBytes < usizeLimit ∧
        headerLen + checksumLen ≤ hardMaxCheckpointBytes := by decide
  obtain ⟨hmaxLimit, hreceiptLimit, hbytesLimit, husize, hroom⟩ := hlimits
  have hcap : min (outbox.maxEntries * 8) hardMaxReceipts ≤ hardMaxReceipts := min_le_right _ _
  have hplen := sealedPrefix_length outbox
  have hlen : (sealedBytes crypto outbox).length = headerLen + bodyLen outbox + checksumLen := by
    rw [sealedBytes, length_append, hplen,
      (checkpointChecksum crypto (sealedPrefix outbox)).property, checksumLen]
  have hbytes := sealedBytes_eq crypto outbox
  obtain ⟨hmagic, hversion, hmax, hcount, hreceiptCount, hbodyLen⟩ := encodeHeader_fields
    (show outbox.maxEntries < 256 ^ 4 by omega) (show outbox.entries.length < 256 ^ 4 by omega)
    (show outbox.receipts.length < 256 ^ 4 by omega) (show bodyLen outbox < 256 ^ 4 by omega)
    (outbox.entries.flatMap encodeEntry ++
      (outbox.receipts.flatMap encodeReceipt ++
        (checkpointChecksum crypto (sealedPrefix outbox)).val))
  rw [← hbytes] at hmagic hversion hmax hcount hreceiptCount hbodyLen
  have htake : (sealedBytes crypto outbox).take (headerLen + bodyLen outbox) =
      sealedPrefix outbox :=
    take_left' hplen
  have hdrop : (sealedBytes crypto outbox).drop (headerLen + bodyLen outbox) =
      (checkpointChecksum crypto (sealedPrefix outbox)).val := drop_left' hplen
  have hpre := checkedAdd_some (show headerLen + bodyLen outbox < usizeLimit by omega)
  have htotal :=
    checkedAdd_some (show headerLen + bodyLen outbox + checksumLen < usizeLimit by omega)
  have hsum : headerLen + entriesBytes outbox.entries + outbox.receipts.length * receiptPrefixLen =
      headerLen + bodyLen outbox := by
    rw [bodyLen, entriesBytes]
    omega
  have hvalidEntries : validateEntries (sealedBytes crypto outbox) (headerLen + bodyLen outbox)
      outbox.entries.length headerLen = .ok (headerLen + entriesBytes outbox.entries) :=
    @validateEntries_encoded _ _ _ [] outbox.entries _ _ hbytes
      (encodeHeader_length _ _ _ _) rfl h.entry h.entryKeys
      (by rw [nil_append]; omega)
  have hreceiptFront : sealedBytes crypto outbox =
      (encodeHeader outbox.maxEntries outbox.entries.length outbox.receipts.length
        (bodyLen outbox) ++ outbox.entries.flatMap encodeEntry) ++
      (outbox.receipts.flatMap encodeReceipt ++
        (checkpointChecksum crypto (sealedPrefix outbox)).val) := by
    rw [hbytes, append_assoc]
  have hreceiptStart :
      (encodeHeader outbox.maxEntries outbox.entries.length outbox.receipts.length
        (bodyLen outbox) ++
      outbox.entries.flatMap encodeEntry).length = headerLen + entriesBytes outbox.entries := by
    rw [length_append, encodeHeader_length, flatMap_encodeEntry_length]
  have hvalidReceipts :=
    @validateReceipts_encoded _ _ _ [] outbox.receipts (headerLen + bodyLen outbox) _
    hreceiptFront hreceiptStart h.receiptPeer h.receiptKeys (by rw [nil_append, hsum])
  rw [nil_append, hsum, length_nil, Nat.zero_mul, Nat.add_zero] at hvalidReceipts
  rw [validateCheckpoint, hlen, if_neg (by omega), hmagic, hversion, if_neg (not_not.mpr rfl),
    if_neg (not_not.mpr rfl)]
  simp only [hmax, hcount, hreceiptCount, hbodyLen, hpre, htotal, htake, hdrop, hvalidEntries,
    hvalidReceipts]
  rw [if_neg (by omega), if_neg (by omega), if_neg (by omega), if_neg (by omega), if_neg (by omega),
    if_neg (by omega), if_neg (not_not.mpr rfl), if_neg (not_not.mpr rfl)]

/-- What a restore of the sealed bytes can answer: the same rows, and it does answer them
when every wire verifies, memory permitting. -/
theorem decodeCheckpoint_sealed (h : Wf outbox) (expectedMaxEntries : Nat) (alloc : Allocator) :
    (∀ restored, decodeCheckpoint crypto expectedMaxEntries (sealedBytes crypto outbox) alloc =
      .ok restored → restored = { outbox with entryRetryCursor := 0, receiptRetryCursor := 0 }) ∧
    (expectedMaxEntries = outbox.maxEntries → (∀ entry ∈ outbox.entries, Verifies crypto entry) →
      (∀ site, alloc site = true) →
      decodeCheckpoint crypto expectedMaxEntries (sealedBytes crypto outbox) alloc =
        .ok { outbox with entryRetryCursor := 0, receiptRetryCursor := 0 }) := by
  have hbytes := sealedBytes_eq crypto outbox
  have hreceipts : decodeReceipts (sealedBytes crypto outbox) outbox.receipts.length
      (headerLen + entriesBytes outbox.entries) = outbox.receipts := by
    refine decodeReceipts_encoded (hbytes.trans (append_assoc _ _ _).symm) ?_
    rw [length_append, encodeHeader_length, flatMap_encodeEntry_length]
  obtain ⟨hsound, hcomplete⟩ := @decodeEntries_encoded crypto _ _ _ _ alloc outbox.entries 1 hbytes
    (encodeHeader_length _ _ _ _) h.entry
  have hinit : init outbox.maxEntries = .ok ⟨outbox.maxEntries, [], [], 0, 0⟩ := by
    have hpos := h.configPos
    have hbound := h.configBound
    rw [init, if_neg (by omega)]
  rw [decodeCheckpoint, validateCheckpoint_sealed h]
  constructor
  · intro restored hok
    simp only at hok
    split at hok
    · cases hok
    rename_i hexpected
    rw [not_not] at hexpected
    rw [← hexpected, hinit] at hok
    simp only at hok
    split at hok
    · cases hok
    split at hok
    · cases hok
    rename_i entries stop hentries
    split_ifs at hok
    · cases hok
      obtain ⟨rfl, rfl⟩ := hsound entries stop hentries
      rw [hreceipts]
  · intro hexpected hverify halloc
    subst hexpected
    simp only [hinit, halloc, hcomplete hverify halloc, hreceipts]
    rw [if_neg (by simp), if_neg (by simp), if_neg (by simp)]

end Checkpoint

end OnyxServer.Outbox
