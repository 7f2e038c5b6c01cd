import OnyxServer.Lib.Trace
import OnyxServer.Outbox.Sealed

/-!
# Obligations over whole runs

Each operation keeps the invariant and says what becomes of every row it found. A row
leaves the outbox only under its own peer and id, and changes only where a row without a
peer is bound to one that may take it.
-/
namespace OnyxServer.Outbox

open Lib List
open Relay.V2 (RelayId Crypto)

/-- An operation with its arguments and the answers of the allocator. -/
inductive Op where
  | putBatchExcluding (peers : List UInt64) (receiptPeer : Option UInt64) (relayId : RelayId)
      (wire : Bytes)
      (retryAfterMs unboundExcludedPeer : UInt64) (alloc : Allocator)
  | acknowledge (peer : UInt64) (relayId : RelayId)
  | confirmReceipt (peer : UInt64) (relayId : RelayId)
  | bindUnbound (peer : UInt64)
  | collectDueEntries (nowMs : UInt64) (room : Nat)
  | collectDueReceipts (nowMs : UInt64) (room : Nat)
  | restore (expectedMaxEntries : Nat) (encodeAlloc decodeAlloc : Allocator)

inductive Answer where
  | status (result : Except Error Unit)
  | found (removed : Bool)
  | bound (count : Nat)
  | entries (page : List Entry)
  | receipts (page : List Receipt)

/-- Seal, and take over what is restored. A failure leaves the outbox as it was. -/
def restore (crypto : Crypto) (outbox : Outbox) (expectedMaxEntries : Nat)
    (encodeAlloc decodeAlloc : Allocator) :
    Except Error Unit × Outbox :=
  match encodeCheckpoint crypto outbox encodeAlloc with
  | .error e => (.error e, outbox)
  | .ok bytes =>
    match decodeCheckpoint crypto expectedMaxEntries bytes decodeAlloc with
    | .error e => (.error e, outbox)
    | .ok restored => (.ok (), restored)

def step (crypto : Crypto) (outbox : Outbox) : Op → Answer × Outbox
  | .putBatchExcluding peers receiptPeer relayId wire retryAfterMs unboundExcludedPeer alloc =>
    let (result, outbox) :=
      outbox.putBatchExcluding peers receiptPeer relayId wire retryAfterMs unboundExcludedPeer alloc
    (.status result, outbox)
  | .acknowledge peer relayId =>
    let (removed, outbox) := outbox.acknowledge peer relayId
    (.found removed, outbox)
  | .confirmReceipt peer relayId =>
    let (removed, outbox) := outbox.confirmReceipt peer relayId
    (.found removed, outbox)
  | .bindUnbound peer =>
    let (count, outbox) := outbox.bindUnbound peer
    (.bound count, outbox)
  | .collectDueEntries nowMs room =>
    let (page, outbox) := outbox.collectDueEntries nowMs room
    (.entries page, outbox)
  | .collectDueReceipts nowMs room =>
    let (page, outbox) := outbox.collectDueReceipts nowMs room
    (.receipts page, outbox)
  | .restore expectedMaxEntries encodeAlloc decodeAlloc =>
    let (result, outbox) := restore crypto outbox expectedMaxEntries encodeAlloc decodeAlloc
    (.status result, outbox)

/-- The row is there as it was, or it was acknowledged, or it had no peer and was bound to
one that it does not exclude and that does not hold its id. -/
def EntryFate (before after : Outbox) (op : Op) (entry : Entry) : Prop :=
  entry ∈ after.entries ∨ op = .acknowledge entry.peer entry.relayId ∨
    (entry.peer = unboundPeer ∧ ∃ peer, op = .bindUnbound peer ∧ peer ≠ unboundPeer ∧
      peer ≠ entry.excludedPeer ∧
      before.contains peer entry.relayId = false ∧ { entry with peer } ∈ after.entries)

def ReceiptFate (after : Outbox) (op : Op) (receipt : Receipt) : Prop :=
  receipt ∈ after.receipts ∨ op = .confirmReceipt receipt.peer receipt.relayId

theorem contains_false {outbox : Outbox} {peer : UInt64} {relayId : RelayId} :
    outbox.contains peer relayId = false ↔
    ∀ entry ∈ outbox.entries, entry.key ≠ (peer, relayId) := by
  rw [contains, any_eq_false]
  simp only [Entry.holds_iff, ne_eq]

theorem containsReceipt_false {outbox : Outbox} {peer : UInt64} {relayId : RelayId} :
    outbox.containsReceipt peer relayId = false ↔ ∀ receipt ∈ outbox.receipts, receipt.key ≠
      (peer, relayId) := by
  rw [containsReceipt, any_eq_false]
  simp only [Receipt.holds_iff, ne_eq]

section Removal

variable {α κ : Type} {key : α → κ} {p : α → Bool} {xs : List α}

theorem eraseIdx_findIdx {index : Nat} (h : xs.findIdx? p = some index) :
    ∃ l x r, xs = l ++ x :: r ∧ p x = true ∧ xs.eraseIdx index = l ++ r := by
  obtain ⟨hlt, hx, -⟩ := List.findIdx?_eq_some_iff_getElem.mp h
  refine ⟨xs.take index, xs[index], xs.drop (index + 1), ?_, hx, eraseIdx_eq_take_drop_succ _ _⟩
  rw [← drop_eq_getElem_cons hlt, take_append_drop]

end Removal

section Put

variable {outbox : Outbox} {relayId : RelayId}

theorem freshPeers_spec (peers prior : List UInt64) :
    (outbox.freshPeers relayId prior peers).Nodup ∧
      ∀ peer ∈ outbox.freshPeers relayId prior peers, peer ∈ peers ∧ peer ∉ prior ∧
      outbox.contains peer relayId = false := by
  induction peers generalizing prior with
  | nil => exact ⟨.nil, nofun⟩
  | cons peer peers ih =>
    obtain ⟨hnodup, hfresh⟩ := ih (prior ++ [peer])
    rw [freshPeers]
    split
    · refine ⟨hnodup, fun other hother => ?_⟩
      obtain ⟨hmem, hprior, hfree⟩ := hfresh other hother
      exact ⟨mem_cons_of_mem _ hmem, fun h => hprior (mem_append_left _ h), hfree⟩
    rename_i hnew
    rw [not_or, Bool.not_eq_true] at hnew
    refine ⟨nodup_cons.mpr ⟨fun hmem => ?_, hnodup⟩,
      forall_mem_cons.mpr ⟨?_, fun other hother => ?_⟩⟩
    · exact (hfresh peer hmem).2.1 (by simp)
    · exact ⟨mem_cons_self, hnew⟩
    · obtain ⟨hmem, hprior, hfree⟩ := hfresh other hother
      exact ⟨mem_cons_of_mem _ hmem, fun h => hprior (mem_append_left _ h), hfree⟩

theorem retainedBody_eq {entries : List Entry} {body total : Nat}
    (h : retainedBody entries body = some total) :
    total = body + (entries.map entryBytes).sum := by
  induction entries generalizing body with
  | nil =>
    cases h
    rfl
  | cons entry entries ih =>
    rw [retainedBody] at h
    split at h
    · cases h
    · next next hnext =>
      rw [ih h, checkedAdd_eq hnext, map_cons, sum_cons, entryBytes, Nat.add_assoc]

theorem checkedMul_eq {a b c : Nat} (h : checkedMul a b = some c) : c = a * b := by
  unfold checkedMul at h
  split at h
  · exact (Option.some.inj h).symm
  · cases h

theorem prospectiveBody_eq {needed wireLen total : Nat} {needsReceipt : Bool}
    (h : outbox.prospectiveBody needed wireLen needsReceipt = some total) :
    total = bodyLen outbox + needed * (entryPrefixLen + wireLen) + if needsReceipt then
      receiptPrefixLen else 0 := by
  rw [prospectiveBody] at h
  split at h
  · cases h
  rename_i receiptBytes hreceipts
  split at h
  · cases h
  rename_i retained hretained
  split at h
  · cases h
  rename_i added hadded
  split at h
  · cases h
  rename_i body hbody
  have hsum : body = bodyLen outbox + needed * (entryPrefixLen + wireLen) := by
    rw [checkedAdd_eq hbody, retainedBody_eq hretained, checkedMul_eq hreceipts,
      checkedMul_eq hadded, bodyLen]
  split at h
  · next hneeds =>
    rw [checkedAdd_eq h, hsum, hneeds, if_pos rfl]
  · next hneeds =>
    rw [Option.some.inj h.symm, hsum, if_neg hneeds, Nat.add_zero]

/-- What an admission that publishes has checked, and what it publishes. -/
structure Admits (outbox : Outbox) (peers : List UInt64) (receiptPeer : Option UInt64)
    (relayId : RelayId)
    (wire : Bytes) (retryAfterMs unboundExcludedPeer : UInt64) (fresh : List UInt64)
    (needsReceipt : Bool) (after : Outbox) : Prop where
  wireNonempty : 0 < wire.length
  wireBound : wire.length ≤ hardMaxWireBytes
  realReceiptPeer : receiptPeer ≠ some unboundPeer
  exclusion : unboundPeer ∈ peers → unboundExcludedPeer ≠ unboundPeer
  room : fresh.length ≤ outbox.maxEntries - outbox.entries.length
  receiptRoom : needsReceipt = true → outbox.receipts.length ≠ outbox.maxReceiptEntries
  bodyBound : bodyLen outbox + fresh.length * (entryPrefixLen + wire.length) +
    (if needsReceipt then receiptPrefixLen else 0) ≤
      hardMaxCheckpointBytes - headerLen - checksumLen
  published : after = { outbox with
    entries :=
      outbox.entries ++ fresh.map (stagedEntry relayId wire retryAfterMs unboundExcludedPeer)
    receipts := outbox.receipts ++ stagedReceipt receiptPeer needsReceipt relayId retryAfterMs }

theorem putBatchExcluding_cases (peers : List UInt64) (receiptPeer : Option UInt64) (wire : Bytes)
    (retryAfterMs unboundExcludedPeer : UInt64) (alloc : Allocator) :
    (outbox.putBatchExcluding peers receiptPeer relayId wire retryAfterMs unboundExcludedPeer
      alloc).2 = outbox ∨
      Admits outbox peers receiptPeer relayId wire retryAfterMs unboundExcludedPeer
        (outbox.freshPeers relayId [] peers)
        (receiptPeer.any fun peer => !outbox.containsReceipt peer relayId)
        (outbox.putBatchExcluding peers receiptPeer relayId wire retryAfterMs unboundExcludedPeer
          alloc).2 := by
  simp only [putBatchExcluding]
  split
  · exact .inl rfl
  rename_i hwire
  split
  · exact .inl rfl
  rename_i hreceiptPeer
  split
  · exact .inl rfl
  rename_i hexclusion
  split
  · exact .inl rfl
  split
  · exact .inl rfl
  rename_i hroom
  split
  · exact .inl rfl
  rename_i hreceiptRoom
  split
  · exact .inl rfl
  rename_i body hbody
  split
  · exact .inl rfl
  rename_i hbound
  split
  · exact .inl rfl
  rw [prospectiveBody_eq hbody] at hbound
  exact .inr {
    wireNonempty := by omega
    wireBound := by omega
    realReceiptPeer := hreceiptPeer
    exclusion := fun hmem hzero => hexclusion ⟨hmem, hzero⟩
    room := by omega
    receiptRoom := fun hneeds hfull => hreceiptRoom ⟨hneeds, hfull⟩
    bodyBound := by omega
    published := rfl }

theorem Admits.wf {peers fresh : List UInt64} {receiptPeer : Option UInt64} {wire : Bytes}
    {retryAfterMs unboundExcludedPeer : UInt64} {needsReceipt : Bool} {after : Outbox}
    (h : Wf outbox)
    (hadmits : Admits outbox peers receiptPeer relayId wire retryAfterMs unboundExcludedPeer fresh
      needsReceipt after)
    (hnodup : fresh.Nodup)
    (hfresh : ∀ peer ∈ fresh, peer ∈ peers ∧ outbox.contains peer relayId = false)
    (hneeds : needsReceipt = true → ∀ peer ∈ receiptPeer, outbox.containsReceipt peer relayId =
      false) : Wf after := by
  have hentries := h.entriesBound
  have hreceipts := h.receiptsBound
  have hroom := hadmits.room
  have hbody := hadmits.bodyBound
  have hstaged : ∀ receipt ∈ stagedReceipt receiptPeer needsReceipt relayId retryAfterMs,
      needsReceipt = true ∧ ∃ peer ∈ receiptPeer, receipt = ⟨peer, relayId, retryAfterMs, 0⟩ := by
    intro receipt hmem
    unfold stagedReceipt at hmem
    split at hmem
    · next peer =>
      split at hmem
      · next hneeds => exact ⟨hneeds, peer, rfl, mem_singleton.mp hmem⟩
      · cases hmem
    · cases hmem
  have hcount : (stagedReceipt receiptPeer needsReceipt relayId retryAfterMs).length ≤
      if needsReceipt then 1 else 0 := by
    unfold stagedReceipt
    cases receiptPeer <;> cases needsReceipt <;> simp
  have hstagedSum :
      ((fresh.map (stagedEntry relayId wire retryAfterMs unboundExcludedPeer)).map entryBytes).sum =
      fresh.length * (entryPrefixLen + wire.length) := by
    rw [map_map]
    show (fresh.map fun _ => entryPrefixLen + wire.length).sum = _
    simp
  rw [hadmits.published]
  constructor
  · exact h.configPos
  · exact h.configBound
  · simp only [length_append, length_map]
    omega
  · show (outbox.receipts ++ stagedReceipt receiptPeer needsReceipt relayId retryAfterMs).length ≤
      outbox.maxReceiptEntries
    rw [length_append]
    cases hflag : needsReceipt with
    | false =>
      rw [hflag] at hcount
      simp only [Bool.false_eq_true, if_false] at hcount
      omega
    | true =>
      have hfull := hadmits.receiptRoom hflag
      rw [hflag] at hcount
      simp only [if_true] at hcount
      omega
  · rw [map_append, nodup_append]
    refine ⟨h.entryKeys, ?_, ?_⟩
    · rw [map_map]
      refine hnodup.map fun a b hab => ?_
      exact congrArg Prod.fst hab
    · intro a ha b hb
      obtain ⟨entry, hentry, rfl⟩ := mem_map.mp ha
      simp only [map_map, mem_map] at hb
      obtain ⟨peer, hpeer, rfl⟩ := hb
      exact contains_false.mp (hfresh peer hpeer).2 entry hentry
  · rw [map_append, nodup_append]
    refine ⟨h.receiptKeys, ?_, ?_⟩
    · refine List.Nodup.map_on ?_ ?_
      · intro a ha b hb _
        obtain ⟨-, p, hp, rfl⟩ := hstaged a ha
        obtain ⟨-, q, hq, rfl⟩ := hstaged b hb
        rw [Option.mem_unique hp hq]
      · unfold stagedReceipt
        cases receiptPeer <;> cases needsReceipt <;> simp
    · intro a ha b hb
      obtain ⟨receipt, hreceipt, rfl⟩ := mem_map.mp ha
      obtain ⟨staged, hmem, rfl⟩ := mem_map.mp hb
      obtain ⟨hflag, peer, hpeer, rfl⟩ := hstaged staged hmem
      exact containsReceipt_false.mp (hneeds hflag peer hpeer) receipt hreceipt
  · intro entry hentry
    rcases mem_append.mp hentry with hold | hnew
    · exact h.entry entry hold
    obtain ⟨peer, hpeer, rfl⟩ := mem_map.mp hnew
    refine ⟨?_, hadmits.wireNonempty, hadmits.wireBound⟩
    show (if peer = unboundPeer then unboundExcludedPeer else 0) ≠ peer
    by_cases hzero : peer = unboundPeer
    · rw [if_pos hzero, hzero]
      exact hadmits.exclusion (hzero ▸ (hfresh peer hpeer).1)
    · rw [if_neg hzero]
      exact Ne.symm hzero
  · intro receipt hreceipt
    rcases mem_append.mp hreceipt with hold | hnew
    · exact h.receiptPeer receipt hold
    · obtain ⟨-, peer, hpeer, rfl⟩ := hstaged receipt hnew
      rintro rfl
      exact hadmits.realReceiptPeer hpeer
  · have hbound :
        (stagedReceipt receiptPeer needsReceipt relayId retryAfterMs).length * receiptPrefixLen ≤
        if needsReceipt then receiptPrefixLen else 0 := by
      refine (Nat.mul_le_mul_right _ hcount).trans ?_
      split <;> omega
    refine le_trans ?_ hbody
    simp only [bodyLen, length_append, map_append, sum_append, hstagedSum, Nat.add_mul]
    omega

theorem putBatchExcluding_spec (h : Wf outbox) (peers : List UInt64) (receiptPeer : Option UInt64)
    (wire : Bytes) (retryAfterMs unboundExcludedPeer : UInt64) (alloc : Allocator) :
    let after :=
      (outbox.putBatchExcluding peers receiptPeer relayId wire retryAfterMs
        unboundExcludedPeer alloc).2
    Wf after ∧ (∀ entry ∈ outbox.entries, entry ∈ after.entries) ∧
      ∀ receipt ∈ outbox.receipts, receipt ∈ after.receipts := by
  intro after
  rcases putBatchExcluding_cases peers receiptPeer wire retryAfterMs unboundExcludedPeer alloc with
    hsame | hadmits
  · rw [show after = outbox from hsame]
    exact ⟨h, fun _ hmem => hmem, fun _ hmem => hmem⟩
  obtain ⟨hnodup, hfresh⟩ := freshPeers_spec peers []
  refine ⟨hadmits.wf h hnodup (fun peer hpeer => ?_) (fun hneeds peer hpeer => ?_),
    fun entry hentry => ?_, fun receipt hreceipt => ?_⟩
  · exact ⟨(hfresh peer hpeer).1, (hfresh peer hpeer).2.2⟩
  · rw [Option.mem_def.mp hpeer] at hneeds
    simpa using hneeds
  · rw [show after = _ from hadmits.published]
    exact mem_append_left _ hentry
  · rw [show after = _ from hadmits.published]
    exact mem_append_left _ hreceipt

end Put

section Release

variable {outbox : Outbox}

theorem Wf.without (h : Wf outbox) {l r : List Entry} {removed : Entry}
    (hsplit : outbox.entries = l ++ removed :: r)
    (entryRetryCursor : Nat) : Wf { outbox with entries := l ++ r, entryRetryCursor } := by
  have hsub : (l ++ r).Sublist outbox.entries := by
    rw [hsplit]
    exact (sublist_cons_self removed r).append_left l
  constructor
  · exact h.configPos
  · exact h.configBound
  · exact hsub.length_le.trans h.entriesBound
  · exact h.receiptsBound
  · exact h.entryKeys.sublist (hsub.map _)
  · exact h.receiptKeys
  · exact fun entry hentry => h.entry entry (hsub.subset hentry)
  · exact h.receiptPeer
  · have hbody := h.bodyBound
    rw [bodyLen, hsplit] at hbody
    simp only [bodyLen, map_append, map_cons, sum_append, sum_cons] at hbody ⊢
    omega

theorem acknowledge_spec (h : Wf outbox) (peer : UInt64) (relayId : RelayId) :
    let after := (outbox.acknowledge peer relayId).2
    Wf after ∧
      (∀ entry ∈ outbox.entries, entry ∈ after.entries ∨
        (entry.peer = peer ∧ entry.relayId = relayId)) ∧
      after.receipts = outbox.receipts := by
  intro after
  have hafter : after = (outbox.acknowledge peer relayId).2 := rfl
  clear_value after
  rw [acknowledge] at hafter
  split at hafter
  · rw [hafter]
    exact ⟨h, fun _ hentry => .inl hentry, rfl⟩
  rename_i index hindex
  obtain ⟨l, removed, r, hsplit, hholds, herase⟩ := eraseIdx_findIdx hindex
  have hkey := Entry.holds_iff.mp hholds
  simp only [herase] at hafter
  subst hafter
  refine ⟨h.without hsplit _, fun entry hentry => ?_, rfl⟩
  rw [hsplit] at hentry
  rcases mem_append.mp hentry with hl | hr
  · exact .inl (mem_append_left _ hl)
  · rcases mem_cons.mp hr with rfl | hr
    · exact .inr (Prod.mk.inj hkey)
    · exact .inl (mem_append_right _ hr)

theorem confirmReceipt_spec (h : Wf outbox) (peer : UInt64) (relayId : RelayId) :
    let after := (outbox.confirmReceipt peer relayId).2
    Wf after ∧ after.entries = outbox.entries ∧
      ∀ receipt ∈ outbox.receipts, receipt ∈ after.receipts ∨
        (receipt.peer = peer ∧ receipt.relayId = relayId) := by
  intro after
  have hafter : after = (outbox.confirmReceipt peer relayId).2 := rfl
  clear_value after
  rw [confirmReceipt] at hafter
  split at hafter
  · rw [hafter]
    exact ⟨h, rfl, fun _ hreceipt => .inl hreceipt⟩
  rename_i index hindex
  obtain ⟨l, removed, r, hsplit, hholds, herase⟩ := eraseIdx_findIdx hindex
  have hkey := Receipt.holds_iff.mp hholds
  have hsub : (l ++ r).Sublist outbox.receipts := by
    rw [hsplit]
    exact (sublist_cons_self removed r).append_left l
  simp only [herase] at hafter
  subst hafter
  refine ⟨?_, rfl, fun receipt hreceipt => ?_⟩
  · constructor
    · exact h.configPos
    · exact h.configBound
    · exact h.entriesBound
    · exact hsub.length_le.trans h.receiptsBound
    · exact h.entryKeys
    · exact h.receiptKeys.sublist (hsub.map _)
    · exact h.entry
    · exact fun receipt hreceipt => h.receiptPeer receipt (hsub.subset hreceipt)
    · have hless := Nat.mul_le_mul_right receiptPrefixLen hsub.length_le
      have hbody := h.bodyBound
      simp only [bodyLen] at hbody ⊢
      omega
  · rw [hsplit] at hreceipt
    rcases mem_append.mp hreceipt with hl | hr
    · exact .inl (mem_append_left _ hl)
    · rcases mem_cons.mp hr with rfl | hr
      · exact .inr (Prod.mk.inj hkey)
      · exact .inl (mem_append_right _ hr)

end Release

section Bind

variable {peer : UInt64}

/-- What the loop makes of one row, where `rows` are those before it started. -/
def Binds (peer : UInt64) (rows : List Entry) (entry bound : Entry) : Prop :=
  bound = entry ∨ (entry.peer = unboundPeer ∧ entry.excludedPeer ≠ peer ∧
    (∀ other ∈ rows, other.key ≠ (peer, entry.relayId)) ∧ bound = { entry with peer })

/-- The loop binds in place; each binding keeps the keys apart, so the check of a later row
against the changed list says no less than a check against the first one. -/
theorem bindLoop_spec (hpeer : peer ≠ unboundPeer) (entries done : List Entry)
    (hkeys : ((done ++ entries).map Entry.key).Nodup) :
    ∃ bound, (bindLoop peer done entries).1 = done ++ bound ∧
    ((done ++ bound).map Entry.key).Nodup ∧
      List.Forall₂ (Binds peer (done ++ entries)) entries bound := by
  induction entries generalizing done with
  | nil => exact ⟨[], by rw [bindLoop, append_nil], hkeys, .nil⟩
  | cons entry entries ih =>
    rw [bindLoop]
    split
    · have hsplit : done ++ entry :: entries = (done ++ [entry]) ++ entries := by simp
      rw [hsplit] at hkeys ⊢
      obtain ⟨bound, hloop, hnodup, hbinds⟩ := ih (done ++ [entry]) hkeys
      refine ⟨entry :: bound, ?_, ?_, .cons (.inl rfl) hbinds⟩
      · rw [hloop]
        simp
      · simpa using hnodup
    rename_i hcheck
    rw [not_or, not_or, not_not, Bool.not_eq_true, any_eq_false] at hcheck
    obtain ⟨hunbound, hexcluded, hfree⟩ := hcheck
    simp only [Entry.holds_iff] at hfree
    have hnext : (((done ++ [{ entry with peer }]) ++ entries).map Entry.key).Nodup := by
      simp only [append_assoc, singleton_append, map_append, map_cons] at hkeys ⊢
      obtain ⟨hdone, hrest, hapart⟩ := nodup_append.mp hkeys
      obtain ⟨hnew, hentries⟩ := nodup_cons.mp hrest
      refine nodup_append.mpr ⟨hdone, nodup_cons.mpr ⟨fun hmem => ?_, hentries⟩,
        fun a ha b hb => ?_⟩
      · obtain ⟨other, hother, hkey⟩ := mem_map.mp hmem
        exact hfree other (mem_append_right _ (mem_cons_of_mem _ hother)) hkey
      · rcases mem_cons.mp hb with rfl | hb
        · obtain ⟨other, hother, rfl⟩ := mem_map.mp ha
          exact hfree other (mem_append_left _ hother)
        · exact hapart a ha b (mem_cons_of_mem _ hb)
    obtain ⟨bound, hloop, hnodup, hbinds⟩ := ih (done ++ [{ entry with peer }]) hnext
    refine ⟨{ entry with peer } :: bound, ?_, ?_, .cons ?_ ?_⟩
    · rw [hloop]
      simp
    · simpa using hnodup
    · exact .inr ⟨hunbound, hexcluded, hfree, rfl⟩
    · refine hbinds.imp fun row after hrow => ?_
      rcases hrow with rfl | ⟨hrowPeer, hrowExcluded, hrowFree, rfl⟩
      · exact .inl rfl
      refine .inr ⟨hrowPeer, hrowExcluded, fun other hother => ?_, rfl⟩
      rcases mem_append.mp hother with hdone | hrest
      · exact hrowFree other (by simp [hdone])
      rcases mem_cons.mp hrest with rfl | hrest
      · intro hkey
        rw [Entry.key, hunbound] at hkey
        exact hpeer (Prod.mk.inj hkey).1.symm
      · exact hrowFree other (by simp [hrest])

theorem Binds.wf {rows : List Entry} {entry bound : Entry} (h : Binds peer rows entry bound)
    (hentry : entry.Wf) :
    bound.Wf ∧ entryBytes bound = entryBytes entry := by
  rcases h with rfl | ⟨-, hexcluded, -, rfl⟩
  · exact ⟨hentry, rfl⟩
  · exact ⟨⟨hexcluded, hentry.wireNonempty, hentry.wireBound⟩, rfl⟩

theorem binds_wf {rows entries bound : List Entry}
    (h : List.Forall₂ (Binds peer rows) entries bound) (hentries : ∀ entry ∈ entries, entry.Wf) :
    (∀ entry ∈ bound, entry.Wf) ∧ bound.map entryBytes = entries.map entryBytes := by
  induction h with
  | nil => exact ⟨nofun, rfl⟩
  | cons hfirst hrest ih =>
    obtain ⟨hentry, hentries⟩ := forall_mem_cons.mp hentries
    obtain ⟨hwf, hbytes⟩ := hfirst.wf hentry
    obtain ⟨hrestWf, hrestBytes⟩ := ih hentries
    exact ⟨forall_mem_cons.mpr ⟨hwf, hrestWf⟩, by rw [map_cons, map_cons, hbytes, hrestBytes]⟩

theorem bindUnbound_spec {outbox : Outbox} (h : Wf outbox) (peer : UInt64) :
    let after := (outbox.bindUnbound peer).2
    Wf after ∧ (∀ entry ∈ outbox.entries, EntryFate outbox after (.bindUnbound peer) entry) ∧
      after.receipts = outbox.receipts := by
  intro after
  have hafter : after = (outbox.bindUnbound peer).2 := rfl
  clear_value after
  rw [bindUnbound] at hafter
  split at hafter
  · rw [hafter]
    exact ⟨h, fun _ hentry => .inl hentry, rfl⟩
  rename_i hpeer
  obtain ⟨bound, hloop, hnodup, hbinds⟩ := bindLoop_spec hpeer outbox.entries [] h.entryKeys
  simp only [hloop, nil_append] at hafter
  rw [nil_append] at hnodup hbinds
  subst hafter
  obtain ⟨hwf, hbytes⟩ := binds_wf hbinds h.entry
  refine ⟨?_, fun entry hentry => ?_, rfl⟩
  · constructor
    · exact h.configPos
    · exact h.configBound
    · exact hbinds.length_eq ▸ h.entriesBound
    · exact h.receiptsBound
    · exact hnodup
    · exact h.receiptKeys
    · exact hwf
    · exact h.receiptPeer
    · show outbox.receipts.length * receiptPrefixLen + (bound.map entryBytes).sum ≤ _
      rw [hbytes]
      exact h.bodyBound
  · obtain ⟨index, hlt, rfl⟩ := mem_iff_getElem.mp hentry
    have hlt' : index < bound.length := hbinds.length_eq ▸ hlt
    have hmem : bound[index] ∈ bound := getElem_mem hlt'
    rcases hbinds.get hlt hlt' with hsame | ⟨hunbound, hexcluded, hfree, hbound⟩
    · left
      rw [get_eq_getElem, get_eq_getElem] at hsame
      rw [hsame] at hmem
      exact hmem
    · refine .inr
        (.inr ⟨hunbound, peer, rfl, hpeer, Ne.symm hexcluded, contains_false.mpr hfree, ?_⟩)
      rw [get_eq_getElem, get_eq_getElem] at hbound
      rw [hbound] at hmem
      exact hmem

end Bind

section Runs

variable {crypto : Crypto} {outbox : Outbox}

theorem Wf.cursors (h : Wf outbox) (entryRetryCursor receiptRetryCursor : Nat) :
    Wf { outbox with entryRetryCursor, receiptRetryCursor } :=
  ⟨h.configPos, h.configBound, h.entriesBound, h.receiptsBound, h.entryKeys, h.receiptKeys, h.entry,
    h.receiptPeer, h.bodyBound⟩

theorem restore_rows (h : Wf outbox) (expectedMaxEntries : Nat)
    (encodeAlloc decodeAlloc : Allocator) :
    let after := (restore crypto outbox expectedMaxEntries encodeAlloc decodeAlloc).2
    after = outbox ∨ after = { outbox with entryRetryCursor := 0, receiptRetryCursor := 0 } := by
  intro after
  have hafter : after = (restore crypto outbox expectedMaxEntries encodeAlloc decodeAlloc).2 := rfl
  clear_value after
  rw [restore, encodeCheckpoint_eq h] at hafter
  split at hafter
  · exact .inl hafter
  rename_i bytes hbytes
  have hsealed : bytes = sealedBytes crypto outbox := by
    split at hbytes
    · exact (Except.ok.inj hbytes).symm
    · cases hbytes
  split at hafter
  · exact .inl hafter
  rename_i restored hrestored
  rw [hsealed] at hrestored
  right
  rw [hafter]
  exact (decodeCheckpoint_sealed h expectedMaxEntries decodeAlloc).1 restored hrestored

/-- One step: the invariant is kept, and every row and receipt has its fate. -/
theorem step_spec (h : Wf outbox) (op : Op) :
    Wf (step crypto outbox op).2 ∧
    (∀ entry ∈ outbox.entries, EntryFate outbox (step crypto outbox op).2 op entry) ∧
      ∀ receipt ∈ outbox.receipts, ReceiptFate (step crypto outbox op).2 op receipt := by
  cases op with
  | putBatchExcluding peers receiptPeer relayId wire retryAfterMs unboundExcludedPeer alloc =>
    obtain ⟨hwf, hentries, hreceipts⟩ :=
      @putBatchExcluding_spec outbox relayId h peers receiptPeer wire retryAfterMs
        unboundExcludedPeer alloc
    exact ⟨hwf, fun entry hentry => .inl (hentries entry hentry),
      fun receipt hreceipt => .inl (hreceipts receipt hreceipt)⟩
  | acknowledge peer relayId =>
    obtain ⟨hwf, hentries, hreceipts⟩ := acknowledge_spec h peer relayId
    refine ⟨hwf, fun entry hentry => ?_, fun receipt hreceipt => .inl (hreceipts ▸ hreceipt)⟩
    rcases hentries entry hentry with hkept | ⟨rfl, rfl⟩
    · exact .inl hkept
    · exact .inr (.inl rfl)
  | confirmReceipt peer relayId =>
    obtain ⟨hwf, hentries, hreceipts⟩ := confirmReceipt_spec h peer relayId
    refine ⟨hwf, fun entry hentry => .inl (hentries ▸ hentry), fun receipt hreceipt => ?_⟩
    rcases hreceipts receipt hreceipt with hkept | ⟨rfl, rfl⟩
    · exact .inl hkept
    · exact .inr rfl
  | bindUnbound peer =>
    obtain ⟨hwf, hentries, hreceipts⟩ := bindUnbound_spec h peer
    exact ⟨hwf, hentries, fun receipt hreceipt => .inl (hreceipts ▸ hreceipt)⟩
  | collectDueEntries nowMs room =>
    exact ⟨h.cursors _ _, fun _ hentry => .inl hentry, fun _ hreceipt => .inl hreceipt⟩
  | collectDueReceipts nowMs room =>
    exact ⟨h.cursors _ _, fun _ hentry => .inl hentry, fun _ hreceipt => .inl hreceipt⟩
  | restore expectedMaxEntries encodeAlloc decodeAlloc =>
    have hnext : (step crypto outbox (.restore expectedMaxEntries encodeAlloc decodeAlloc)).2 =
        (restore crypto outbox expectedMaxEntries encodeAlloc decodeAlloc).2 := rfl
    rw [hnext]
    rcases @restore_rows crypto outbox h expectedMaxEntries encodeAlloc decodeAlloc with
      hsame | hsame
    · rw [hsame]
      exact ⟨h, fun _ hentry => .inl hentry, fun _ hreceipt => .inl hreceipt⟩
    · rw [hsame]
      exact ⟨h.cursors _ _, fun _ hentry => .inl hentry, fun _ hreceipt => .inl hreceipt⟩

theorem init_wf {maxEntries : Nat} (h : init maxEntries = .ok outbox) : Wf outbox := by
  rw [init] at h
  split_ifs at h with hbounds
  cases h
  exact ⟨by show 0 < maxEntries; omega, by
    show maxEntries ≤ hardMaxEntries; omega, Nat.zero_le _, Nat.zero_le _,
    .nil, .nil, by simp, by simp, Nat.zero_le _⟩

/-- No two rows or receipts share a peer and an id, no row excludes its own peer, and memory
is all that sealing can lack. -/
structure Sound (crypto : Crypto) (outbox : Outbox) : Prop where
  entryKeys : (outbox.entries.map Entry.key).Nodup
  receiptKeys : (outbox.receipts.map Receipt.key).Nodup
  exclusion : ∀ entry ∈ outbox.entries, entry.excludedPeer ≠ entry.peer
  seals : ∀ alloc : Allocator, alloc 0 = true →
    ∃ bytes, encodeCheckpoint crypto outbox alloc = .ok bytes

theorem Wf.sound (h : Wf outbox) : Sound crypto outbox := by
  refine ⟨h.entryKeys, h.receiptKeys, fun entry hentry => (h.entry entry hentry).exclusion,
    fun alloc halloc => ?_⟩
  rw [encodeCheckpoint_eq h, halloc]
  exact ⟨_, rfl⟩

/-- Obligations of a hop are not lost, bounced or merged. Every outbox a run reaches is
sound. In every step of the run a row stays as it is unless it is acknowledged under its own
peer and id, or it has no peer and is bound to one that it does not exclude and that does
not hold its id; a receipt stays unless its own peer confirms it. -/
theorem obligations_kept (crypto : Crypto) (maxEntries : Nat) (start : Outbox)
    (hinit : init maxEntries = .ok start) (ops : List Op) :
    Sound crypto (final (step crypto) start ops) ∧
    ∀ visit ∈ visits (step crypto) start ops,
      (∀ entry ∈ visit.before.entries, EntryFate visit.before visit.after visit.input entry) ∧
        ∀ receipt ∈ visit.before.receipts, ReceiptFate visit.after visit.input receipt := by
  have hstart := init_wf hinit
  have hstep : ∀ s op, Wf s → Wf (step crypto s op).2 := fun s op hs => (step_spec hs op).1
  constructor
  · have h : Wf (final (step crypto) start ops) := final_invariant hstep hstart ops
    exact h.sound
  · intro visit hvisit
    have hbefore := (visits_invariant hstep hstart hvisit).1
    have hafter :
        visit.after = (step crypto visit.before visit.input).2 := by rw [visit_step hvisit]
    rw [hafter]
    exact (step_spec hbefore visit.input).2

def sampleId : RelayId := ⟨List.replicate 16 7, by decide⟩

/-- One message for a future hop and one receipt. -/
def samplePut : Op := .putBatchExcluding [8, 0, 8] (some 9) sampleId [1, 2] 100 9 fun _ => true

/-- Primitives that verify nothing. -/
def distrusting : Crypto where
  blake3 := fun _ => FixedBytes.splat 32 0
  verifyCtx := fun _ _ _ _ => false

theorem obligations_kept_bound :
    (final (step distrusting) ⟨4, [], [], 0, 0⟩
      [samplePut, .bindUnbound 9, .bindUnbound 6]).entries.map Entry.key =
        [(8, sampleId), (6, sampleId)] ∧
      Sound distrusting
        (final (step distrusting) ⟨4, [], [], 0, 0⟩
          [samplePut, .bindUnbound 9, .bindUnbound 6]) := by
  have h :=
    obligations_kept distrusting 4 ⟨4, [], [], 0, 0⟩ rfl [samplePut, .bindUnbound 9, .bindUnbound 6]
  exact ⟨by decide +kernel, h.1⟩

/-- An acknowledgement under the reserved peer of unbound rows removes one that no peer was
bound to. -/
theorem obligations_kept_reserved :
    ∃ entry ∈ (final (step distrusting) ⟨4, [], [], 0, 0⟩ [samplePut]).entries, entry.peer =
      unboundPeer ∧
      ∀ kept ∈
        (final (step distrusting) ⟨4, [], [], 0, 0⟩
          [samplePut, .acknowledge unboundPeer sampleId]).entries,
        kept.key ≠ entry.key ∧ kept.excludedPeer ≠ entry.excludedPeer := by
  refine ⟨⟨0, sampleId, 100, 0, 9, [1, 2]⟩, ?_⟩
  decide +kernel

end Runs

end OnyxServer.Outbox
