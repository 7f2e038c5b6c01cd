import OnyxServer.AcceptedLog.Checkpoint

/-!
# Restoring what was sealed

The checkpoint of a well-formed log passes the structural pass, and the second
pass reads back its rows and cursors. Both passes fail on such bytes only where
memory does.
-/
namespace OnyxServer.AcceptedLog

open Lib List
open Relay.V2 (RelayId PublicKey Crypto)

theorem encodeNodes_length (nodes : List UInt64) :
    (encodeNodes nodes).length = nodes.length * nodeLen := by
  induction nodes with
  | nil => rfl
  | cons node nodes ih =>
    have hcons : encodeNodes (node :: nodes) = beBytes 8 node.toNat ++ encodeNodes nodes := rfl
    rw [hcons, length_append, beBytes_length, ih, length_cons]
    simp only [nodeLen]
    omega

theorem readNodes_encodeNodes (nodes : List UInt64) (tail : Bytes) :
    readNodes nodes.length (encodeNodes nodes ++ tail) = nodes := by
  induction nodes with
  | nil => rfl
  | cons node nodes ih =>
    have hcons : encodeNodes (node :: nodes) ++ tail =
        beBytes 8 node.toNat ++ (encodeNodes nodes ++ tail) := append_assoc _ _ _
    rw [length_cons, readNodes, hcons, take_left' (beBytes_length _ _),
      drop_left' (beBytes_length _ _), u64_read, ih]

theorem validateNodeOrder_of {nodes : List UInt64} (h : Ordered nodes) (hnonzero : 0 ∉ nodes) :
    ∀ previous : Option UInt64, (∀ prior ∈ previous, ∀ node ∈ nodes, prior < node) →
      validateNodeOrder previous nodes = .ok () := by
  induction nodes with
  | nil => intro _ _; rfl
  | cons node nodes ih =>
    intro previous hprev
    obtain ⟨hfirst, hrest⟩ := ascending_cons.mp h
    have hzero : node ≠ 0 := fun heq => hnonzero (by simp [heq])
    obtain ⟨hne, horder, -⟩ := order_checks fun prior h => hprev prior h node mem_cons_self
    have hnext := ih hrest (fun hmem => hnonzero (mem_cons_of_mem _ hmem)) (some node)
      (by rintro prior ⟨⟩; exact hfirst)
    rw [validateNodeOrder, if_neg hzero, if_neg hne, horder]
    exact hnext

theorem encodedSubset_of {subs supers : List UInt64} (hsub : Ordered subs) (hsuper : Ordered supers)
    (h : ∀ node ∈ subs, node ∈ supers) : encodedSubset subs supers = true := by
  induction supers generalizing subs with
  | nil =>
    cases subs with
    | nil => rfl
    | cons sub subs => cases h sub mem_cons_self
  | cons super supers ih =>
    cases subs with
    | nil => rfl
    | cons sub subs =>
      obtain ⟨hfirst, hrest⟩ := ascending_cons.mp hsuper
      obtain ⟨hsfirst, hsrest⟩ := ascending_cons.mp hsub
      rw [encodedSubset]
      rcases mem_cons.mp (h sub mem_cons_self) with heq | hmem
      · subst heq
        rw [if_neg (lt_irrefl sub), if_pos rfl]
        refine ih hsrest hrest fun node hnode => ?_
        exact (mem_cons.mp (h node (mem_cons_of_mem _ hnode))).resolve_left
          (hsfirst node hnode).ne'
      · rw [if_pos (hfirst sub hmem)]
        refine ih hsub hrest fun node hnode => ?_
        refine (mem_cons.mp (h node hnode)).resolve_left fun heq => ?_
        rcases mem_cons.mp hnode with hnode | hnode
        · exact lt_irrefl _ (hnode ▸ heq ▸ hfirst sub hmem)
        · exact lt_asymm (heq ▸ hsfirst node hnode) (hfirst sub hmem)

theorem encodedDisjoint_of {as bs : List UInt64} (h : ∀ node ∈ as, node ∉ bs) :
    encodedDisjoint as bs = true := by
  unfold encodedDisjoint
  generalize as.length + bs.length = fuel
  induction fuel generalizing as bs with
  | zero => rfl
  | succ fuel ih =>
    cases as with
    | nil => rfl
    | cons a as =>
      cases bs with
      | nil => rfl
      | cons b bs =>
        rw [encodedDisjointLoop]
        have hne : a ≠ b := fun heq => h a mem_cons_self (by simp [heq])
        split_ifs with hab hba
        · exact ih fun node hnode => h node (mem_cons_of_mem _ hnode)
        · exact ih fun node hnode hmem => h node hnode (mem_cons_of_mem _ hmem)
        · exact absurd (le_antisymm (not_lt.mp hba) (not_lt.mp hab)) hne

theorem Config.valid_bounds {config : Config} (h : config.valid = true) :
    config.maxRows ≤ 65536 ∧ config.maxConfirmedNodesPerRow ≤ 4096 ∧
      config.maxCursorNodes ≤ 4096 ∧ config.maxWireBytes ≤ 1048576 ∧
      config.maxAggregateBytes ≤ 67108864 := by
  simp only [Config.valid, Bool.and_eq_true, decide_eq_true_eq] at h
  obtain ⟨⟨⟨⟨⟨⟨⟨⟨⟨-, hrows⟩, -⟩, hnodes⟩, -⟩, hcursors⟩, -⟩, hwire⟩, -⟩, haggregate⟩ := h
  exact ⟨hrows, hnodes, hcursors, hwire, haggregate⟩

/-- What a decoder reads in front of a row. -/
def prefixOf (row : Row) : RowPrefix where
  relayId := row.relayId
  originPubkey := row.originPubkey
  originNode := row.originNode
  hlc := row.hlc
  wireLen := row.wire.length
  confirmedCount := row.confirmedNodes.length
  requiredCount := row.requiredNodes.length
  excludedCount := row.excludedOnceNodes.length

theorem encodeRowPrefix_length (row : Row) : (encodeRowPrefix row).length = rowPrefixLen := by
  simp [encodeRowPrefix, row.relayId.property, row.originPubkey.property, rowPrefixLen]

theorem encodeRow_length (row : Row) : (encodeRow row).length = rowBodyBytes row := by
  simp only [encodeRow, length_append, encodeRowPrefix_length, encodeNodes_length, rowBodyBytes,
    rowAggregateBytes, nodeLen]
  omega

section Row

variable {crypto : Crypto} {config : Config} {row : Row}

theorem Row.Wf.small (hvalid : config.valid = true) (h : row.Wf crypto config) :
    0 < row.wire.length ∧ row.wire.length ≤ config.maxWireBytes ∧ row.wire.length < 256 ^ 4 ∧
      row.confirmedNodes.length < 256 ^ 4 ∧ row.requiredNodes.length < 256 ^ 4 ∧
      row.excludedOnceNodes.length < 256 ^ 4 := by
  have hconfig := Config.valid_bounds hvalid
  obtain ⟨hpos, hmax, -⟩ := validateWireAndId_ok h.authentic
  have := h.confirmed_length
  have := h.excluded_length
  have := h.bounded
  omega

theorem readRowPrefix_encodeRow (hvalid : config.valid = true) (h : row.Wf crypto config)
    (tail : Bytes) : readRowPrefix (encodeRow row ++ tail) = prefixOf row := by
  obtain ⟨-, -, hwire, hconf, hreq, hex⟩ := h.small hvalid
  have hid := row.relayId.property
  have hkey := row.originPubkey.property
  simp only [readRowPrefix, encodeRow, encodeRowPrefix, append_assoc, prefixOf,
    FixedBytes.ofSlice_append, drop_left' hid]
  simp [slice_skip hid, slice_skip hkey, slice_skip (beBytes_length _ _),
    slice_first (beBytes_length _ _), u64_read, beNat_beBytes hwire, beNat_beBytes hconf,
    beNat_beBytes hreq, beNat_beBytes hex]

theorem readRowBody_encodeRow (row : Row) (tail : Bytes) :
    readRowBody (prefixOf row) ((encodeRow row ++ tail).drop rowPrefixLen) =
      ⟨row.wire, row.requiredNodes, row.confirmedNodes, row.excludedOnceNodes, tail⟩ := by
  have hbody : (encodeRow row ++ tail).drop rowPrefixLen =
      row.wire ++ (encodeNodes row.requiredNodes ++
      (encodeNodes row.confirmedNodes ++ (encodeNodes row.excludedOnceNodes ++ tail))) := by
    rw [encodeRow, append_assoc, drop_left' (encodeRowPrefix_length row)]
    simp
  simp only [readRowBody, hbody, prefixOf, take_left' rfl, drop_left' rfl,
    drop_left' (encodeNodes_length _), readNodes_encodeNodes]

theorem validateRowSets_of (h : row.Wf crypto config) (tail : Bytes) :
    validateRowSets ⟨row.wire, row.requiredNodes, row.confirmedNodes, row.excludedOnceNodes, tail⟩ =
      .ok () := by
  have hzero : ∀ nodes : List UInt64, (∀ node ∈ nodes, node ∈ row.requiredNodes) → 0 ∉ nodes :=
    fun nodes hsub hmem => h.nonzero (hsub 0 hmem)
  have hlt := h.uncovered
  simp only [validateRowSets, validateNodeOrder_of h.required h.nonzero none nofun,
    validateNodeOrder_of h.confirmed (hzero _ h.confirmedSub) none nofun,
    validateNodeOrder_of h.excluded (hzero _ h.excludedSub) none nofun,
    encodedSubset_of h.confirmed h.required h.confirmedSub,
    encodedSubset_of h.excluded h.required h.excludedSub, encodedDisjoint_of h.disjoint]
  rw [if_neg (by simp), if_neg (by omega)]

theorem Row.Wf.originNode_ne (h : row.Wf crypto config) : row.originNode ≠ 0 :=
  validateWireAndId_node h.authentic

theorem validateRow_encodeRow (hvalid : config.valid = true) (h : row.Wf crypto config)
    {previous : Option RelayId} (hprev : ∀ id ∈ previous, id < row.relayId) {aggregate : Nat}
    (haggregate : aggregate + rowAggregateBytes row ≤ config.maxAggregateBytes) (tail : Bytes) :
    validateRow config previous aggregate (encodeRow row ++ tail) =
      .ok (row.relayId, aggregate + rowAggregateBytes row, tail) := by
  obtain ⟨hpos, hmax, -⟩ := h.small hvalid
  have hconfig := Config.valid_bounds hvalid
  have hconf := h.confirmed_length
  have hex := h.excluded_length
  have hbounded := h.bounded
  have hlt := h.uncovered
  have hlong : ¬ (encodeRow row ++ tail).length < rowPrefixLen := by
    rw [length_append, encodeRow_length, rowBodyBytes]
    omega
  obtain ⟨hne, -, horder⟩ := order_checks hprev
  have hsize : rowAggregateBytes row = row.wire.length + (row.requiredNodes.length +
      row.confirmedNodes.length + row.excludedOnceNodes.length) * nodeLen := rfl
  have hadd1 := checkedAdd_some (a := row.requiredNodes.length) (b := row.confirmedNodes.length)
    (by unfold usizeLimit; omega)
  have hadd2 := checkedAdd_some (a := row.requiredNodes.length + row.confirmedNodes.length)
    (b := row.excludedOnceNodes.length) (by unfold usizeLimit; omega)
  have hmul := checkedMul_some (a := row.requiredNodes.length + row.confirmedNodes.length +
    row.excludedOnceNodes.length) (b := nodeLen) (by unfold usizeLimit nodeLen; omega)
  have hadd3 := checkedAdd_some (a := row.wire.length) (b := (row.requiredNodes.length +
    row.confirmedNodes.length + row.excludedOnceNodes.length) * nodeLen)
    (by unfold usizeLimit nodeLen; omega)
  have hadd4 := checkedAdd_some (a := aggregate) (b := rowAggregateBytes row)
    (by unfold usizeLimit; omega)
  have hrest : ¬ ((encodeRow row ++ tail).drop rowPrefixLen).length < rowAggregateBytes row := by
    rw [length_drop, length_append, encodeRow_length, rowBodyBytes]
    omega
  rw [← hsize] at hadd3
  have hwire : ¬ (row.wire.length = 0 ∨ config.maxWireBytes < row.wire.length) := by omega
  have hcounts : ¬ (row.requiredNodes.length = 0 ∨
      config.maxConfirmedNodesPerRow < row.requiredNodes.length ∨
      row.requiredNodes.length < row.confirmedNodes.length ∨
      config.maxConfirmedNodesPerRow < row.excludedOnceNodes.length) := by omega
  simp only [validateRow, if_neg hlong, readRowPrefix_encodeRow hvalid h, readRowBody_encodeRow]
  simp only [prefixOf, if_neg hne, if_neg h.originNode_ne, if_neg hwire, if_neg hcounts,
    hadd1, hadd2,
    hmul, hadd3, hadd4, if_neg hrest, if_neg (Nat.not_lt.mpr haggregate), validateRowSets_of h]
  exact if_neg (ne_true_of_eq_false horder)

end Row

section Tables

variable {crypto : Crypto} {config : Config}

theorem validateRows_encodeRows (hvalid : config.valid = true) (tail : Bytes) :
    ∀ (rows : List Row) (previous : Option RelayId) (aggregate : Nat),
      (∀ row ∈ rows, row.Wf crypto config) → Ascending Row.relayId rows →
      (∀ id ∈ previous, ∀ row ∈ rows, id < row.relayId) →
      aggregate + (rows.map rowAggregateBytes).sum ≤ config.maxAggregateBytes →
      validateRows config rows.length previous aggregate (rows.flatMap encodeRow ++ tail) =
        .ok (aggregate + (rows.map rowAggregateBytes).sum, tail) := by
  intro rows
  induction rows with
  | nil => intro _ _ _ _ _ _; rfl
  | cons row rows ih =>
    intro previous aggregate hwf hasc hprev haggregate
    obtain ⟨hfirst, hrest⟩ := ascending_cons.mp hasc
    rw [map_cons, sum_cons] at haggregate ⊢
    have hfits : aggregate + rowAggregateBytes row ≤ config.maxAggregateBytes := by omega
    have hrow := validateRow_encodeRow hvalid (hwf row mem_cons_self)
      (fun id hid => hprev id hid row mem_cons_self) hfits (rows.flatMap encodeRow ++ tail)
    have hnext := ih (some row.relayId) (aggregate + rowAggregateBytes row)
      (fun other hother => hwf other (mem_cons_of_mem _ hother)) hrest
      (by rintro id ⟨⟩; exact hfirst) (by omega)
    rw [length_cons, validateRows, flatMap_cons, append_assoc, hrow]
    simp only
    rw [hnext, Nat.add_assoc]

theorem encodeCursor_length (cursor : CursorEntry) :
    (encodeCursor cursor).length = cursorEntryLen := by
  simp [encodeCursor, cursor.afterOriginPubkey.property, cursorEntryLen]

theorem encodeCursor_node (cursor : CursorEntry) (tail : Bytes) :
    UInt64.ofNat (beNat ((encodeCursor cursor ++ tail).take 8)) = cursor.node := by
  rw [encodeCursor, append_assoc, take_left' (beBytes_length _ _), u64_read]

theorem validateCursors_encodeCursors (hvalid : config.valid = true) :
    ∀ (cursors : List CursorEntry) (previous : Option UInt64) (aggregate : Nat),
      (∀ cursor ∈ cursors, cursor.node ≠ 0) → Ascending CursorEntry.node cursors →
      (∀ node ∈ previous, ∀ cursor ∈ cursors, node < cursor.node) →
      aggregate + cursors.length * cursorEntryLen ≤ config.maxAggregateBytes →
      validateCursors config cursors.length previous aggregate (cursors.flatMap encodeCursor) =
        .ok (aggregate + cursors.length * cursorEntryLen, []) := by
  intro cursors
  have hconfig := Config.valid_bounds hvalid
  induction cursors with
  | nil => intro _ _ _ _ _ _; simp [validateCursors]
  | cons cursor cursors ih =>
    intro previous aggregate hnonzero hasc hprev haggregate
    obtain ⟨hfirst, hrest⟩ := ascending_cons.mp hasc
    rw [length_cons, Nat.add_mul, Nat.one_mul] at haggregate ⊢
    have hlong : ¬ (encodeCursor cursor ++ cursors.flatMap encodeCursor).length <
        cursorEntryLen := by
      rw [length_append, encodeCursor_length]
      omega
    obtain ⟨hne, horder, -⟩ := order_checks fun prior h => hprev prior h cursor mem_cons_self
    have hadd := checkedAdd_some (a := aggregate) (b := cursorEntryLen)
      (by unfold usizeLimit; omega)
    have hfits : ¬ config.maxAggregateBytes < aggregate + cursorEntryLen := by omega
    have hnext := ih (some cursor.node) (aggregate + cursorEntryLen)
      (fun other hother => hnonzero other (mem_cons_of_mem _ hother)) hrest
      (by rintro node ⟨⟩; exact hfirst) (by omega)
    simp only [validateCursors, flatMap_cons, if_neg hlong, encodeCursor_node,
      if_neg (hnonzero cursor mem_cons_self), if_neg hne, horder, hadd, if_neg hfits,
      drop_left' (encodeCursor_length cursor), hnext, Bool.false_eq_true, ↓reduceIte]
    congr 2
    omega

end Tables

section Log

variable {crypto : Crypto} {log : EventLog}

/-- The bytes in front of the checksum. -/
def EventLog.sealedPrefix (log : EventLog) : Bytes := encodePrefix log log.checkpointBodyBytes

def EventLog.sealedBytes (crypto : Crypto) (log : EventLog) : Bytes :=
  log.sealedPrefix ++ (checkpointChecksum crypto log.sealedPrefix).val

theorem flatMap_encodeRow_length (rows : List Row) :
    (rows.flatMap encodeRow).length = (rows.map rowBodyBytes).sum := by
  induction rows with
  | nil => rfl
  | cons row rows ih =>
    rw [flatMap_cons, length_append, encodeRow_length, ih, map_cons, sum_cons]

theorem flatMap_encodeCursor_length (cursors : List CursorEntry) :
    (cursors.flatMap encodeCursor).length = cursors.length * cursorEntryLen := by
  induction cursors with
  | nil => rfl
  | cons cursor cursors ih =>
    rw [flatMap_cons, length_append, encodeCursor_length, ih, length_cons, Nat.add_mul]
    omega

/-- The tables as they are written. -/
def EventLog.tableBytes (log : EventLog) : Bytes :=
  log.rows.flatMap encodeRow ++ log.cursors.flatMap encodeCursor

theorem tableBytes_length (h : log.Wf crypto) :
    log.tableBytes.length = log.checkpointBodyBytes := by
  rw [EventLog.tableBytes, length_append, flatMap_encodeRow_length, flatMap_encodeCursor_length,
    h.body, bytesOf, Nat.add_comm]

theorem encodeHeader_length (config : Config) (rowCount cursorCount bodyLen : Nat) :
    (encodeHeader config rowCount cursorCount bodyLen).length = checkpointHeaderLen := by
  simp [encodeHeader, magic, checkpointHeaderLen]

theorem encodeHeader_fields {config : Config} (hvalid : config.valid = true)
    {rowCount cursorCount bodyLen : Nat} (hrows : rowCount < 256 ^ 4)
    (hcursors : cursorCount < 256 ^ 4) (hbody : bodyLen < 256 ^ 8) (tail : Bytes) :
    let bytes := encodeHeader config rowCount cursorCount bodyLen ++ tail
    bytes.take 4 = magic ∧ slice bytes 4 5 = [checkpointVersion] ∧ slice bytes 5 6 = [0] ∧
      beNat (slice bytes 6 10) = config.maxRows ∧
      beNat (slice bytes 10 14) = config.maxConfirmedNodesPerRow ∧
      beNat (slice bytes 14 18) = config.maxWireBytes ∧
      beNat (slice bytes 18 26) = config.maxAggregateBytes ∧
      beNat (slice bytes 26 30) = config.maxCursorNodes ∧
      beNat (slice bytes 30 34) = rowCount ∧ beNat (slice bytes 34 38) = cursorCount ∧
      beNat (slice bytes 38 46) = bodyLen := by
  intro bytes
  have hconfig := Config.valid_bounds hvalid
  have hsix : (magic ++ [checkpointVersion, 0]).length = 6 := rfl
  have hbytes : bytes = (magic ++ [checkpointVersion, 0]) ++ (beBytes 4 config.maxRows ++
      (beBytes 4 config.maxConfirmedNodesPerRow ++ (beBytes 4 config.maxWireBytes ++
        (beBytes 8 config.maxAggregateBytes ++ (beBytes 4 config.maxCursorNodes ++
          (beBytes 4 rowCount ++ (beBytes 4 cursorCount ++ (beBytes 8 bodyLen ++ tail)))))))) := by
    simp [bytes, encodeHeader]
  refine ⟨rfl, rfl, rfl, ?_, ?_, ?_, ?_, ?_, ?_, ?_, ?_⟩ <;>
    rw [hbytes, slice_skip hsix (by decide)] <;>
    simp only [slice_skip (beBytes_length _ _), slice_first (beBytes_length _ _), Nat.reduceSub,
      Nat.reduceLeDiff] <;>
    exact beNat_beBytes (by omega)

theorem validateRowNodes_of {config : Config} {row : Row} (h : row.Wf crypto config) :
    validateRowNodes row = .ok () := by
  have hzero : ∀ nodes : List UInt64, (∀ node ∈ nodes, node ∈ row.requiredNodes) → 0 ∉ nodes :=
    fun nodes hsub hmem => h.nonzero (hsub 0 hmem)
  have hconf : row.confirmedNodes.any (fun node => !containsNode row.requiredNodes node ||
      containsNode row.excludedOnceNodes node) = false := by
    rw [any_eq_false]
    intro node hnode
    rw [(containsNode_iff h.required).mpr (h.confirmedSub node hnode),
      Bool.eq_false_iff.mpr (mt (containsNode_iff h.excluded).mp (h.disjoint node hnode))]
    decide
  have hex : row.excludedOnceNodes.any (fun node => !containsNode row.requiredNodes node) =
      false := by
    rw [any_eq_false]
    intro node hnode
    rw [(containsNode_iff h.required).mpr (h.excludedSub node hnode)]
    decide
  have hcovered : rowCovered row = false := by
    rw [rowCovered, beq_eq_false_iff_ne]
    exact h.uncovered.ne
  simp [validateRowNodes, validateNodeOrder_of h.required h.nonzero none (by simp),
    validateNodeOrder_of h.confirmed (hzero _ h.confirmedSub) none (by simp),
    validateNodeOrder_of h.excluded (hzero _ h.excludedSub) none (by simp), hconf, hex, hcovered]

theorem measureRows_of {config : Config} (hvalid : config.valid = true) :
    ∀ (rows : List Row) (previous : Option RelayId) (aggregate body : Nat),
      (∀ row ∈ rows, row.Wf crypto config) → Ascending Row.relayId rows →
      (∀ id ∈ previous, ∀ row ∈ rows, id < row.relayId) →
      body + (rows.map rowBodyBytes).sum ≤ hardMaxCheckpointBytes → aggregate ≤ body →
      measureRows config rows previous aggregate body =
        .ok (aggregate + (rows.map rowAggregateBytes).sum, body + (rows.map rowBodyBytes).sum) := by
  intro rows
  have hconfig := Config.valid_bounds hvalid
  induction rows with
  | nil => intro _ _ _ _ _ _ _ _; rfl
  | cons row rows ih =>
    intro previous aggregate body hwf hasc hprev hbody hle
    obtain ⟨hfirst, hrest⟩ := ascending_cons.mp hasc
    have hrow := hwf row mem_cons_self
    obtain ⟨hpos, hmax, -⟩ := hrow.small hvalid
    have hconf := hrow.confirmed_length
    have hex := hrow.excluded_length
    have hbounded := hrow.bounded
    have hlt := hrow.uncovered
    rw [map_cons, sum_cons] at hbody
    rw [map_cons, sum_cons, map_cons, sum_cons]
    unfold hardMaxCheckpointBytes at hbody
    have hsize : rowBodyBytes row = rowPrefixLen + rowAggregateBytes row := rfl
    have hagg : rowAggregateBytes row = row.wire.length + (row.requiredNodes.length +
      row.confirmedNodes.length + row.excludedOnceNodes.length) * nodeLen := rfl
    have hmul := checkedMul_some (a := row.requiredNodes.length + row.confirmedNodes.length +
      row.excludedOnceNodes.length) (b := nodeLen) (by unfold usizeLimit nodeLen; omega)
    have hadd1 := checkedAdd_some (a := aggregate) (b := rowAggregateBytes row)
      (by unfold usizeLimit; omega)
    have hadd2 := checkedAdd_some (a := body) (b := rowBodyBytes row) (by unfold usizeLimit; omega)
    rw [hagg] at hadd1
    rw [hsize, hagg, ← Nat.add_assoc] at hadd2
    have hwire : ¬ (row.wire.length = 0 ∨ config.maxWireBytes < row.wire.length) := by omega
    have hcounts : ¬ (row.requiredNodes.length = 0 ∨
        config.maxConfirmedNodesPerRow < row.requiredNodes.length ∨
        row.requiredNodes.length < row.confirmedNodes.length ∨
        config.maxConfirmedNodesPerRow < row.excludedOnceNodes.length) := by omega
    obtain ⟨hne, -, horder⟩ := order_checks fun prior h => hprev prior h row mem_cons_self
    have hnext := ih (some row.relayId) (aggregate + rowAggregateBytes row)
      (body + rowBodyBytes row) (fun other hother => hwf other (mem_cons_of_mem _ hother)) hrest
      (by rintro id ⟨⟩; exact hfirst) (by unfold hardMaxCheckpointBytes; omega) (by omega)
    rw [hsize, hagg, ← Nat.add_assoc rowPrefixLen] at hnext
    simp only [measureRows, if_neg hwire, if_neg hcounts, if_neg hne, horder, Bool.false_eq_true,
      ↓reduceIte, validateRowNodes_of hrow, hmul, hadd1, hadd2, hnext]
    rw [hsize, hagg]
    congr 2 <;> omega

theorem measureCursors_of (rows : List Row) :
    ∀ (cursors : List CursorEntry) (previous : Option UInt64) (aggregate body : Nat),
      (∀ cursor ∈ cursors, cursor.node ≠ 0) → Ascending CursorEntry.node cursors →
      (∀ node ∈ previous, ∀ cursor ∈ cursors, node < cursor.node) →
      (∀ cursor ∈ cursors, cursor.afterOriginPubkey ∈ rows.map Row.originPubkey) →
      body + cursors.length * cursorEntryLen ≤ hardMaxCheckpointBytes → aggregate ≤ body →
      measureCursors rows cursors previous aggregate body =
        .ok (aggregate + cursors.length * cursorEntryLen,
          body + cursors.length * cursorEntryLen) := by
  intro cursors
  induction cursors with
  | nil => intro _ _ _ _ _ _ _ _ _; simp [measureCursors]
  | cons cursor cursors ih =>
    intro previous aggregate body hnonzero hasc hprev htarget hbody hle
    obtain ⟨hfirst, hrest⟩ := ascending_cons.mp hasc
    rw [length_cons, Nat.add_mul, Nat.one_mul] at hbody ⊢
    unfold hardMaxCheckpointBytes at hbody
    obtain ⟨hne, horder, -⟩ := order_checks fun prior h => hprev prior h cursor mem_cons_self
    have hcontains : containsOrigin rows cursor.afterOriginPubkey = true := by
      obtain ⟨row, hrow, horigin⟩ := mem_map.mp (htarget cursor mem_cons_self)
      exact containsOrigin_iff.mpr ⟨row, hrow, horigin⟩
    have hadd1 := checkedAdd_some (a := aggregate) (b := cursorEntryLen)
      (by unfold usizeLimit; omega)
    have hadd2 := checkedAdd_some (a := body) (b := cursorEntryLen) (by unfold usizeLimit; omega)
    have hnext := ih (some cursor.node) (aggregate + cursorEntryLen) (body + cursorEntryLen)
      (fun other hother => hnonzero other (mem_cons_of_mem _ hother)) hrest
      (by rintro node ⟨⟩; exact hfirst)
      (fun other hother => htarget other (mem_cons_of_mem _ hother))
      (by unfold hardMaxCheckpointBytes; omega) (by omega)
    simp only [measureCursors, if_neg (hnonzero cursor mem_cons_self), if_neg hne, horder,
      hcontains, hadd1, hadd2, hnext, Bool.not_true, Bool.false_eq_true, ↓reduceIte]
    congr 2 <;> omega

theorem sum_aggregate_le_body (rows : List Row) :
    (rows.map rowAggregateBytes).sum ≤ (rows.map rowBodyBytes).sum := by
  induction rows with
  | nil => exact Nat.le_refl _
  | cons row rows ih =>
    simp only [map_cons, sum_cons, rowBodyBytes]
    omega

theorem encodeCheckpoint_eq (h : log.Wf crypto) (hidle : log.preparedActive = false)
    (alloc : Allocator) :
    log.encodeCheckpoint crypto alloc =
      if alloc 0 then .ok (log.sealedBytes crypto) else .error .outOfMemory := by
  have haggregate := h.aggregate
  have hbody := h.body
  have haggBound := h.aggregateBound
  have hbodyBound := h.bodyBound
  rw [bytesOf, Nat.add_comm] at haggregate hbody
  simp only [hardMaxCheckpointBytes, checkpointHeaderLen, checksumLen] at hbodyBound
  have hrows := measureRows_of h.valid log.rows none 0 0 h.rows h.ascending (by simp)
    (by unfold hardMaxCheckpointBytes; omega) (Nat.le_refl _)
  have hle := sum_aggregate_le_body log.rows
  have hcursors := measureCursors_of log.rows log.cursors none
    (log.rows.map rowAggregateBytes).sum (log.rows.map rowBodyBytes).sum h.cursorNonzero
    h.cursorsAscending (by simp) h.cursorTarget (by unfold hardMaxCheckpointBytes; omega) hle
  rw [Nat.zero_add, Nat.zero_add] at hrows
  rw [← haggregate, ← hbody] at hcursors
  have hcap : ¬ (log.config.maxRows < log.rows.length ∨
      log.config.maxCursorNodes < log.cursors.length) := by
    have := h.rowsBound
    have := h.cursorsBound
    omega
  have hpre := checkedAdd_some (a := checkpointHeaderLen) (b := log.checkpointBodyBytes)
    (by unfold usizeLimit checkpointHeaderLen; omega)
  have htotal := checkedAdd_some (a := checkpointHeaderLen + log.checkpointBodyBytes)
    (b := checksumLen) (by unfold usizeLimit checkpointHeaderLen checksumLen; omega)
  have hsmall : ¬ hardMaxCheckpointBytes <
      checkpointHeaderLen + log.checkpointBodyBytes + checksumLen := by
    unfold hardMaxCheckpointBytes checkpointHeaderLen checksumLen
    omega
  simp only [EventLog.encodeCheckpoint, validateLiveConfig_ok h, hidle, hrows,
    if_neg hcap, hcursors, if_neg (Nat.not_lt.mpr haggBound), hpre, htotal, if_neg hsmall]
  cases alloc 0 <;> simp [EventLog.sealedBytes, EventLog.sealedPrefix]

theorem validateCheckpoint_sealed (h : log.Wf crypto) :
    validateCheckpoint crypto (log.sealedBytes crypto) =
      .ok ⟨log.config, log.rows.length, log.cursors.length, log.checkpointBodyBytes,
        log.aggregateBytes⟩ := by
  have hconfig := Config.valid_bounds h.valid
  have hrowsBound := h.rowsBound
  have hcursorsBound := h.cursorsBound
  have haggregate := h.aggregate
  have haggBound := h.aggregateBound
  have hbodyBound := h.bodyBound
  rw [bytesOf, Nat.add_comm] at haggregate
  simp only [hardMaxCheckpointBytes, checkpointHeaderLen, checksumLen] at hbodyBound
  have htable := tableBytes_length h
  have hfront : log.sealedPrefix = encodeHeader log.config log.rows.length log.cursors.length
      log.checkpointBodyBytes ++ log.tableBytes := rfl
  have hplen : log.sealedPrefix.length = checkpointHeaderLen + log.checkpointBodyBytes := by
    rw [hfront, length_append, encodeHeader_length, htable]
  have hlen : (log.sealedBytes crypto).length =
      checkpointHeaderLen + log.checkpointBodyBytes + checksumLen := by
    rw [EventLog.sealedBytes, length_append, hplen,
      (checkpointChecksum crypto log.sealedPrefix).property, checksumLen]
  have hbytes : log.sealedBytes crypto = encodeHeader log.config log.rows.length log.cursors.length
      log.checkpointBodyBytes ++ (log.tableBytes ++
        (checkpointChecksum crypto log.sealedPrefix).val) := by
    rw [EventLog.sealedBytes, hfront, append_assoc]
  obtain ⟨hmagic, hversion, hflags, hmaxRows, hmaxNodes, hmaxWire, hmaxAgg, hmaxCursors, hrowCount,
    hcursorCount, hbodyLen⟩ := encodeHeader_fields h.valid
      (show log.rows.length < 256 ^ 4 by omega) (show log.cursors.length < 256 ^ 4 by omega)
      (show log.checkpointBodyBytes < 256 ^ 8 by omega)
      (log.tableBytes ++ (checkpointChecksum crypto log.sealedPrefix).val)
  rw [← hbytes] at hmagic hversion hflags hmaxRows hmaxNodes hmaxWire hmaxAgg hmaxCursors
  rw [← hbytes] at hrowCount hcursorCount hbodyLen
  have hslice : slice (log.sealedBytes crypto) checkpointHeaderLen
      (checkpointHeaderLen + log.checkpointBodyBytes) =
      log.rows.flatMap encodeRow ++ log.cursors.flatMap encodeCursor :=
    slice_field hbytes (encodeHeader_length _ _ _ _)
      (show checkpointHeaderLen + log.tableBytes.length = _ by rw [htable])
  have htake : (log.sealedBytes crypto).take (checkpointHeaderLen + log.checkpointBodyBytes) =
      log.sealedPrefix := take_left' hplen
  have hdrop : (log.sealedBytes crypto).drop (checkpointHeaderLen + log.checkpointBodyBytes) =
      (checkpointChecksum crypto log.sealedPrefix).val := drop_left' hplen
  have hpre := checkedAdd_some (a := checkpointHeaderLen) (b := log.checkpointBodyBytes)
    (by unfold usizeLimit checkpointHeaderLen; omega)
  have htotal := checkedAdd_some (a := checkpointHeaderLen + log.checkpointBodyBytes)
    (b := checksumLen) (by unfold usizeLimit checkpointHeaderLen checksumLen; omega)
  have hempty : ¬ (log.rows.length = 0 ∧ log.cursors.length ≠ 0) := by
    rintro ⟨hrows, hcursors⟩
    obtain ⟨cursor, hcursor⟩ := exists_mem_of_length_pos (Nat.pos_of_ne_zero hcursors)
    have htarget := h.cursorTarget cursor hcursor
    rw [length_eq_zero_iff.mp hrows] at htarget
    cases htarget
  have hvrows := validateRows_encodeRows h.valid (log.cursors.flatMap encodeCursor) log.rows none 0
    h.rows h.ascending (by simp) (by omega)
  have hvcursors := validateCursors_encodeCursors h.valid log.cursors none
    (log.rows.map rowAggregateBytes).sum h.cursorNonzero h.cursorsAscending (by simp) (by omega)
  rw [Nat.zero_add] at hvrows
  rw [← haggregate] at hvcursors
  simp only [validateCheckpoint, hmagic, hversion, hflags, hmaxRows, hmaxNodes, hmaxWire, hmaxAgg,
    hmaxCursors, hrowCount, hcursorCount, hbodyLen, hpre, htotal, htake, hdrop, hslice,
    hlen, hvrows, hvcursors, h.valid, if_neg hempty]
  rw [if_neg (by unfold checkpointHeaderLen checksumLen; omega), if_neg (by simp), if_neg (by simp),
    if_neg (by simp), if_neg (by simp), if_neg (by omega), if_neg (by omega),
    if_neg (by unfold hardMaxCheckpointBytes checkpointHeaderLen checksumLen; omega),
    if_neg (by omega), if_neg (by omega), if_neg (by simp), if_neg (by simp)]

theorem validateWireAndId_memory {config : Config} {relayId : RelayId} {wire : Bytes}
    {wireMeta : WireMeta}
    (h : validateWireAndId crypto config relayId wire (fun _ => true) = .ok wireMeta)
    (alloc : Allocator) :
    validateWireAndId crypto config relayId wire alloc = .ok wireMeta ∨
    (∃ n, alloc n = false) ∧
      validateWireAndId crypto config relayId wire alloc = .error .outOfMemory := by
  obtain ⟨hpos, hmax, msg, hmsg, hver, henc, rfl⟩ := validateWireAndId_ok h
  have hlen : ¬ (wire.length = 0 ∨ config.maxWireBytes < wire.length) := by omega
  rw [validateWireAndId, if_neg hlen]
  cases h0 : alloc 0 with
  | false => exact Or.inr ⟨⟨0, h0⟩, by simp⟩
  | true =>
    cases h1 : alloc 1 with
    | false => exact Or.inr ⟨⟨1, h1⟩, by simp [hmsg]⟩
    | true =>
      cases h2 : alloc 2 with
      | false => exact Or.inr ⟨⟨2, h2⟩, by simp [hmsg, hver]⟩
      | true => exact Or.inl (by simp [hmsg, hver, henc])

theorem decodeRow_of {config : Config} {row : Row} (h : row.Wf crypto config) (tail : Bytes)
    (alloc : Allocator) :
    decodeRow crypto config (prefixOf row)
        ⟨row.wire, row.requiredNodes, row.confirmedNodes, row.excludedOnceNodes, tail⟩ alloc =
      .ok row ∨
    (∃ n, alloc n = false) ∧
      decodeRow crypto config (prefixOf row)
        ⟨row.wire, row.requiredNodes, row.confirmedNodes, row.excludedOnceNodes, tail⟩ alloc =
      .error .outOfMemory := by
  have hfields : ¬ ((prefixOf row).originPubkey ≠ row.originPubkey ∨
      (prefixOf row).originNode ≠ row.originNode ∨ (prefixOf row).hlc ≠ row.hlc) := by
    simp [prefixOf]
  rcases validateWireAndId_memory h.authentic alloc with hok | ⟨hmem, herror⟩
  · have hid : (prefixOf row).relayId = row.relayId := rfl
    simp only [decodeRow, hid, hok, if_neg hfields]
    by_cases hall : !alloc 3 ∨ !alloc 4 ∨ !alloc 5 ∨ !alloc 6
    · refine Or.inr ⟨?_, by rw [if_pos hall]⟩
      simp only [Bool.not_eq_true'] at hall
      rcases hall with h | h | h | h
      · exact ⟨3, h⟩
      · exact ⟨4, h⟩
      · exact ⟨5, h⟩
      · exact ⟨6, h⟩
    · rw [if_neg hall]
      exact Or.inl rfl
  · have hid : (prefixOf row).relayId = row.relayId := rfl
    refine Or.inr ⟨hmem, ?_⟩
    simp only [decodeRow, hid, herror]

theorem decodeRows_encodeRows {config : Config} (hvalid : config.valid = true) (alloc : Allocator)
    (tail : Bytes) :
    ∀ (rows : List Row) (site : Nat) (passed : List Row),
      (∀ row ∈ rows, row.Wf crypto config) → ((passed ++ rows).map eventKey).Nodup →
      decodeRows crypto config alloc rows.length site passed (rows.flatMap encodeRow ++ tail) =
        .ok (passed ++ rows, tail) ∨
      (∃ n, alloc n = false) ∧
        decodeRows crypto config alloc rows.length site passed (rows.flatMap encodeRow ++ tail) =
          .error .outOfMemory := by
  intro rows
  induction rows with
  | nil =>
    intro site passed _ _
    left
    rw [append_nil]
    rfl
  | cons row rows ih =>
    intro site passed hwf hdistinct
    have hrow := hwf row mem_cons_self
    have hbytes : (row :: rows).flatMap encodeRow ++ tail =
        encodeRow row ++ (rows.flatMap encodeRow ++ tail) := by
      rw [flatMap_cons, append_assoc]
    have hfresh : passed.any (fun existing => decide (existing.hlc = row.hlc) &&
        decide (existing.originPubkey = row.originPubkey)) = false := by
      rw [any_eq_false]
      intro existing hexisting hsame
      rw [Bool.and_eq_true, decide_eq_true_eq, decide_eq_true_eq] at hsame
      rw [map_append, map_cons] at hdistinct
      have hkey : eventKey existing = eventKey row := Prod.ext hsame.2 hsame.1
      have hne := (nodup_append.mp hdistinct).2.2 (eventKey existing)
        (mem_map_of_mem hexisting) (eventKey row) mem_cons_self
      exact hne hkey
    simp only [length_cons, decodeRows, hbytes, readRowPrefix_encodeRow hvalid hrow,
      readRowBody_encodeRow]
    rcases decodeRow_of hrow (rows.flatMap encodeRow ++ tail) (fun n => alloc (site + n)) with
      hok | ⟨⟨n, hn⟩, herror⟩
    · rw [hok]
      simp only [hfresh, Bool.false_eq_true, ↓reduceIte]
      rw [append_cons passed row rows] at hdistinct ⊢
      exact ih (site + 7) (passed ++ [row])
        (fun other hother => hwf other (mem_cons_of_mem _ hother)) hdistinct
    · rw [herror]
      exact Or.inr ⟨⟨site + n, hn⟩, rfl⟩

theorem decodeCursors_encodeCursors {rows : List Row} (tail : Bytes) :
    ∀ (cursors passed : List CursorEntry),
      (∀ cursor ∈ cursors, cursor.afterOriginPubkey ∈ rows.map Row.originPubkey) →
      decodeCursors rows cursors.length passed (cursors.flatMap encodeCursor ++ tail) =
        .ok (passed ++ cursors) := by
  intro cursors
  induction cursors with
  | nil =>
    intro passed _
    rw [append_nil]
    rfl
  | cons cursor cursors ih =>
    intro passed htarget
    have hcontains : containsOrigin rows cursor.afterOriginPubkey = true := by
      obtain ⟨row, hrow, horigin⟩ := mem_map.mp (htarget cursor mem_cons_self)
      exact containsOrigin_iff.mpr ⟨row, hrow, horigin⟩
    have hbytes : (cursor :: cursors).flatMap encodeCursor ++ tail =
        encodeCursor cursor ++ (cursors.flatMap encodeCursor ++ tail) := by
      rw [flatMap_cons, append_assoc]
    have hkey : FixedBytes.ofSlice 32 ((encodeCursor cursor ++
        (cursors.flatMap encodeCursor ++ tail)).drop 8) = cursor.afterOriginPubkey := by
      rw [encodeCursor, append_assoc, drop_left' (beBytes_length _ _), FixedBytes.ofSlice_append]
    have hnext :=
      ih (passed ++ [cursor]) fun other hother => htarget other (mem_cons_of_mem _ hother)
    simp only [length_cons, decodeCursors, hbytes, encodeCursor_node, hkey, hcontains,
      Bool.not_true, Bool.false_eq_true, ↓reduceIte, drop_left' (encodeCursor_length cursor)]
    rw [hnext, append_cons passed cursor cursors]

/-- Sealed bytes restore the log they were sealed from; only the epoch starts anew. -/
theorem decodeCheckpoint_sealed (h : log.Wf crypto) (hidle : log.preparedActive = false)
    (alloc : Allocator) :
    EventLog.decodeCheckpoint crypto log.config (log.sealedBytes crypto) alloc =
      .ok { log with mutationEpoch := 0 } ∨
    (∃ n, alloc n = false) ∧
      EventLog.decodeCheckpoint crypto log.config (log.sealedBytes crypto) alloc =
        .error .outOfMemory := by
  have heql : log.config.eql log.config = true := by simp [Config.eql]
  have hinit : EventLog.init log.config = some {
      config := log.config, frozenConfig := log.config, rows := [], cursors := []
      aggregateBytes := 0, checkpointBodyBytes := 0, mutationEpoch := 0, preparedActive :=
        false } :=
    if_pos h.valid
  have hdrop : (log.sealedBytes crypto).drop checkpointHeaderLen = log.rows.flatMap encodeRow ++
      (log.cursors.flatMap encodeCursor ++ (checkpointChecksum crypto log.sealedPrefix).val) := by
    rw [EventLog.sealedBytes, EventLog.sealedPrefix, encodePrefix, append_assoc,
      drop_left' (encodeHeader_length _ _ _ _), append_assoc]
  have hcounters : ¬ (recomputeAggregateBytes log.rows log.cursors ≠ log.aggregateBytes ∨
      recomputeBodyBytes log.rows log.cursors ≠ log.checkpointBodyBytes) := by
    rw [recomputeAggregateBytes_eq, recomputeBodyBytes_eq, ← h.aggregate, ← h.body]
    simp
  simp only [EventLog.decodeCheckpoint, validateCheckpoint_sealed h, heql, hinit, hdrop,
    Bool.not_true, Bool.false_eq_true, ↓reduceIte]
  cases halloc : alloc 0 with
  | false => exact Or.inr ⟨⟨0, halloc⟩, by simp⟩
  | true =>
    simp only [Bool.not_true, Bool.false_eq_true, ↓reduceIte]
    rcases decodeRows_encodeRows h.valid alloc (log.cursors.flatMap encodeCursor ++
      (checkpointChecksum crypto log.sealedPrefix).val) log.rows 1 [] h.rows h.distinct with
      hok | ⟨hmem, herror⟩
    · simp only [hok, nil_append]
      cases halloc' : alloc (1 + 7 * log.rows.length) with
      | false => exact Or.inr ⟨⟨_, halloc'⟩, by simp⟩
      | true =>
        left
        simp only [decodeCursors_encodeCursors _ log.cursors [] h.cursorTarget, nil_append,
          if_neg hcounters, Bool.not_true, Bool.false_eq_true, ↓reduceIte]
        rw [← h.frozen, ← hidle]
    · rw [herror]
      exact Or.inr ⟨hmem, rfl⟩

end Log

end OnyxServer.AcceptedLog
