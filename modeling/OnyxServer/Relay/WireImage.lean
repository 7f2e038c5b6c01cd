import OnyxServer.Coilpack.Equality
import OnyxServer.Relay.Rendered

/-!
# The wire image of a message

The decoder tells the schemas apart by the fields that are there; the encoder picks its
layout by the scope. On the two schemas it writes, decoding and encoding are inverse. The
schema without member modes is read for the sake of older peers and never written.
-/
namespace OnyxServer.Relay.V2

open Lib Text Coilpack List Except
open Relay.V1 (Verb)

section Readers

variable {value : Value}

theorem readString_ok {bytes : Bytes} (h : readString value = .ok bytes) :
    value = .string bytes := by
  cases value <;> cases h
  rfl

theorem readBytes_ok {bytes : Bytes} (h : readBytes value = .ok bytes) : value = .bytes bytes := by
  cases value <;> cases h
  rfl

theorem readU64_ok {word : UInt64} (h : readU64 value = .ok word) : value = .unsigned word := by
  cases value <;> cases h
  rfl

theorem readRank_ok {rank : UInt8} (h : readRank value = .ok rank) :
    value = .unsigned rank.toUInt64 := by
  obtain ⟨word, hword, h⟩ := bind_ok h
  rw [readU64_ok hword]
  split at h
  · cases h
  rename_i hsmall
  cases h
  have hlt : word.toNat < 256 := by
    have hle := UInt64.le_iff_toNat_le.mp (UInt64.not_lt.mp hsmall)
    have hfour : (4 : UInt64).toNat = 4 := rfl
    omega
  congr 1
  apply UInt64.toNat_inj.mp
  rw [UInt8.toNat_toUInt64, UInt64.toNat_toUInt8]
  omega

theorem readVerb_ok {verb : Verb} (h : readVerb value = .ok verb) :
    value = .unsigned verb.code.toUInt64 := by
  obtain ⟨word, hword, h⟩ := bind_ok h
  rw [readU64_ok hword]
  congr 1
  apply UInt64.toNat_inj.mp
  split at h <;> first | (cases h; assumption) | cases h

theorem readScope_ok {scope : ScopeKind} (h : readScope value = .ok scope) :
    value = .unsigned scope.code.toUInt64 := by
  obtain ⟨word, hword, h⟩ := bind_ok h
  rw [readU64_ok hword]
  congr 1
  apply UInt64.toNat_inj.mp
  split at h <;> first | (cases h; assumption) | cases h

/-- Member modes as they are written; 256 stands for none. -/
def modesWord : Option UInt8 → UInt64
  | some modes => modes.toUInt64
  | none => 256

theorem readModes_ok {modes : Option UInt8} (h : readModes value = .ok modes) :
    value = .unsigned (modesWord modes) := by
  obtain ⟨word, hword, h⟩ := bind_ok h
  rw [readU64_ok hword]
  by_cases hlarge : 256 < word
  · simp only [if_pos hlarge] at h
    cases h
  simp only [if_neg hlarge] at h
  have hle := UInt64.le_iff_toNat_le.mp (UInt64.not_lt.mp hlarge)
  have hmax : (256 : UInt64).toNat = 256 := rfl
  have hmodes : modes = if word = 256 then none else some word.toUInt8 := (ok.inj h).symm
  congr 1
  rw [hmodes]
  by_cases hnone : word = 256
  · rw [if_pos hnone, hnone]
    rfl
  have hne : word.toNat ≠ 256 := fun heq => hnone (UInt64.toNat_inj.mp (heq.trans hmax.symm))
  rw [if_neg hnone, modesWord]
  apply UInt64.toNat_inj.mp
  rw [UInt8.toNat_toUInt64, UInt64.toNat_toUInt8]
  omega

theorem readFixed_ok {len : Nat} {bytes : Option (FixedBytes len)}
    (h : readFixed len value = .ok bytes) :
    value = .bytes (optionalBytes bytes) := by
  obtain ⟨octets, hoctets, h⟩ := bind_ok h
  rw [readBytes_ok hoctets]
  split at h
  · next hempty =>
    cases h
    rw [length_eq_zero_iff.mp hempty]
    rfl
  · split at h
    · next hlen =>
      split at h
      · cases h
      · cases h
        rfl
    · cases h

end Readers

theorem encodeFieldValue_modes (msg : RelayMessage) :
    encodeFieldValue msg .senderMemberModes = .unsigned (modesWord msg.senderMemberModes) := by
  rw [encodeFieldValue]
  cases msg.senderMemberModes <;> rfl

section Fields

variable {msg next : RelayMessage} {value : Value} {field : Field}

theorem setField_same (h : setField msg value field = .ok next) :
    encodeFieldValue next field = value := by
  cases field with
  | senderMemberModes =>
    simp only [setField, bind_pure_comp] at h
    obtain ⟨x, hx, rfl⟩ := map_ok h
    rw [encodeFieldValue_modes, readModes_ok hx]
  | minRank =>
    simp only [setField, bind_pure_comp] at h
    obtain ⟨x, hx, rfl⟩ := map_ok h
    exact (readRank_ok hx).symm
  | verb =>
    simp only [setField, bind_pure_comp] at h
    obtain ⟨x, hx, rfl⟩ := map_ok h
    exact (readVerb_ok hx).symm
  | scopeKind =>
    simp only [setField, bind_pure_comp] at h
    obtain ⟨x, hx, rfl⟩ := map_ok h
    exact (readScope_ok hx).symm
  | hlc | originNode =>
    simp only [setField, bind_pure_comp] at h
    obtain ⟨x, hx, rfl⟩ := map_ok h
    exact (readU64_ok hx).symm
  | originPubkey | originSig =>
    simp only [setField, bind_pure_comp] at h
    obtain ⟨x, hx, rfl⟩ := map_ok h
    exact (readBytes_ok hx).symm
  | senderRouteId | recipientRouteId | recipientGuestId | recipientGuestOrigin =>
    simp only [setField, bind_pure_comp] at h
    obtain ⟨x, hx, rfl⟩ := map_ok h
    exact (readFixed_ok hx).symm
  | _ =>
    simp only [setField, bind_pure_comp] at h
    obtain ⟨x, hx, rfl⟩ := map_ok h
    exact (readString_ok hx).symm

theorem setField_other (h : setField msg value field = .ok next) {other : Field}
    (hne : other ≠ field) :
    encodeFieldValue next other = encodeFieldValue msg other := by
  cases field <;>
  · simp only [setField, bind_pure_comp] at h
    obtain ⟨x, -, rfl⟩ := map_ok h
    cases other <;> first | rfl | exact absurd rfl hne

theorem Field.index_inj {a b : Field} (h : a.index = b.index) : a = b := by
  cases a <;> cases b <;> first | rfl | cases h

theorem claimField_free {seen claimed : Nat} (h : claimField seen field = .ok claimed) :
    seen.testBit field.index = false := by
  rw [claimField] at h
  split_ifs at h with hfree
  rw [Nat.one_shiftLeft, Nat.and_two_pow, not_not] at hfree
  cases hbit : seen.testBit field.index with
  | false => rfl
  | true =>
    rw [hbit, Bool.toNat_true, Nat.one_mul] at hfree
    exact absurd hfree (Nat.two_pow_pos _).ne'

/-- The entry of a field. -/
def entryOf (msg : RelayMessage) (field : Field) : MapEntry :=
  .mk field.key (encodeFieldValue msg field)

/-- The decoder meets every field at most once, and writing the result gives its entries back. -/
theorem decodeFields_ok {entries : List MapEntry} {seen final : Nat}
    (h : decodeFields entries seen msg = .ok (final, next)) :
    ∃ fields : List Field, entries = fields.map (entryOf next) ∧
      (∀ field ∈ fields, seen.testBit field.index = false) ∧
      (∀ field, final.testBit field.index = (seen.testBit field.index || decide (field ∈ fields))) ∧
      ∀ field ∉ fields, encodeFieldValue next field = encodeFieldValue msg field := by
  induction entries generalizing seen msg with
  | nil =>
    cases h
    exact ⟨[], rfl, nofun, by simp, fun _ _ => rfl⟩
  | cons entry entries ih =>
    rw [decodeFields] at h
    split at h
    · cases h
    rename_i field hfind
    split at h
    · cases h
    rename_i claimed hclaim
    split at h
    · cases h
    rename_i set hset
    obtain ⟨fields, hentries, hfree, hseen, hkeep⟩ := ih h
    have hfound := List.find?_some hfind
    have hkey : field.key = entry.key := beq_iff_eq.mp hfound
    have hbit := claimField_testBit hclaim
    have hnew : field ∉ fields := by
      intro hmem
      have hfalse := hfree field hmem
      rw [hbit] at hfalse
      simp at hfalse
    have hvalue : encodeFieldValue next field = entry.value := by
      rw [hkeep field hnew, setField_same hset]
    refine ⟨field :: fields, ?_, ?_, ?_, ?_⟩
    · rw [map_cons, ← hentries, entryOf, hkey, hvalue]
      cases entry
      rfl
    · refine forall_mem_cons.mpr ⟨?_, fun other hother => ?_⟩
      · exact claimField_free hclaim
      · have hfalse := hfree other hother
        rw [hbit, Bool.or_eq_false_iff] at hfalse
        exact hfalse.1
    · intro other
      have hindex : other.index = field.index ↔ other = field :=
        ⟨Field.index_inj, congrArg Field.index⟩
      simp only [hseen, hbit, Bool.or_assoc, mem_cons, Bool.decide_or, hindex]
    · intro other hother
      rw [mem_cons, not_or] at hother
      rw [hkeep other hother.2, setField_other hset hother.1]

end Fields

theorem encodeFieldValue_schema (msg : RelayMessage) (schema : UInt8) (field : Field) :
    encodeFieldValue { msg with wireSchema := schema } field = encodeFieldValue msg field := by
  cases field <;> rfl

/-- The fields a schema carries. -/
def schemaMask (schema : UInt8) : Nat :=
  if schema = 1 then legacyFieldsMask else if schema = 3 then guestFieldsMask else allFieldsMask

variable {bytes : Bytes}

/-- An accepted wire is a map of exactly the fields of its schema. -/
theorem decode_fields {msg : RelayMessage} (h : decode bytes = .ok msg) :
    validateSemantic msg = true ∧ ∃ fields : List Field,
      Coilpack.decode bytes = .ok (.map (fields.map (entryOf msg))) ∧
      ∀ field, field ∈ fields ↔ (schemaMask msg.wireSchema).testBit field.index = true := by
  unfold decode at h
  split at h
  · cases h
  · next entries hentries =>
    split at h
    · cases h
    rename_i seen read hread
    obtain ⟨fields, hfields, -, hseen, -⟩ := decodeFields_ok hread
    split at h
    · cases h
    rename_i hmask
    generalize hschema : (if seen = legacyFieldsMask then (1 : UInt8)
      else if seen = guestFieldsMask then 3 else 2) = schema at h
    simp only at h
    split_ifs at h with _ hvalid
    cases h
    refine ⟨by simpa using hvalid, fields, ?_, fun field => ?_⟩
    · rw [hentries, hfields]
      congr 2
    · have hseenMask : schemaMask schema = seen := by
        subst hschema
        by_cases hlegacy : seen = legacyFieldsMask
        · rw [hlegacy]
          rfl
        by_cases hguest : seen = guestFieldsMask
        · rw [hguest]
          decide
        have hall : seen = allFieldsMask := by
          by_contra hne
          exact hmask ⟨hne, hlegacy, hguest⟩
        rw [hall]
        decide
      show field ∈ fields ↔ (schemaMask schema).testBit field.index = true
      rw [hseenMask, hseen]
      simp
  · cases h

theorem decode_map_ascending {entries : List MapEntry}
    (h : Coilpack.decode bytes = .ok (.map entries)) : Ascending MapEntry.key entries := by
  have hwritten := decode_written h
  have hsorted := hwritten.sorted
  rw [Value.sorted_map, Value.map.injEq] at hsorted
  cases hwritten.wellFormed with
  | map slice keySlices keys each =>
    rw [← hsorted]
    exact pairwise_map.mpr (sortByKey_ascending keys)

theorem plainEntries_ascending : Ascending Field.key plainEntries := by
  unfold Ascending
  decide

theorem guestEntries_ascending : Ascending Field.key guestEntries := by
  unfold Ascending
  decide

/-- The layout the encoder picks. -/
def layout (scope : ScopeKind) : List Field :=
  if scope = .directGuest then guestEntries else plainEntries

theorem layout_ascending (scope : ScopeKind) : Ascending Field.key (layout scope) := by
  unfold layout
  split
  · exact guestEntries_ascending
  · exact plainEntries_ascending

theorem encode_eq {msg : RelayMessage} (h : validateSemantic msg = true) :
    encode msg =
      (encodeValue (.map ((layout msg.scopeKind).map (entryOf msg)))).mapError .format := by
  rw [encode, h]
  simp only [Bool.not_true, Bool.false_eq_true, if_false]
  have hfields : (if msg.scopeKind = .directGuest then guestEntries else plainEntries).map
      (fun field => .mk field.key (encodeFieldValue msg field)) =
        (layout msg.scopeKind).map (entryOf msg) := rfl
  rw [hfields]
  cases encodeValue (.map ((layout msg.scopeKind).map (entryOf msg))) <;> rfl

/-- What the two written schemas carry is what the encoder lays out. -/
theorem mem_layout {msg : RelayMessage} (hrendered : Rendered msg) (hschema : msg.wireSchema ≠ 1)
    (field : Field) :
    field ∈ layout msg.scopeKind ↔ (schemaMask msg.wireSchema).testBit field.index = true := by
  unfold layout
  by_cases hguest : msg.wireSchema = 3
  · rw [if_pos (hrendered.guestScope.mpr hguest), hguest]
    cases field <;> decide
  have htwo : msg.wireSchema = 2 := by
    rcases hrendered.schema with h | h | h
    · exact absurd h hschema
    · exact h
    · exact absurd h hguest
  rw [if_neg fun hscope => hguest (hrendered.guestScope.mp hscope), htwo]
  cases field <;> decide

theorem encode_decode {msg : RelayMessage} (h : decode bytes = .ok msg)
    (hschema : msg.wireSchema ≠ 1) : encode msg = .ok bytes := by
  obtain ⟨hvalid, fields, hdecode, hfields⟩ := decode_fields h
  have hentries := decode_map_ascending hdecode
  rw [Ascending, pairwise_map] at hentries
  have hasc : Ascending Field.key fields := hentries
  have hlayout : fields = layout msg.scopeKind := by
    refine hasc.ext (layout_ascending _) fun field => ?_
    rw [hfields, mem_layout (decode_rendered h) hschema]
  rw [encode_eq hvalid, ← hlayout, encodeValue_decode hdecode]
  rfl

section Spelling

theorem isAlphanumeric_ascii {byte : UInt8} (h : V1.isAlphanumeric byte = true) : byte < 0x80 := by
  simp only [V1.isAlphanumeric, asciiAlpha, asciiDigit, Bool.or_eq_true, Bool.and_eq_true,
    decide_eq_true_eq] at h
  simp only [UInt8.lt_iff_toNat_lt, UInt8.reduceToNat]
  omega

theorem scalars_of_validUtf8Field {bytes : Bytes} {maxLen : Nat} {allowEmpty : Bool}
    (h : V1.validUtf8Field bytes maxLen allowEmpty = true) : Scalars bytes := by
  unfold V1.validUtf8Field at h
  split_ifs at h
  · rw [Bool.and_eq_true] at h
    exact scalars_of_validateUtf8 h.2

theorem scalars_of_validTextField {bytes : Bytes} {maxLen : Nat} {allowEmpty : Bool}
    (h : V1.validTextField bytes maxLen allowEmpty = true) : Scalars bytes := by
  unfold V1.validTextField at h
  split_ifs at h
  · rw [Bool.and_eq_true] at h
    exact scalars_of_validateUtf8 h.2

theorem scalars_of_validHost {host : Bytes} (h : V1.validHost host = true) : Scalars host := by
  unfold V1.validHost at h
  split_ifs at h
  refine Scalars.ascii fun byte hbyte => ?_
  have hb := all_eq_true.mp h byte hbyte
  rw [Bool.or_eq_true, decide_eq_true_eq] at hb
  rcases hb with hb | hb
  · exact isAlphanumeric_ascii hb
  · revert hb
    simp only [mem_cons, not_mem_nil, or_false]
    rintro (rfl | rfl | rfl | rfl | rfl | rfl | rfl) <;> decide

theorem scalars_of_validDataTag {tag : Bytes} (h : V1.validDataTag tag = true) : Scalars tag := by
  unfold V1.validDataTag at h
  split_ifs at h
  refine Scalars.ascii fun byte hbyte => ?_
  have hb := all_eq_true.mp h byte hbyte
  rw [Bool.or_eq_true, beq_iff_eq] at hb
  rcases hb with hb | rfl
  · exact isAlphanumeric_ascii hb
  · decide

theorem scalars_of_validAccount {account : Bytes} (h : V1.validAccount account = true) :
    Scalars account := by
  unfold V1.validAccount at h
  split at h
  · next hlen =>
    rw [length_eq_zero_iff.mp hlen]
    exact .nil
  · rw [Bool.and_eq_true] at h
    exact scalars_of_validUtf8Field h.1

theorem scalars_of_validTags {raw : Bytes} (h : V1.validTags raw = true) : Scalars raw := by
  unfold V1.validTags at h
  split at h
  · next hlen =>
    rw [length_eq_zero_iff.mp hlen]
    exact .nil
  · rw [Bool.and_eq_true] at h
    exact scalars_of_validUtf8Field h.1

theorem scalars_of_validChannel {channel : Bytes} (h : V1.validChannel channel = true) :
    Scalars channel := by
  unfold V1.validChannel at h
  split at h
  · cases h
  simp only at h
  split at h
  · next hpercent =>
    have hsplit : channel = [0x25] ++ channel.drop 1 := by
      cases channel with
      | nil => cases hpercent.2
      | cons first rest =>
        cases hpercent.2
        rfl
    rw [hsplit]
    exact (Scalars.octet (by decide)).append (scalars_of_channel h)
  · exact scalars_of_channel h

theorem scalars_of_validPrefix {source nick : Bytes} (h : V1.validPrefix source nick = true) :
    Scalars source := by
  unfold V1.validPrefix at h
  split at h
  · cases h
  split at h
  · cases h
  rename_i bang hbang
  split at h
  · cases h
  rename_i atRel hat
  simp only [Bool.if_false_left, Bool.and_eq_true, Bool.not_eq_true', decide_eq_false_iff_not,
    Bool.or_eq_true, not_or, Bool.not_eq_false] at h
  obtain ⟨-, -, ⟨hnick, -⟩, huser, hhost⟩ := h
  have hsplit := V1.indexOfScalar_split hbang
  have hrest := V1.indexOfScalar_split hat
  rw [drop_drop, show bang + 1 + (atRel + 1) = bang + 1 + atRel + 1 by omega] at hrest
  rw [hrest] at hsplit
  rw [hsplit]
  have huser : Scalars _ := scalars_of_validUtf8Field (Bool.and_eq_true _ _ ▸ huser).1
  have hbang : Scalars [0x21] := Scalars.octet (by decide)
  have hat : Scalars [0x40] := Scalars.octet (by decide)
  exact (scalars_of_nick hnick).append
    (hbang.append (huser.append (hat.append (scalars_of_validHost hhost))))

theorem scalars_of_validVerb {msg : V1.RelayMessage} {targetIsChannel : Bool}
    (h : V1.validVerb msg targetIsChannel = true) : Scalars msg.dataTag ∧
    Scalars msg.recipient := by
  have hempty : ∀ {bytes : Bytes}, bytes.length = 0 → Scalars bytes := by
    intro bytes hlen
    rw [length_eq_zero_iff.mp hlen]
    exact .nil
  unfold V1.validVerb at h
  split at h <;> simp only [Bool.not_eq_true', Bool.or_eq_false_iff, bne_eq_false_iff_eq,
    beq_eq_false_iff_ne, Bool.not_eq_false'] at h
  · exact ⟨hempty h.1.2, hempty h.2⟩
  · exact ⟨hempty h.1.2, hempty h.2⟩
  · exact ⟨hempty h.1.2, hempty h.2⟩
  · exact ⟨scalars_of_validDataTag h.1.2, hempty h.2⟩
  · exact ⟨scalars_of_validDataTag h.1.2, hempty h.2⟩
  · exact ⟨scalars_of_validDataTag h.1.2, hempty h.2⟩
  · exact ⟨hempty h.1.2, scalars_of_nick h.2⟩

/-- Every text of a message the shared grammar accepts is UTF-8. -/
theorem scalars_of_validateSemantic {msg : V1.RelayMessage} (h : V1.validateSemantic msg = true) :
    Scalars msg.sourcePrefix ∧ Scalars msg.account ∧ Scalars msg.tags ∧ Scalars msg.text ∧
      Scalars msg.target ∧ Scalars msg.dataTag ∧ Scalars msg.recipient := by
  simp only [V1.validateSemantic, Bool.if_false_left, Bool.and_eq_true, Bool.not_eq_true',
    decide_eq_false_iff_not, Bool.not_eq_false] at h
  obtain ⟨-, -, hsource, haccount, htags, htext, htarget, -, -, -, -, hverb⟩ := h
  refine ⟨scalars_of_validPrefix hsource, scalars_of_validAccount haccount,
    scalars_of_validTags htags, scalars_of_validTextField htext, ?_, scalars_of_validVerb hverb⟩
  cases hchannel : V1.validChannel msg.target with
  | true => exact scalars_of_validChannel hchannel
  | false =>
    have hnick : V1.validNick msg.target = true := by simpa [hchannel] using htarget
    exact scalars_of_nick hnick

end Spelling

section Encodable

variable {msg : RelayMessage}

/-- What the encoder relies on beside the bounds. -/
structure Spelled (msg : RelayMessage) : Prop where
  source : Scalars msg.sourcePrefix
  account : Scalars msg.account
  tags : Scalars msg.tags
  text : Scalars msg.text
  target : Scalars msg.target
  dataTag : Scalars msg.dataTag
  recipient : Scalars msg.recipient
  minRank : msg.minRank ≤ 4
  senderRouteId : ∀ id ∈ msg.senderRouteId, allZero id.val = false
  recipientRouteId : ∀ id ∈ msg.recipientRouteId, allZero id.val = false

theorem spelled_of_validateBody (h : validateBody msg = true) : Spelled msg := by
  unfold validateBody at h
  split at h
  · cases h
  split at h
  · cases h
  rename_i nick hnick
  simp only [Bool.if_false_left, Bool.and_eq_true, Bool.not_eq_true', decide_eq_false_iff_not,
    Bool.not_eq_false, not_and, Bool.not_eq_true] at h
  obtain ⟨-, hgrammar, hsender, -, hrecipientRoute, -, -⟩ := h
  obtain ⟨hsource, haccount, htags, htext, htarget, hdata, hrecipient⟩ :=
    scalars_of_validateSemantic hgrammar
  have hrank : msg.minRank ≤ 4 := by
    simp only [V1.validateSemantic, Bool.if_false_left, Bool.and_eq_true, Bool.not_eq_true',
      decide_eq_false_iff_not] at hgrammar
    exact UInt8.not_lt.mp hgrammar.1
  refine ⟨?_, haccount, htags, htext, htarget, hdata, hrecipient, hrank, ?_, ?_⟩
  · cases hweb : isWebhookSourceNick nick with
    | false =>
      rw [hweb] at hsource
      exact hsource
    | true =>
      have hhead := webhook_head hnick hweb
      rw [hweb] at hsource
      have hdrop : Scalars (msg.sourcePrefix.drop 1) := hsource
      cases htext : msg.sourcePrefix with
      | nil =>
        rw [htext] at hhead
        cases hhead
      | cons first rest =>
        rw [htext] at hhead hdrop
        cases hhead
        have hequals : Scalars [0x3d] := Scalars.octet (by decide)
        exact hequals.append hdrop
  · intro id hid
    rw [Option.mem_def.mp hid] at hsender
    exact hsender
  · intro id hid
    rw [Option.mem_def.mp hid] at hrecipientRoute
    exact hrecipientRoute

/-- The ids of a guest are not zero, and no other scope has them. -/
theorem guest_ids (h : Rendered msg) : (∀ id ∈ msg.recipientGuestOrigin, allZero id.val = false) ∧
    ∀ id ∈ msg.recipientGuestId, allZero id.val = false := by
  by_cases hguest : msg.wireSchema = 3
  · have hscope := h.scope
    simp only [validScope, h.guestScope.mpr hguest, Bool.and_eq_true] at hscope
    obtain ⟨⟨-, horigin⟩, hid⟩ := hscope
    refine ⟨fun id hmem => ?_, fun id hmem => ?_⟩
    · rw [Option.mem_def.mp hmem] at horigin
      simpa using horigin
    · rw [Option.mem_def.mp hmem] at hid
      simpa using hid
  · obtain ⟨horigin, hid⟩ := h.plain hguest
    rw [horigin, hid]
    exact ⟨by simp, by simp⟩

theorem optionalBytes_length {len : Nat} (value : Option (FixedBytes len)) :
    (optionalBytes value).length ≤ len := by
  cases value with
  | none => exact Nat.zero_le _
  | some bytes => exact bytes.property.le

theorem readFixed_optionalBytes {len : Nat} {value : Option (FixedBytes len)} (hlen : 0 < len)
    (h : ∀ id ∈ value, allZero id.val = false) : readFixed len (.bytes (optionalBytes value)) =
      .ok value := by
  cases value with
  | none => rfl
  | some id =>
    have hid : id.val.length = len := id.property
    show (if id.val.length = 0 then _ else _) = _
    rw [if_neg (by omega)]
    simp only [optionalBytes, hid, dite_true, h id rfl]
    rfl

theorem readRank_toUInt64 {rank : UInt8} (h : rank ≤ 4) :
    readRank (.unsigned rank.toUInt64) = .ok rank := by
  have hle : ¬4 < rank.toUInt64 := by
    rw [UInt64.not_lt, UInt64.le_iff_toNat_le, UInt8.toNat_toUInt64]
    exact UInt8.le_iff_toNat_le.mp h
  show (if 4 < rank.toUInt64 then _ else _) = _
  rw [if_neg hle]
  show Except.ok rank.toUInt64.toUInt8 = _
  rw [UInt8.toUInt8_toUInt64]

theorem readModes_modesWord (modes : Option UInt8) :
    readModes (.unsigned (modesWord modes)) = .ok modes := by
  cases modes with
  | none => rfl
  | some modes =>
    have hlt := modes.toNat_lt
    have hle : ¬256 < modes.toUInt64 := by
      rw [UInt64.not_lt, UInt64.le_iff_toNat_le, UInt8.toNat_toUInt64]
      exact hlt.le
    have hne : modes.toUInt64 ≠ 256 := by
      intro heq
      have hnat := congrArg UInt64.toNat heq
      rw [UInt8.toNat_toUInt64] at hnat
      have h256 : (256 : UInt64).toNat = 256 := rfl
      omega
    show (if 256 < modes.toUInt64 then _ else _) = _
    rw [if_neg hle]
    show Except.ok (if modes.toUInt64 = 256 then none else some modes.toUInt64.toUInt8) = _
    rw [if_neg hne, UInt8.toUInt8_toUInt64]

theorem readVerb_code (verb : Verb) : readVerb (.unsigned verb.code.toUInt64) = .ok verb := by
  cases verb <;> rfl

theorem readScope_code (scope : ScopeKind) :
    readScope (.unsigned scope.code.toUInt64) = .ok scope := by
  cases scope <;> rfl

theorem setField_written (hspelled : Spelled msg) (hrendered : Rendered msg) (field : Field)
    (base : RelayMessage) :
    ∃ next, setField base (encodeFieldValue msg field) field = .ok next := by
  obtain ⟨horigin, hid⟩ := guest_ids hrendered
  cases field with
  | minRank =>
    refine ⟨{ base with minRank := msg.minRank }, ?_⟩
    show (readRank (.unsigned msg.minRank.toUInt64) >>= _) = _
    rw [readRank_toUInt64 hspelled.minRank]
    rfl
  | verb =>
    refine ⟨{ base with verb := msg.verb }, ?_⟩
    show (readVerb (.unsigned msg.verb.code.toUInt64) >>= _) = _
    rw [readVerb_code]
    rfl
  | scopeKind =>
    refine ⟨{ base with scopeKind := msg.scopeKind }, ?_⟩
    show (readScope (.unsigned msg.scopeKind.code.toUInt64) >>= _) = _
    rw [readScope_code]
    rfl
  | senderMemberModes =>
    refine ⟨{ base with senderMemberModes := msg.senderMemberModes }, ?_⟩
    rw [encodeFieldValue_modes]
    show (readModes (.unsigned (modesWord msg.senderMemberModes)) >>= _) = _
    rw [readModes_modesWord]
    rfl
  | senderRouteId =>
    refine ⟨{ base with senderRouteId := msg.senderRouteId }, ?_⟩
    show (readFixed 16 (.bytes (optionalBytes msg.senderRouteId)) >>= _) = _
    rw [readFixed_optionalBytes (by decide) hspelled.senderRouteId]
    rfl
  | recipientRouteId =>
    refine ⟨{ base with recipientRouteId := msg.recipientRouteId }, ?_⟩
    show (readFixed 16 (.bytes (optionalBytes msg.recipientRouteId)) >>= _) = _
    rw [readFixed_optionalBytes (by decide) hspelled.recipientRouteId]
    rfl
  | recipientGuestId =>
    refine ⟨{ base with recipientGuestId := msg.recipientGuestId }, ?_⟩
    show (readFixed 16 (.bytes (optionalBytes msg.recipientGuestId)) >>= _) = _
    rw [readFixed_optionalBytes (by decide) hid]
    rfl
  | recipientGuestOrigin =>
    refine ⟨{ base with recipientGuestOrigin := msg.recipientGuestOrigin }, ?_⟩
    show (readFixed 32 (.bytes (optionalBytes msg.recipientGuestOrigin)) >>= _) = _
    rw [readFixed_optionalBytes (by decide) horigin]
    rfl
  | _ => exact ⟨_, rfl⟩

theorem find_key (field : Field) :
    Field.all.find? (fun other => other.key == field.key) = some field := by
  cases field <;> decide

theorem claimField_ok {seen : Nat} {field : Field} (h : seen.testBit field.index = false) :
    claimField seen field = .ok (seen ||| 1 <<< field.index) := by
  rw [claimField, Nat.one_shiftLeft, Nat.and_two_pow, h, Bool.toNat_false, Nat.zero_mul,
    if_neg (by simp)]

theorem decodeFields_written (hspelled : Spelled msg) (hrendered : Rendered msg)
    {fields : List Field}
    (hnodup : fields.Nodup) {seen : Nat}
    (hfree : ∀ field ∈ fields, seen.testBit field.index = false) (base : RelayMessage) :
    ∃ next, decodeFields (fields.map (entryOf msg)) seen base =
      .ok (fields.foldl (fun seen field => seen ||| 1 <<< field.index) seen, next) := by
  induction fields generalizing seen base with
  | nil => exact ⟨base, rfl⟩
  | cons field fields ih =>
    obtain ⟨hfield, hfields⟩ := forall_mem_cons.mp hfree
    obtain ⟨hnew, hnodup⟩ := nodup_cons.mp hnodup
    obtain ⟨set, hset⟩ := setField_written hspelled hrendered field base
    have hclaim := claimField_ok hfield
    have hrest : ∀ other ∈ fields, (seen ||| 1 <<< field.index).testBit other.index = false := by
      intro other hother
      rw [claimField_testBit hclaim, hfields other hother, Bool.false_or, decide_eq_false_iff_not]
      intro heq
      obtain rfl := Field.index_inj heq
      exact hnew hother
    obtain ⟨next, hnext⟩ := ih hnodup hrest set
    refine ⟨next, ?_⟩
    rw [map_cons, decodeFields]
    have hkey : (entryOf msg field).key = field.key := rfl
    have hvalue : (entryOf msg field).value = encodeFieldValue msg field := rfl
    simp only [hkey, hvalue, find_key, hclaim, hset]
    exact hnext

theorem optionalBytes_injective {len : Nat} {a b : Option (FixedBytes len)} (hlen : 0 < len)
    (h : optionalBytes a = optionalBytes b) : a = b := by
  cases a with
  | none =>
    cases b with
    | none => rfl
    | some id =>
      have hid : id.val.length = len := id.property
      rw [← show ([] : Bytes) = id.val from h] at hid
      exact absurd hid (by simpa using hlen.ne)
  | some id =>
    cases b with
    | none =>
      have hid : id.val.length = len := id.property
      rw [show id.val = [] from h] at hid
      exact absurd hid (by simpa using hlen.ne)
    | some other => exact congrArg some (Subtype.ext h)

/-- The fields and the schema are the whole message. -/
theorem message_ext {other : RelayMessage} (hschema : msg.wireSchema = other.wireSchema)
    (h : ∀ field, encodeFieldValue msg field = encodeFieldValue other field) : msg = other := by
  have hverb : msg.verb = other.verb := by
    have hread := readVerb_code msg.verb
    rw [show Value.unsigned msg.verb.code.toUInt64 =
      .unsigned other.verb.code.toUInt64 from h .verb, readVerb_code] at hread
    exact (ok.inj hread).symm
  have hscope : msg.scopeKind = other.scopeKind := by
    have hread := readScope_code msg.scopeKind
    rw [show Value.unsigned msg.scopeKind.code.toUInt64 =
      .unsigned other.scopeKind.code.toUInt64 from h .scopeKind, readScope_code] at hread
    exact (ok.inj hread).symm
  have hmodes : msg.senderMemberModes = other.senderMemberModes := by
    have hread := readModes_modesWord msg.senderMemberModes
    rw [← encodeFieldValue_modes, h, encodeFieldValue_modes, readModes_modesWord] at hread
    exact (ok.inj hread).symm
  have hrank : msg.minRank = other.minRank := by
    have heq := Value.unsigned.inj (h .minRank)
    rw [← UInt8.toUInt8_toUInt64 msg.minRank, heq, UInt8.toUInt8_toUInt64]
  have hsender := optionalBytes_injective (by decide) (Value.bytes.inj (h .senderRouteId))
  have hrecipient := optionalBytes_injective (by decide) (Value.bytes.inj (h .recipientRouteId))
  have horigin := optionalBytes_injective (by decide) (Value.bytes.inj (h .recipientGuestOrigin))
  have hguest := optionalBytes_injective (by decide) (Value.bytes.inj (h .recipientGuestId))
  have htarget := Value.string.inj (h .target)
  have hsource := Value.string.inj (h .sourcePrefix)
  have haccount := Value.string.inj (h .account)
  have htags := Value.string.inj (h .tags)
  have htext := Value.string.inj (h .text)
  have hdata := Value.string.inj (h .dataTag)
  have hnick := Value.string.inj (h .recipient)
  have hnode := Value.unsigned.inj (h .originNode)
  have hhlc := Value.unsigned.inj (h .hlc)
  have hkey := Value.bytes.inj (h .originPubkey)
  have hsig := Value.bytes.inj (h .originSig)
  cases msg
  cases other
  simp_all only

theorem Field.key_inj {a b : Field} (h : a.key = b.key) : a = b := by
  have hfind := find_key a
  rw [h, find_key] at hfind
  exact (Option.some.inj hfind).symm

theorem encodeFieldValue_wellFormed (hspelled : Spelled msg) (hrendered : Rendered msg)
    (hpubkey : msg.originPubkey.length = 32) (hsig : msg.originSig.length = 64) (field : Field) :
    (encodeFieldValue msg field).WellFormed := by
  have hstring : ∀ {bytes : Bytes} {limit : Nat}, bytes.length ≤ limit → limit < 2 ^ 64 →
      Scalars bytes →
      (Value.string bytes).WellFormed := by
    intro bytes limit hle hlt hscalars
    exact .string (hle.trans_lt hlt) (validateUtf8_of_scalars hscalars)
  have hoptional : ∀ {len : Nat} (value : Option (FixedBytes len)), len < 2 ^ 64 →
      (Value.bytes (optionalBytes value)).WellFormed := by
    intro len value hlt
    exact .bytes ((optionalBytes_length value).trans_lt hlt)
  cases field with
  | account => exact hstring hrendered.accountLen (by decide) hspelled.account
  | dataTag => exact hstring hrendered.dataTagLen (by decide) hspelled.dataTag
  | recipient => exact hstring hrendered.recipientLen (by decide) hspelled.recipient
  | sourcePrefix => exact hstring hrendered.sourceLen.2 (by decide) hspelled.source
  | target => exact hstring hrendered.targetLen (by decide) hspelled.target
  | text => exact hstring hrendered.textLen (by decide) hspelled.text
  | tags =>
    refine @hstring msg.tags V1.maxTagsLen ?_ (by decide) hspelled.tags
    rcases hrendered.tags with hempty | ⟨-, hle, -⟩
    · rw [hempty]
      exact Nat.zero_le _
    · exact hle
  | originPubkey => exact .bytes (by rw [hpubkey]; decide)
  | originSig => exact .bytes (by rw [hsig]; decide)
  | senderRouteId | recipientRouteId | recipientGuestId | recipientGuestOrigin =>
      exact hoptional _ (by decide)
  | _ => exact .unsigned _

theorem encodeFieldValue_leaf (msg : RelayMessage) (field : Field) :
    (encodeFieldValue msg field).sorted = encodeFieldValue msg field ∧
      (encodeFieldValue msg field).depth = 0 ∧ (encodeFieldValue msg field).nodes = 1 := by
  cases field <;> exact ⟨rfl, rfl, rfl⟩

theorem key_length (field : Field) : field.key.length < 2 ^ 64 := by
  cases field <;> decide

theorem layout_length (scope : ScopeKind) : (layout scope).length ≤ 19 := by
  cases scope <;> decide

/-- The map of a message is encoded and read back as it is. -/
theorem decode_layout (hspelled : Spelled msg) (hrendered : Rendered msg)
    (hpubkey : msg.originPubkey.length = 32) (hsig : msg.originSig.length = 64) :
    ∃ bytes, encodeValue (.map ((layout msg.scopeKind).map (entryOf msg))) = .ok bytes ∧
      Coilpack.decode bytes = .ok (.map ((layout msg.scopeKind).map (entryOf msg))) := by
  have hasc : Ascending MapEntry.key ((layout msg.scopeKind).map (entryOf msg)) :=
    pairwise_map.mpr (layout_ascending _)
  have hlength := layout_length msg.scopeKind
  have hwell : (Value.map ((layout msg.scopeKind).map (entryOf msg))).WellFormed := by
    refine .map ?_ ?_ ?_ ?_
    · rw [length_map]
      omega
    · simp only [forall_mem_map]
      exact fun field _ => key_length field
    · exact pairwise_map.mpr (hasc.imp fun hab => ne_of_lt hab)
    · simp only [forall_mem_map]
      exact fun field _ => encodeFieldValue_wellFormed hspelled hrendered hpubkey hsig field
  have hsorted : (Value.map ((layout msg.scopeKind).map (entryOf msg))).sorted =
      .map ((layout msg.scopeKind).map (entryOf msg)) := by
    rw [Value.sorted_map, sortByKey_eq_self hasc, map_map]
    congr 1
    refine map_congr_left fun field _ => ?_
    show MapEntry.mk field.key (encodeFieldValue msg field).sorted = _
    rw [(encodeFieldValue_leaf msg field).1, entryOf]
  have hdepth : (Value.map ((layout msg.scopeKind).map (entryOf msg))).depth ≤ maxDecodeDepth := by
    refine Nat.le_of_lt_succ (entriesDepth_lt.mpr ?_)
    simp only [forall_mem_map]
    intro field _
    show (encodeFieldValue msg field).depth < maxDecodeDepth
    rw [(encodeFieldValue_leaf msg field).2.1]
    decide
  have hnodes : (Value.map ((layout msg.scopeKind).map (entryOf msg))).nodes ≤ maxDecodeValues := by
    have hones : ((layout msg.scopeKind).map (entryOf msg)).map (fun entry => entry.value.nodes) =
        (layout msg.scopeKind).map fun _ => 1 := by
      rw [map_map]
      exact map_congr_left fun field _ => (encodeFieldValue_leaf msg field).2.2
    rw [Value.nodes, entriesNodes_eq, hones]
    simp only [map_const', sum_replicate_nat, maxDecodeValues]
    omega
  obtain ⟨bytes, hbytes, hdecode⟩ := decode_encodeValue hwell hdepth hnodes
  rw [hsorted] at hdecode
  exact ⟨bytes, hbytes, hdecode⟩

theorem decode_encode (hvalid : validateSemantic msg = true)
    (hschema : msg.wireSchema = if msg.scopeKind = .directGuest then 3 else 2) :
    ∃ bytes, encode msg = .ok bytes ∧ decode bytes = .ok msg := by
  have hfull := hvalid
  simp only [validateSemantic, Bool.and_eq_true, beq_iff_eq] at hvalid
  obtain ⟨⟨hbody, hpubkey⟩, hsig⟩ := hvalid
  have hne : msg.wireSchema ≠ 1 := by
    rw [hschema]
    split <;> decide
  have hrendered := rendered_of_validateBody hbody fun hone => absurd hone hne
  have hspelled := spelled_of_validateBody hbody
  obtain ⟨bytes, hbytes, hdecode⟩ := decode_layout hspelled hrendered hpubkey hsig
  refine ⟨bytes, by rw [encode_eq hfull, hbytes]; rfl, ?_⟩
  obtain ⟨next, hnext⟩ :=
    decodeFields_written hspelled hrendered (layout_ascending msg.scopeKind).nodup
    (fun field _ => Nat.zero_testBit field.index) blank
  obtain ⟨fields, hfields, -, -, hkeep⟩ := decodeFields_ok hnext
  have hsame : fields = layout msg.scopeKind := by
    have hkeys := congrArg (List.map MapEntry.key) hfields
    rw [map_map, map_map] at hkeys
    exact (map_injective_iff.mpr (fun _ _ => Field.key_inj) hkeys).symm
  subst hsame
  have hvalues : ∀ field, encodeFieldValue next field = encodeFieldValue msg field := by
    intro field
    by_cases hmem : field ∈ layout msg.scopeKind
    · have hentry := map_inj_left.mp hfields field hmem
      exact (MapEntry.mk.inj hentry).2.symm
    · -- Only the two guest fields are ever left out.
      rw [hkeep field hmem]
      rw [mem_layout hrendered hne] at hmem
      have hplain : msg.wireSchema ≠ 3 := by
        intro hguest
        rw [hguest] at hmem
        cases field <;> exact hmem (by decide)
      have htwo : msg.wireSchema = 2 := by
        rcases hrendered.schema with h | h | h
        · exact absurd h hne
        · exact h
        · exact absurd h hplain
      obtain ⟨horigin, hid⟩ := hrendered.plain hplain
      rw [htwo] at hmem
      cases field with
      | recipientGuestId => rw [encodeFieldValue, encodeFieldValue, hid]; rfl
      | recipientGuestOrigin => rw [encodeFieldValue, encodeFieldValue, horigin]; rfl
      | _ => exact absurd (by decide) hmem
  have hmask : (layout msg.scopeKind).foldl (fun seen field => seen ||| 1 <<< field.index) 0 =
      if msg.scopeKind = .directGuest then guestFieldsMask else allFieldsMask := by
    cases msg.scopeKind <;> decide
  have hmsg : { next with wireSchema := msg.wireSchema } = msg :=
    message_ext rfl fun field => by rw [encodeFieldValue_schema, hvalues]
  rw [hmask] at hnext
  rw [decode, hdecode]
  simp only [hnext]
  have hwritten :
      (if (if msg.scopeKind = .directGuest then guestFieldsMask else allFieldsMask) =
        legacyFieldsMask then (1 : UInt8)
      else if (if msg.scopeKind = .directGuest then guestFieldsMask else allFieldsMask) =
        guestFieldsMask then 3
      else 2) = msg.wireSchema := by
    rw [hschema]
    cases msg.scopeKind <;> decide
  have hkept :
      ¬((if msg.scopeKind = .directGuest then guestFieldsMask else allFieldsMask) ≠ allFieldsMask ∧
      (if msg.scopeKind = .directGuest then guestFieldsMask else allFieldsMask) ≠ legacyFieldsMask ∧
      (if msg.scopeKind = .directGuest then guestFieldsMask else allFieldsMask) ≠
        guestFieldsMask) := by
    cases msg.scopeKind <;> decide
  have hlengths : ¬(next.originPubkey.length ≠ 32 ∨ next.originSig.length ≠ 64) := by
    rw [congrArg RelayMessage.originPubkey hmsg, congrArg RelayMessage.originSig hmsg]
    omega
  rw [if_neg hkept, if_neg hlengths, hwritten, hmsg, hfull]
  rfl

end Encodable

end OnyxServer.Relay.V2
