import OnyxServer.Lib.Wire
import OnyxServer.Relay.V2

/-!
# What decoding establishes

The facts about an accepted message that its transcript relies on: which schema
goes with which scope, which route identifiers are present, and the bounds and
octet classes of the leading text fields.
-/
namespace OnyxServer.Relay.V2

open Lib Text Coilpack
open Relay.V1 (Verb)

theorem claimField_testBit {seen next : Nat} {field : Field} (h : claimField seen field = .ok next)
    (index : Nat) : next.testBit index = (seen.testBit index || decide (index = field.index)) := by
  unfold claimField at h
  split_ifs at h
  · cases h
    rw [Nat.testBit_or, Nat.one_shiftLeft, Nat.testBit_two_pow]
    simp only [eq_comm]

theorem setField_modes {msg next : RelayMessage} {value : Value} {field : Field}
    (h : setField msg value field = .ok next) (hfield : field ≠ .senderMemberModes) :
    next.senderMemberModes = msg.senderMemberModes := by
  cases field with
  | senderMemberModes => exact absurd rfl hfield
  | _ =>
    simp only [setField, bind_pure_comp] at h
    obtain ⟨x, -, rfl⟩ := map_ok h
    rfl

/-- Member modes are read only from their own field. -/
theorem decodeFields_modes {entries : List MapEntry} {seen final : Nat} {msg next : RelayMessage}
    (h : decodeFields entries seen msg = .ok (final, next))
    (hmodes : seen.testBit Field.senderMemberModes.index = false → msg.senderMemberModes = none) :
    final.testBit Field.senderMemberModes.index = false → next.senderMemberModes = none := by
  induction entries generalizing seen msg with
  | nil =>
    cases h
    exact hmodes
  | cons entry entries ih =>
    unfold decodeFields at h
    split at h
    · cases h
    rename_i field _
    split at h
    · cases h
    rename_i claimed hclaim
    split at h
    · cases h
    rename_i set hset
    refine ih h fun hbit => ?_
    rw [claimField_testBit hclaim, Bool.or_eq_false_iff, decide_eq_false_iff_not] at hbit
    rw [setField_modes hset fun hf => hbit.2 (by rw [hf])]
    exact hmodes hbit.1

/-- What the transcript relies on. -/
structure Rendered (msg : RelayMessage) : Prop where
  schema : msg.wireSchema = 1 ∨ msg.wireSchema = 2 ∨ msg.wireSchema = 3
  legacy : msg.wireSchema = 1 → msg.senderMemberModes = none
  guestScope : msg.scopeKind = .directGuest ↔ msg.wireSchema = 3
  guest : msg.wireSchema = 3 →
    msg.recipientGuestOrigin.isSome = true ∧ msg.recipientGuestId.isSome = true
  plain : msg.wireSchema ≠ 3 → msg.recipientGuestOrigin = none ∧ msg.recipientGuestId = none
  sourceLen : 5 ≤ msg.sourcePrefix.length ∧ msg.sourcePrefix.length ≤ V1.maxPrefixLen
  sourceOctets : ∀ byte ∈ msg.sourcePrefix, 0x20 ≤ byte
  sourceBang : 0x21 ∈ msg.sourcePrefix
  accountLen : msg.account.length ≤ V1.maxAccountLen
  accountOctets : ∀ byte ∈ msg.account, 0x2d ≤ byte
  tags : msg.tags = [] ∨
    (2 ≤ msg.tags.length ∧ msg.tags.length ≤ V1.maxTagsLen ∧ msg.tags.head? = some 0x2b)
  targetLen : msg.target.length ≤ V1.maxChannelLen
  textLen : msg.text.length ≤ V1.maxTextLen
  dataTagLen : msg.dataTag.length ≤ V1.maxDataTagLen
  recipientLen : msg.recipient.length ≤ V1.maxNickLen
  scope : validScope msg = true

theorem validTextField_length {bytes : Bytes} {maxLen : Nat} {allowEmpty : Bool}
    (h : V1.validTextField bytes maxLen allowEmpty = true) : bytes.length ≤ maxLen := by
  unfold V1.validTextField at h
  split_ifs at h
  · omega

theorem validChannel_length {channel : Bytes} (h : V1.validChannel channel = true) :
    channel.length ≤ V1.maxChannelLen := by
  unfold V1.validChannel at h
  split at h
  · cases h
  · omega

theorem validDataTag_length {tag : Bytes} (h : V1.validDataTag tag = true) :
    tag.length ≤ V1.maxDataTagLen := by
  unfold V1.validDataTag at h
  split_ifs at h
  · omega

theorem validVerb_lengths {msg : V1.RelayMessage} {targetIsChannel : Bool}
    (h : V1.validVerb msg targetIsChannel = true) :
    msg.dataTag.length ≤ V1.maxDataTagLen ∧ msg.recipient.length ≤ V1.maxNickLen := by
  unfold V1.validVerb at h
  split at h <;> simp only [Bool.not_eq_true', Bool.or_eq_false_iff, bne_eq_false_iff_eq,
    beq_eq_false_iff_ne, Bool.not_eq_false'] at h
  · exact ⟨by omega, by omega⟩
  · exact ⟨by omega, by omega⟩
  · exact ⟨by omega, by omega⟩
  · exact ⟨validDataTag_length h.1.2, by omega⟩
  · exact ⟨validDataTag_length h.1.2, by omega⟩
  · exact ⟨validDataTag_length h.1.2, by omega⟩
  · exact ⟨by omega, (isValidNickWith_octets h.2).1.2⟩

theorem validateSemantic_spec {msg : V1.RelayMessage} (h : V1.validateSemantic msg = true) :
    V1.validPrefix msg.sourcePrefix msg.sourceNick = true ∧ V1.validAccount msg.account = true ∧
      V1.validTags msg.tags = true ∧ msg.text.length ≤ V1.maxTextLen ∧
      msg.target.length ≤ V1.maxChannelLen ∧
      msg.dataTag.length ≤ V1.maxDataTagLen ∧ msg.recipient.length ≤ V1.maxNickLen := by
  simp only [V1.validateSemantic, Bool.if_false_left, Bool.and_eq_true, Bool.not_eq_true',
    decide_eq_false_iff_not, Bool.not_eq_false] at h
  obtain ⟨-, -, hsource, haccount, htags, htext, htarget, -, -, -, -, hverb⟩ := h
  obtain ⟨hdata, hrecipient⟩ := validVerb_lengths hverb
  refine ⟨hsource, haccount, htags, validTextField_length htext, ?_, hdata, hrecipient⟩
  cases hchannel : V1.validChannel msg.target with
  | true => exact validChannel_length hchannel
  | false =>
    have hnick : V1.validNick msg.target = true := by simpa [hchannel] using htarget
    exact (isValidNickWith_octets hnick).1.2.trans (by decide)

variable {msg : RelayMessage}

/-- The prefix of a webhook source opens with `=`. -/
theorem webhook_head {nick : Bytes} (hnick : msg.sourceNick = some nick)
    (hweb : isWebhookSourceNick nick = true) : msg.sourcePrefix.head? = some 0x3d := by
  unfold RelayMessage.sourceNick at hnick
  split at hnick
  · cases hnick
  split at hnick
  · cases hnick
  cases hnick
  simp only [isWebhookSourceNick, Bool.and_eq_true, beq_iff_eq] at hweb
  rw [List.head?_take, if_neg (by assumption)] at hweb
  exact hweb.1.2

/-- A webhook prefix is `=` and then an ordinary one. -/
theorem source_spec {nick : Bytes} (hnick : msg.sourceNick = some nick)
    (hshape : isWebhookSourceNick nick = true → webhookShape msg = true)
    (h : V1.validPrefix (grammarView msg nick (isWebhookSourceNick nick)).sourcePrefix
      (grammarView msg nick (isWebhookSourceNick nick)).sourceNick = true) :
    (5 ≤ msg.sourcePrefix.length ∧ msg.sourcePrefix.length ≤ V1.maxPrefixLen) ∧
      (∀ byte ∈ msg.sourcePrefix, 0x20 ≤ byte) ∧ 0x21 ∈ msg.sourcePrefix := by
  cases hweb : isWebhookSourceNick nick with
  | false =>
    rw [hweb] at h
    exact V1.validPrefix_spec h
  | true =>
    rw [hweb] at h
    obtain ⟨⟨hmin, -⟩, hoctets, hbang⟩ :=
      V1.validPrefix_spec (show V1.validPrefix (msg.sourcePrefix.drop 1) (nick.drop 1) =
        true from h)
    have hmax := hshape hweb
    simp only [webhookShape, Bool.and_eq_true, decide_eq_true_eq] at hmax
    have hhead := webhook_head hnick hweb
    cases hsource : msg.sourcePrefix with
    | nil => rw [hsource] at hhead; cases hhead
    | cons first rest =>
      rw [hsource] at hmin hoctets hbang hhead hmax
      simp only [List.drop_succ_cons, List.drop_zero] at hmin hoctets hbang
      cases hhead
      refine ⟨⟨?_, hmax.2⟩, fun byte hbyte => ?_, List.mem_cons_of_mem _ hbang⟩
      · rw [List.length_cons]
        omega
      · rcases List.mem_cons.mp hbyte with rfl | hbyte
        · decide
        · exact hoctets byte hbyte

theorem rendered_of_validateBody (h : validateBody msg = true)
    (hlegacy : msg.wireSchema = 1 → msg.senderMemberModes = none) : Rendered msg := by
  unfold validateBody at h
  split at h
  · cases h
  rename_i hschema
  split at h
  · cases h
  rename_i nick hnick
  simp only [Bool.if_false_left, Bool.and_eq_true, Bool.not_eq_true', decide_eq_false_iff_not,
    Bool.not_eq_false, not_and, Bool.not_eq_true] at h
  obtain ⟨hshape, hgrammar, -, -, -, hscope, hguest⟩ := h
  obtain ⟨hsource, haccount, htags, htext, htarget, hdata, hrecipient⟩ :=
    validateSemantic_spec hgrammar
  obtain ⟨hlen, hoctets, hbang⟩ := source_spec hnick (fun hweb => by
    simpa using hshape hweb) hsource
  obtain ⟨haccountLen, haccountOctets⟩ := V1.validAccount_spec haccount
  have hscope' := hscope
  have hplain : msg.scopeKind ≠ .directGuest → msg.wireSchema ≠ 3 ∧
      msg.recipientGuestOrigin = none ∧ msg.recipientGuestId = none := by
    intro hkind
    simpa [hkind, and_assoc] using hguest
  have hguestScope : msg.scopeKind = .directGuest → msg.wireSchema = 3 ∧
      msg.recipientGuestOrigin.isSome = true ∧ msg.recipientGuestId.isSome = true := by
    intro hkind
    simp only [validScope, hkind, Bool.and_eq_true, Bool.not_eq_true', Bool.or_eq_false_iff,
      bne_eq_false_iff_eq] at hscope
    obtain ⟨⟨hrest, horigin⟩, hid⟩ := hscope
    refine ⟨hrest.1.1.1.1.1, ?_, ?_⟩
    · cases ho : msg.recipientGuestOrigin with
      | none => rw [ho] at horigin; cases horigin
      | some _ => rfl
    · cases hi : msg.recipientGuestId with
      | none => rw [hi] at hid; cases hid
      | some _ => rfl
  exact {
    schema := by
      by_contra hn
      exact hschema (by simpa only [not_or] using hn)
    legacy := hlegacy
    guestScope := ⟨fun hk => (hguestScope hk).1, fun h3 => by
      by_contra hk
      exact (hplain hk).1 h3⟩
    guest := fun h3 => by
      have hk : msg.scopeKind = .directGuest := by
        by_contra hk
        exact (hplain hk).1 h3
      exact (hguestScope hk).2
    plain := fun h3 => (hplain fun hk => h3 (hguestScope hk).1).2
    sourceLen := hlen
    sourceOctets := hoctets
    sourceBang := hbang
    accountLen := haccountLen
    accountOctets := haccountOctets
    tags := V1.validTags_spec htags
    targetLen := htarget
    textLen := htext
    dataTagLen := hdata
    recipientLen := hrecipient
    scope := hscope' }

theorem decode_rendered {bytes : Bytes} (h : decode bytes = .ok msg) :
    Rendered msg := by
  unfold decode at h
  split at h
  · cases h
  · split at h
    · cases h
    rename_i seen fields hfields
    split at h
    · cases h
    generalize hschema : (if seen = legacyFieldsMask then (1 : UInt8)
      else if seen = guestFieldsMask then 3 else 2) = schema at h
    simp only at h
    split_ifs at h with _ hvalid
    cases h
    simp only [validateSemantic, Bool.not_and, Bool.or_eq_true, Bool.not_eq_true',
      not_or, Bool.not_eq_false] at hvalid
    refine rendered_of_validateBody hvalid.1.1 ?_
    rintro rfl
    have hseen : seen = legacyFieldsMask := by
      by_contra hne
      rw [if_neg hne] at hschema
      split at hschema <;> cases hschema
    have hmodes := decodeFields_modes hfields fun _ => rfl
    exact hmodes (by rw [hseen]; decide)
  · cases h

end OnyxServer.Relay.V2
