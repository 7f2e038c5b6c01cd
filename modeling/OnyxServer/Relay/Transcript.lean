import OnyxServer.Relay.Rendered

/-!
# The transcript identifies the message

Within one schema the transcript is a sequence of self-delimiting pieces. Schemas 1
and 2 share a signing domain and carry no schema tag: schema 2 puts the member modes
in front of the route identifiers. Every reading of one as the other shifts the
length-prefixed text fields against each other, and the bounds and octet classes of
the leading fields refuse each of the four possible shifts.
-/
namespace OnyxServer.Relay.V2

open Lib Text List Option
open Relay.V1 (Verb)

def lenPrefixed (field : Bytes) : Bytes := leBytes 4 field.length ++ field

theorem leBytes_inj {w a b : Nat} (ha : a < 256 ^ w) (hb : b < 256 ^ w)
    (h : leBytes w a = leBytes w b) : a = b := by
  rw [← leNat_leBytes ha, ← leNat_leBytes hb, h]

theorem lenPrefixed_inj {a b x y : Bytes} (ha : a.length < 2 ^ 32) (hb : b.length < 2 ^ 32)
    (h : lenPrefixed a ++ x = lenPrefixed b ++ y) : a = b ∧ x = y := by
  rw [lenPrefixed, lenPrefixed, append_assoc, append_assoc] at h
  obtain ⟨hlen, hrest⟩ := append_inj h (by simp)
  exact append_inj hrest (leBytes_inj (by simpa using ha) (by simpa using hb) hlen)

variable {x y : Bytes}

theorem appendRoute_inj {a b : Option RouteId}
    (h : appendRoute a ++ x = appendRoute b ++ y) : a = b ∧ x = y := by
  cases a with
  | none =>
    cases b with
    | none => exact ⟨rfl, append_cancel_left h⟩
    | some id => cases h
  | some id =>
    cases b with
    | none => cases h
    | some id' =>
      simp only [appendRoute, cons_append, List.cons.injEq, true_and] at h
      obtain ⟨hid, hrest⟩ := append_inj h (id.property.trans id'.property.symm)
      exact ⟨congrArg some (Subtype.ext hid), hrest⟩

theorem lenPrefixed_short {field : Bytes} (h : field.length < 65536) :
    lenPrefixed field = UInt8.ofNat field.length :: UInt8.ofNat (field.length / 256) ::
      0 :: 0 :: field := by
  have h2 : field.length / 256 / 256 = 0 := by omega
  simp [lenPrefixed, leBytes, h2]

/-- The fields behind the account. -/
def tailBytes (msg : RelayMessage) : Bytes :=
  lenPrefixed msg.tags ++ (lenPrefixed msg.target ++ (lenPrefixed msg.text ++
    (lenPrefixed msg.dataTag ++ lenPrefixed msg.recipient)))

def fieldBytes (msg : RelayMessage) : Bytes :=
  lenPrefixed msg.sourcePrefix ++ (lenPrefixed msg.account ++ tailBytes msg)

def guestBytes (msg : RelayMessage) : Bytes :=
  if msg.wireSchema = 3 then
    optionalBytes msg.recipientGuestOrigin ++ optionalBytes msg.recipientGuestId
  else []

def headerBytes (msg : RelayMessage) : Bytes :=
  leBytes 8 msg.originNode.toNat ++ (leBytes 8 msg.hlc.toNat ++
    [msg.verb.code, msg.scopeKind.code, msg.minRank])

theorem appendLenPrefixed_short {field : Bytes} (h : field.length < 2 ^ 32) :
    appendLenPrefixed field = .ok (lenPrefixed field) :=
  if_neg (by omega)

variable {msg : RelayMessage}

theorem Rendered.tagsLen (hr : Rendered msg) :
    msg.tags.length ≤ V1.maxTagsLen := by
  rcases hr.tags with h | ⟨-, h, -⟩
  · simp [h]
  · exact h

theorem wireSchema_ge (hr : Rendered msg) :
    (3 ≤ msg.wireSchema ↔ msg.wireSchema = 3) ∧ (2 ≤ msg.wireSchema ↔ msg.wireSchema ≠ 1) := by
  rcases hr.schema with h | h | h <;> rw [h] <;> decide

/-- A rendered message always has a transcript, of this shape. -/
theorem originTranscript_eq (hr : Rendered msg) :
    originTranscript msg = .ok (headerBytes msg ++ (appendModes msg ++
      (appendRoute msg.senderRouteId ++ (appendRoute msg.recipientRouteId ++
        (guestBytes msg ++ fieldBytes msg))))) := by
  have hguest : appendGuest msg = .ok (guestBytes msg) := by
    unfold appendGuest guestBytes
    simp only [(wireSchema_ge hr).1]
    by_cases h3 : msg.wireSchema = 3
    · obtain ⟨ho, hi⟩ := hr.guest h3
      obtain ⟨origin, ho⟩ := isSome_iff_exists.mp ho
      obtain ⟨id, hi⟩ := isSome_iff_exists.mp hi
      simp [h3, ho, hi, optionalBytes]
    · simp [h3]
  have htags := hr.tagsLen
  have hp := hr.sourceLen.2
  have ha := hr.accountLen
  have ht := hr.targetLen
  have hx := hr.textLen
  have hd := hr.dataTagLen
  have hc := hr.recipientLen
  simp only [V1.maxPrefixLen, V1.maxAccountLen, V1.maxChannelLen, V1.maxTextLen, V1.maxDataTagLen,
    V1.maxNickLen, V1.maxTagsLen, V1.maxUserLen, V1.maxHostLen] at htags hp ha ht hx hd hc
  have hfields : appendAll [msg.sourcePrefix, msg.account, msg.tags, msg.target, msg.text,
      msg.dataTag, msg.recipient] = .ok (fieldBytes msg) := by
    simp only [appendAll, appendLenPrefixed_short (show msg.sourcePrefix.length < 2 ^ 32 by omega),
      appendLenPrefixed_short (show msg.account.length < 2 ^ 32 by omega),
      appendLenPrefixed_short (show msg.tags.length < 2 ^ 32 by omega),
      appendLenPrefixed_short (show msg.target.length < 2 ^ 32 by omega),
      appendLenPrefixed_short (show msg.text.length < 2 ^ 32 by omega),
      appendLenPrefixed_short (show msg.dataTag.length < 2 ^ 32 by omega),
      appendLenPrefixed_short (show msg.recipient.length < 2 ^ 32 by omega),
      append_nil, fieldBytes, tailBytes]
  simp only [originTranscript, hguest, hfields, headerBytes, append_assoc]

/-! ## Shifted readings -/

section Shift

variable {m n : RelayMessage}

/-- The length of the source prefix, as the first two octets of the fields. -/
theorem fieldBytes_head (hr : Rendered m) : ∃ lo hi : UInt8,
    fieldBytes m =
      lo :: hi :: 0 :: 0 :: (m.sourcePrefix ++ (lenPrefixed m.account ++ tailBytes m)) ∧
      m.sourcePrefix.length = lo.toNat + 256 * hi.toNat ∧ hi ≤ 1 := by
  have hp := hr.sourceLen
  simp only [V1.maxPrefixLen, V1.maxNickLen, V1.maxUserLen, V1.maxHostLen] at hp
  refine ⟨UInt8.ofNat m.sourcePrefix.length, UInt8.ofNat (m.sourcePrefix.length / 256), ?_, ?_, ?_⟩
  · rw [fieldBytes, lenPrefixed_short (by omega)]
    rfl
  · simp only [UInt8.toNat_ofNat']
    omega
  · rw [UInt8.le_iff_toNat_le, UInt8.toNat_ofNat', UInt8.toNat_one]
    omega

theorem tailBytes_head (hr : Rendered m) : ∃ rest, tailBytes m = UInt8.ofNat m.tags.length ::
    UInt8.ofNat (m.tags.length / 256) :: 0 :: 0 :: (m.tags ++ rest) := by
  rw [tailBytes, lenPrefixed_short (hr.tagsLen.trans_lt (by decide))]
  exact ⟨_, rfl⟩

theorem source_head_ne_zero (hr : Rendered m) (x y : Bytes) : m.sourcePrefix ++ x ≠ 0 :: y := by
  intro h
  cases hs : m.sourcePrefix with
  | nil => have := hr.sourceLen.1; simp [hs] at this
  | cons first rest =>
    rw [hs, cons_append, List.cons.injEq] at h
    have := hr.sourceOctets first (by rw [hs]; exact mem_cons_self)
    rw [h.1] at this
    exact absurd this (by decide)

section

variable (hm : Rendered m) (hn : Rendered n)
include hm hn

theorem fieldBytes_ne_zero_cons :
    fieldBytes m ≠ 0 :: fieldBytes n := by
  intro h
  obtain ⟨lo, hi, hf, hlen, hle⟩ := fieldBytes_head hm
  obtain ⟨lo', hi', hf', hlen', -⟩ := fieldBytes_head hn
  rw [hf, hf'] at h
  simp only [List.cons.injEq] at h
  obtain ⟨rfl, rfl, rfl, -⟩ := h
  have h5 := hm.sourceLen.1
  have h5' := hn.sourceLen.1
  simp only [UInt8.le_iff_toNat_le, UInt8.toNat_one, UInt8.toNat_zero] at hle hlen hlen'
  omega

theorem fieldBytes_ne_two_cons (x y : UInt8) :
    fieldBytes m ≠ x :: y :: fieldBytes n := by
  intro h
  obtain ⟨lo, hi, hf, -, -⟩ := fieldBytes_head hm
  obtain ⟨lo', hi', hf', hlen', -⟩ := fieldBytes_head hn
  rw [hf, hf'] at h
  simp only [List.cons.injEq] at h
  obtain ⟨-, -, rfl, rfl, -⟩ := h
  have h5' := hn.sourceLen.1
  simp only [UInt8.toNat_zero] at hlen'
  omega

theorem fieldBytes_ne_route_cons (id : RouteId) :
    fieldBytes m ≠ 1 :: (id.val ++ fieldBytes n) := by
  intro h
  obtain ⟨lo, hi, hf, hlen, hle⟩ := fieldBytes_head hm
  obtain ⟨lo', hi', hf', -, -⟩ := fieldBytes_head hn
  have hlo : lo = 1 := by
    rw [hf, List.cons.injEq] at h
    exact h.1
  have h5 := hm.sourceLen.1
  -- Octet 19 is a zero of the inner length and an octet of the outer text.
  have h19 : (fieldBytes m)[19]? = some 0 := by
    rw [h, hf', List.getElem?_cons_succ, List.getElem?_append_right (by rw [id.property]; omega),
      id.property]
    rfl
  rw [hf] at h19
  simp only [List.getElem?_cons_succ] at h19
  simp only [hlo, UInt8.le_iff_toNat_le, UInt8.toNat_one] at hlen hle
  rw [List.getElem?_append_left (by omega)] at h19
  have hoctet := hm.sourceOctets 0 (mem_of_getElem? h19)
  exact absurd hoctet (by decide)

/-- The fields do not start inside a text of account octets that runs into the
fields behind an account of a channel message. -/
theorem fieldBytes_ne_account_tail
    (htarget : ∃ first rest, n.target = first :: rest ∧ first < 0x2d) {account : Bytes}
    (hoctets : ∀ byte ∈ account, 0x2d ≤ byte) : fieldBytes m ≠ account ++ tailBytes n := by
  intro h
  obtain ⟨rest', htail⟩ := tailBytes_head hn
  obtain ⟨lo, hi, hf, -, hle⟩ := fieldBytes_head hm
  match account, hoctets with
  | [], _ =>
    have hp := hm.sourceLen.2
    have ht := hn.targetLen
    have ha := hm.accountLen
    simp only [V1.maxPrefixLen, V1.maxNickLen, V1.maxUserLen, V1.maxHostLen, V1.maxChannelLen,
      V1.maxAccountLen] at hp ht ha
    have htags := hn.tagsLen.trans_lt (show V1.maxTagsLen < 2 ^ 32 by decide)
    obtain ⟨-, hrest⟩ := lenPrefixed_inj (by omega) htags h
    obtain ⟨haccount, -⟩ := lenPrefixed_inj (by omega) (by omega) hrest
    obtain ⟨first, rest, hfirst, hlt⟩ := htarget
    have hoctet := hm.accountOctets first (by rw [haccount, hfirst]; exact mem_cons_self)
    exact absurd hlt (UInt8.not_lt.mpr hoctet)
  | [c], _ =>
    rw [hf, htail] at h
    simp only [cons_append, nil_append, List.cons.injEq] at h
    exact source_head_ne_zero hm _ _ h.2.2.2.2
  | c :: d :: rest, hoctets =>
    rw [hf] at h
    simp only [cons_append, List.cons.injEq] at h
    have hd := hoctets d (by simp)
    rw [← h.2.1] at hd
    exact absurd (UInt8.le_trans hd hle) (by decide)

/-- The fields do not start fourteen octets into those of a channel message. -/
theorem fieldBytes_ne_drop (htarget : ∃ first rest, n.target = first :: rest ∧ first < 0x2d) :
    fieldBytes m ≠ (fieldBytes n).drop 14 := by
  intro h
  obtain ⟨lo, hi, hf, hlen, hle⟩ := fieldBytes_head hm
  obtain ⟨lo', hi', hf', -, -⟩ := fieldBytes_head hn
  have h5 := hm.sourceLen.1
  have ha : n.account.length < 256 := hn.accountLen.trans_lt (by decide)
  have hacc : lenPrefixed n.account = UInt8.ofNat n.account.length :: 0 :: 0 :: 0 :: n.account := by
    rw [lenPrefixed_short (by omega), show n.account.length / 256 = 0 by omega]
    rfl
  obtain ⟨rest', htail⟩ := tailBytes_head hn
  rw [hf'] at h
  simp only [drop_succ_cons] at h
  by_cases hlong : 12 ≤ n.sourcePrefix.length
  · -- The high octet of the length would be an octet of the source text.
    have h1 : (fieldBytes m)[1]? = some hi := by rw [hf]; rfl
    rw [h, List.getElem?_drop, List.getElem?_append_left (by omega)] at h1
    have hoctet := hn.sourceOctets hi (mem_of_getElem? h1)
    exact absurd (UInt8.le_trans hoctet hle) (by decide)
  have hshort : n.sourcePrefix.length = 11 ∨ n.sourcePrefix.length ≤ 10 := by omega
  rcases hshort with h11 | h10
  · have hdrop : n.sourcePrefix.drop 10 ++ (lenPrefixed n.account ++ tailBytes n) =
        fieldBytes m := by
      rw [h, drop_append_of_le_length (by omega)]
    obtain ⟨c, hc⟩ := length_eq_one_iff.mp
      (show (n.sourcePrefix.drop 10).length = 1 by rw [length_drop]; omega)
    rw [hc, hacc, hf] at hdrop
    simp only [cons_append, nil_append, List.cons.injEq] at hdrop
    exact source_head_ne_zero hm _ _ hdrop.2.2.2.2.symm
  · have h5' := hn.sourceLen.1
    rw [drop_append, drop_eq_nil_of_le h10, nil_append] at h
    obtain ⟨k, hk⟩ : ∃ k, 10 - n.sourcePrefix.length = k := ⟨_, rfl⟩
    rw [hk] at h
    have hk5 : k = 0 ∨ k = 1 ∨ k = 2 ∨ k = 3 ∨ k = 4 ∨ k = 5 := by omega
    simp only [UInt8.le_iff_toNat_le, UInt8.toNat_one] at hle
    rcases hk5 with rfl | rfl | rfl | rfl | rfl | rfl
    · have hp := hm.sourceLen.2
      simp only [V1.maxPrefixLen, V1.maxNickLen, V1.maxUserLen, V1.maxHostLen] at hp
      obtain ⟨haccount, -⟩ := lenPrefixed_inj (by omega) (by omega) (drop_zero ▸ h)
      have hbang := hm.sourceBang
      rw [haccount] at hbang
      exact absurd (hn.accountOctets _ hbang) (by decide)
    · rw [hf, hacc] at h
      simp only [cons_append, drop_succ_cons, drop_zero, List.cons.injEq] at h
      rw [h.1, h.2.1] at hlen
      simp only [UInt8.toNat_zero] at hlen
      omega
    · rw [hf, hacc] at h
      simp only [cons_append, drop_succ_cons, drop_zero, List.cons.injEq] at h
      rw [h.1, h.2.1] at hlen
      simp only [UInt8.toNat_zero] at hlen
      omega
    · rw [hf, hacc] at h
      simp only [cons_append, drop_succ_cons, drop_zero, List.cons.injEq] at h
      obtain ⟨rfl, h⟩ := h
      have hone : hi = 1 := by
        rw [← UInt8.toNat_inj, UInt8.toNat_one]
        simp only [UInt8.toNat_zero] at hlen
        omega
      cases haccount : n.account with
      | cons c rest =>
        rw [haccount, hone, cons_append, List.cons.injEq] at h
        have hoctet := hn.accountOctets c (by rw [haccount]; exact mem_cons_self)
        rw [← h.1] at hoctet
        exact absurd hoctet (by decide)
      | nil =>
        rw [haccount, hone, nil_append, htail] at h
        simp only [List.cons.injEq, ← UInt8.toNat_inj, UInt8.toNat_ofNat',
          UInt8.toNat_one, UInt8.toNat_zero] at h
        have hmax := hn.tagsLen
        unfold V1.maxTagsLen at hmax
        rcases hn.tags with hnil | ⟨h2, -, -⟩
        · simp [hnil] at h
        · omega
    · rw [hacc] at h
      simp only [cons_append, drop_succ_cons, drop_zero] at h
      exact fieldBytes_ne_account_tail hm hn htarget hn.accountOctets h
    · rw [hacc] at h
      simp only [cons_append, drop_succ_cons] at h
      cases haccount : n.account with
      | cons c rest =>
        rw [haccount, cons_append, drop_succ_cons, drop_zero] at h
        refine fieldBytes_ne_account_tail hm hn htarget (fun byte hbyte => ?_) h
        exact hn.accountOctets byte (by rw [haccount]; exact mem_cons_of_mem _ hbyte)
      | nil =>
        rw [haccount, hf, nil_append, htail] at h
        simp only [drop_succ_cons, drop_zero, List.cons.injEq] at h
        obtain ⟨hlo, hhi, -, hrest⟩ := h
        rcases hn.tags with hnil | ⟨-, -, hhead⟩
        · rw [hnil] at hlo
          rw [hlo, hhi] at hlen
          have hzero : m.sourcePrefix.length = 0 := hlen
          omega
        · cases htag : n.tags with
          | nil => rw [htag] at hhead; cases hhead
          | cons first rest =>
            rw [htag, cons_append, List.cons.injEq] at hrest
            rw [htag, ← hrest.1] at hhead
            cases hhead

/-! Schema 1 puts the routes where schema 2 puts the modes; one lemma for each scope. -/

theorem channel_tails_ne (hn2 : 2 ≤ n.wireSchema)
    (hroute : m.recipientRouteId = none) (hroute' : n.recipientRouteId = none)
    (htarget : ∃ first rest, n.target = first :: rest ∧ first < 0x2d) :
    appendRoute m.senderRouteId ++ (appendRoute m.recipientRouteId ++ fieldBytes m) ≠
      appendModes n ++ (appendRoute n.senderRouteId ++
        (appendRoute n.recipientRouteId ++ fieldBytes n)) := by
  intro h
  rw [appendModes, if_pos hn2, hroute, hroute'] at h
  cases hs : m.senderRouteId with
  | none =>
    cases hmodes : n.senderMemberModes with
    | some modes => rw [hs, hmodes] at h; cases h
    | none =>
      cases hs' : n.senderRouteId with
      | some id => rw [hs, hmodes, hs'] at h; cases h
      | none =>
        rw [hs, hmodes, hs'] at h
        simp only [appendRoute, cons_append, nil_append, List.cons.injEq, true_and] at h
        exact fieldBytes_ne_zero_cons hm hn h
  | some id =>
    cases hmodes : n.senderMemberModes with
    | none => rw [hs, hmodes] at h; cases h
    | some modes =>
      rw [hs, hmodes] at h
      simp only [appendRoute, cons_append, nil_append, List.cons.injEq, true_and] at h
      have hdrop := congrArg (List.drop 17) h
      rw [drop_append, drop_eq_nil_of_le (by rw [id.property]; omega), id.property] at hdrop
      cases hs' : n.senderRouteId with
      | none =>
        rw [hs'] at hdrop
        simp only [cons_append, nil_append, drop_succ_cons, drop_zero, Nat.reduceSub] at hdrop
        exact fieldBytes_ne_drop hm hn htarget hdrop
      | some id' =>
        rw [hs'] at hdrop
        simp only [cons_append, nil_append, drop_succ_cons, drop_zero, Nat.reduceSub] at hdrop
        rw [drop_append_of_le_length (by rw [id'.property]; omega)] at hdrop
        obtain ⟨c, hc⟩ := length_eq_one_iff.mp
          (show (id'.val.drop 15).length = 1 by rw [length_drop, id'.property])
        rw [hc] at hdrop
        exact fieldBytes_ne_two_cons hm hn _ _ hdrop

theorem direct_tails_ne (hn2 : 2 ≤ n.wireSchema)
    {rid rid' : RouteId} (hroute : m.recipientRouteId = some rid)
    (hroute' : n.recipientRouteId = some rid') (hmodes : n.senderMemberModes = none) :
    appendRoute m.senderRouteId ++ (appendRoute m.recipientRouteId ++ fieldBytes m) ≠
      appendModes n ++ (appendRoute n.senderRouteId ++
        (appendRoute n.recipientRouteId ++ fieldBytes n)) := by
  intro h
  rw [appendModes, if_pos hn2, hroute, hroute', hmodes] at h
  cases hs : m.senderRouteId with
  | some id => rw [hs] at h; cases h
  | none =>
    cases hs' : n.senderRouteId with
    | none => rw [hs, hs'] at h; cases h
    | some id' =>
      rw [hs, hs'] at h
      simp only [appendRoute, cons_append, nil_append, List.cons.injEq, true_and] at h
      obtain ⟨-, hrest⟩ := append_inj h (rid.property.trans id'.property.symm)
      exact fieldBytes_ne_route_cons hm hn rid' hrest

theorem whisper_tails_ne (hn2 : 2 ≤ n.wireSchema)
    {rid rid' : RouteId} (hroute : m.recipientRouteId = some rid)
    (hroute' : n.recipientRouteId = some rid')
    (htarget : ∃ first rest, n.target = first :: rest ∧ first < 0x2d) :
    appendRoute m.senderRouteId ++ (appendRoute m.recipientRouteId ++ fieldBytes m) ≠
      appendModes n ++ (appendRoute n.senderRouteId ++
        (appendRoute n.recipientRouteId ++ fieldBytes n)) := by
  cases hmodes : n.senderMemberModes with
  | none => exact direct_tails_ne hm hn hn2 hroute hroute' hmodes
  | some modes =>
    intro h
    rw [appendModes, if_pos hn2, hroute, hroute'] at h
    cases hs : m.senderRouteId with
    | none => rw [hs, hmodes] at h; cases h
    | some id =>
      rw [hs, hmodes] at h
      simp only [appendRoute, cons_append, nil_append, List.cons.injEq, true_and] at h
      have hdrop := congrArg (List.drop 33) h
      have hleft : (id.val ++ 1 :: (rid.val ++ fieldBytes m)).drop 33 = fieldBytes m := by
        rw [← cons_append, ← append_assoc]
        apply drop_left'
        simp [id.property, rid.property]
      rw [hleft] at hdrop
      cases hs' : n.senderRouteId with
      | none =>
        rw [hs'] at hdrop
        simp only [cons_append, nil_append, drop_succ_cons] at hdrop
        rw [drop_append, drop_eq_nil_of_le (by rw [rid'.property]; omega), rid'.property] at hdrop
        exact fieldBytes_ne_drop hm hn htarget hdrop
      | some id' =>
        rw [hs'] at hdrop
        simp only [cons_append, drop_succ_cons] at hdrop
        rw [drop_append, drop_eq_nil_of_le (by rw [id'.property]; omega), id'.property] at hdrop
        simp only [nil_append, Nat.reduceSub, drop_succ_cons] at hdrop
        rw [drop_append_of_le_length (by rw [rid'.property]; omega)] at hdrop
        obtain ⟨c, d, hcd⟩ := length_eq_two.mp
          (show (rid'.val.drop 14).length = 2 by rw [length_drop, rid'.property])
        rw [hcd] at hdrop
        exact fieldBytes_ne_two_cons hm hn _ _ hdrop

end

theorem isChannelTarget_head {target : Bytes} (h : isChannelTarget target = true) :
    ∃ first rest, target = first :: rest ∧ first < 0x2d := by
  cases target with
  | nil => cases h
  | cons first rest =>
    simp only [isChannelTarget, Bool.or_eq_true, Bool.and_eq_true, beq_iff_eq] at h
    refine ⟨first, rest, rfl, ?_⟩
    rcases h with (rfl | rfl) | ⟨rfl, -⟩ <;> decide

theorem schema_tails_ne (hm : Rendered m) (hn : Rendered n) (hn2 : 2 ≤ n.wireSchema)
    (hkind : m.scopeKind = n.scopeKind) (hplain : n.scopeKind ≠ .directGuest) :
    appendRoute m.senderRouteId ++ (appendRoute m.recipientRouteId ++ fieldBytes m) ≠
      appendModes n ++ (appendRoute n.senderRouteId ++
        (appendRoute n.recipientRouteId ++ fieldBytes n)) := by
  have hsm := hm.scope
  have hsn := hn.scope
  unfold validScope at hsm hsn
  rw [hkind] at hsm
  cases hk : n.scopeKind with
  | directGuest => exact absurd hk hplain
  | channel =>
    rw [hk] at hsm hsn
    simp only [Bool.not_eq_true', Bool.or_eq_false_iff, Bool.not_eq_false',
      isSome_eq_false_iff, isNone_iff_eq_none] at hsm hsn
    exact channel_tails_ne hm hn hn2 hsm.2 hsn.2 (isChannelTarget_head hsn.1.1)
  | direct =>
    rw [hk] at hsm hsn
    simp only [Bool.not_eq_true', Bool.or_eq_false_iff, isSome_eq_false_iff,
      isNone_iff_eq_none, isNone_eq_false_iff] at hsm hsn
    obtain ⟨rid, hrid⟩ := isSome_iff_exists.mp hsm.1.2
    obtain ⟨rid', hrid'⟩ := isSome_iff_exists.mp hsn.1.2
    exact direct_tails_ne hm hn hn2 hrid hrid' hsn.2
  | channelWhisper =>
    rw [hk] at hsm hsn
    simp only [Bool.not_eq_true', Bool.or_eq_false_iff, Bool.not_eq_false',
      isNone_eq_false_iff] at hsm hsn
    obtain ⟨rid, hrid⟩ := isSome_iff_exists.mp hsm.2
    obtain ⟨rid', hrid'⟩ := isSome_iff_exists.mp hsn.2
    exact whisper_tails_ne hm hn hn2 hrid hrid' (isChannelTarget_head hsn.1.1.2)

end Shift

/-! ## Identification -/

theorem Verb.code_inj {a b : Verb} (h : a.code = b.code) : a = b := by
  revert h
  cases a <;> cases b <;> decide

theorem ScopeKind.code_inj {a b : ScopeKind} (h : a.code = b.code) : a = b := by
  revert h
  cases a <;> cases b <;> decide

theorem headerBytes_inj {m n : RelayMessage}
    (h : headerBytes m ++ x = headerBytes n ++ y) :
    (m.originNode = n.originNode ∧ m.hlc = n.hlc ∧ m.verb = n.verb ∧
      m.scopeKind = n.scopeKind ∧ m.minRank = n.minRank) ∧ x = y := by
  simp only [headerBytes, append_assoc] at h
  obtain ⟨hnode, h⟩ := append_inj h (by simp)
  obtain ⟨hhlc, h⟩ := append_inj h (by simp)
  simp only [cons_append, nil_append, List.cons.injEq] at h
  obtain ⟨hverb, hscope, hrank, h⟩ := h
  exact ⟨⟨u64_leBytes_inj hnode, u64_leBytes_inj hhlc, Verb.code_inj hverb,
    ScopeKind.code_inj hscope, hrank⟩, h⟩

theorem fieldBytes_inj {m n : RelayMessage} (hm : Rendered m) (hn : Rendered n)
    (h : fieldBytes m = fieldBytes n) :
    m.sourcePrefix = n.sourcePrefix ∧ m.account = n.account ∧ m.tags = n.tags ∧
      m.target = n.target ∧ m.text = n.text ∧ m.dataTag = n.dataTag ∧
      m.recipient = n.recipient := by
  have short : ∀ {k : Nat} {l : Nat}, l ≤ k → k < 2 ^ 32 → l < 2 ^ 32 := fun h1 h2 => h1.trans_lt h2
  obtain ⟨h1, h⟩ := lenPrefixed_inj (short hm.sourceLen.2 (by decide))
    (short hn.sourceLen.2 (by decide)) h
  obtain ⟨h2, h⟩ := lenPrefixed_inj (short hm.accountLen (by decide))
    (short hn.accountLen (by decide)) h
  obtain ⟨h3, h⟩ := lenPrefixed_inj (short hm.tagsLen (by decide))
    (short hn.tagsLen (by decide)) h
  obtain ⟨h4, h⟩ := lenPrefixed_inj (short hm.targetLen (by decide))
    (short hn.targetLen (by decide)) h
  obtain ⟨h5, h⟩ := lenPrefixed_inj (short hm.textLen (by decide))
    (short hn.textLen (by decide)) h
  obtain ⟨h6, h⟩ := lenPrefixed_inj (short hm.dataTagLen (by decide))
    (short hn.dataTagLen (by decide)) h
  obtain ⟨h7, -⟩ := lenPrefixed_inj (short hm.recipientLen (by decide))
    (short hn.recipientLen (by decide)) (congrArg (· ++ []) h)
  exact ⟨h1, h2, h3, h4, h5, h6, h7⟩

theorem appendModes_inj {m n : RelayMessage} (hm : Rendered m) (hn : Rendered n)
    (hschema : m.wireSchema = n.wireSchema)
    (h : appendModes m ++ x = appendModes n ++ y) :
    m.senderMemberModes = n.senderMemberModes ∧ x = y := by
  unfold appendModes at h
  rw [hschema] at h
  split at h
  · cases hmm : m.senderMemberModes with
    | none =>
      cases hnm : n.senderMemberModes with
      | none => rw [hmm, hnm] at h; exact ⟨rfl, append_cancel_left h⟩
      | some b => rw [hmm, hnm] at h; cases h
    | some a =>
      cases hnm : n.senderMemberModes with
      | none => rw [hmm, hnm] at h; cases h
      | some b =>
        rw [hmm, hnm] at h
        simp only [cons_append, nil_append, List.cons.injEq, true_and] at h
        exact ⟨congrArg some h.1, h.2⟩
  · rename_i hlt
    have hone : n.wireSchema = 1 := by
      by_contra hne
      exact hlt ((wireSchema_ge hn).2.mpr hne)
    rw [hm.legacy (hschema.trans hone), hn.legacy hone]
    exact ⟨rfl, h⟩

theorem optionalBytes_inj {k : Nat} {a b : Option (FixedBytes k)} (ha : a.isSome = true)
    (hb : b.isSome = true)
    (h : optionalBytes a ++ x = optionalBytes b ++ y) : a = b ∧ x = y := by
  obtain ⟨a, rfl⟩ := isSome_iff_exists.mp ha
  obtain ⟨b, rfl⟩ := isSome_iff_exists.mp hb
  obtain ⟨hab, hxy⟩ := append_inj h (a.property.trans b.property.symm)
  exact ⟨congrArg some (Subtype.ext hab), hxy⟩

theorem guestBytes_inj {m n : RelayMessage} (hm : Rendered m) (hn : Rendered n)
    (hschema : m.wireSchema = n.wireSchema)
    (h : guestBytes m ++ x = guestBytes n ++ y) :
    m.recipientGuestOrigin = n.recipientGuestOrigin ∧
      m.recipientGuestId = n.recipientGuestId ∧ x = y := by
  unfold guestBytes at h
  rw [hschema] at h
  split at h
  · rename_i h3
    obtain ⟨hmo, hmi⟩ := hm.guest (hschema.trans h3)
    obtain ⟨hno, hni⟩ := hn.guest h3
    rw [append_assoc, append_assoc] at h
    obtain ⟨horigin, h⟩ := optionalBytes_inj hmo hno h
    obtain ⟨hid, h⟩ := optionalBytes_inj hmi hni h
    exact ⟨horigin, hid, h⟩
  · rename_i h3
    obtain ⟨hmo, hmi⟩ := hm.plain (fun h => h3 (hschema ▸ h))
    obtain ⟨hno, hni⟩ := hn.plain h3
    exact ⟨hmo.trans hno.symm, hmi.trans hni.symm, h⟩

/-- Messages of two schemas never share a transcript. -/
theorem schema_eq {m n : RelayMessage} (hm : Rendered m) (hn : Rendered n)
    (hkind : m.scopeKind = n.scopeKind)
    (h : appendModes m ++ (appendRoute m.senderRouteId ++ (appendRoute m.recipientRouteId ++
        (guestBytes m ++ fieldBytes m))) =
      appendModes n ++ (appendRoute n.senderRouteId ++ (appendRoute n.recipientRouteId ++
        (guestBytes n ++ fieldBytes n)))) : m.wireSchema = n.wireSchema := by
  have h3 : m.wireSchema = 3 ↔ n.wireSchema = 3 := by
    rw [← hm.guestScope, ← hn.guestScope, hkind]
  have hguest : ∀ {msg : RelayMessage}, msg.wireSchema ≠ 3 → guestBytes msg = [] :=
    fun h => if_neg h
  have hmodes : ∀ {msg : RelayMessage}, msg.wireSchema = 1 → appendModes msg = [] := by
    intro msg h1
    exact if_neg (by rw [h1]; decide)
  have hne3 : ∀ {msg : RelayMessage}, msg.wireSchema = 1 → msg.wireSchema ≠ 3 := by
    intro msg h1
    rw [h1]
    decide
  rcases hm.schema with hm1 | hm2 | hm3
  · rcases hn.schema with hn1 | hn2 | hn3
    · exact hm1.trans hn1.symm
    · have hn3 : n.wireSchema ≠ 3 := by rw [hn2]; decide
      rw [hmodes hm1, hguest (hne3 hm1), hguest hn3] at h
      exact absurd h (schema_tails_ne hm hn (by rw [hn2]) hkind
        (fun hk => hn3 (hn.guestScope.mp hk)))
    · exact (h3.mpr hn3).trans hn3.symm
  · rcases hn.schema with hn1 | hn2 | hn3
    · have hm3 : m.wireSchema ≠ 3 := by rw [hm2]; decide
      rw [hmodes hn1, hguest (hne3 hn1), hguest hm3] at h
      exact absurd h.symm (schema_tails_ne hn hm (by rw [hm2]) hkind.symm
        (fun hk => hm3 (hm.guestScope.mp hk)))
    · exact hm2.trans hn2.symm
    · exact (h3.mpr hn3).trans hn3.symm
  · exact hm3.trans (h3.mp hm3).symm

/-- The signed transcript of a decoded message identifies its schema and every
field that is not the signature itself. -/
theorem originTranscript_identifies {bytes bytes' : Bytes} {m n : RelayMessage}
    (hm : decode bytes = .ok m) (hn : decode bytes' = .ok n)
    (h : originTranscript m = originTranscript n) :
    m = { n with originPubkey := m.originPubkey, originSig := m.originSig } := by
  have hmr := decode_rendered hm
  have hnr := decode_rendered hn
  rw [originTranscript_eq hmr, originTranscript_eq hnr] at h
  obtain ⟨⟨hnode, hhlc, hverb, hkind, hrank⟩, htail⟩ := headerBytes_inj (Except.ok.inj h)
  have hschema := schema_eq hmr hnr hkind htail
  obtain ⟨hmodes, htail⟩ := appendModes_inj hmr hnr hschema htail
  obtain ⟨hsender, htail⟩ := appendRoute_inj htail
  obtain ⟨hroute, htail⟩ := appendRoute_inj htail
  obtain ⟨horigin, hid, htail⟩ := guestBytes_inj hmr hnr hschema htail
  obtain ⟨hsource, haccount, htags, htarget, htext, hdata, hrecipient⟩ :=
    fieldBytes_inj hmr hnr htail
  cases m
  cases n
  simp only at *
  subst_vars
  rfl

/-- Two signatures over one body: both wires decode, and the bodies agree. -/
theorem originTranscript_identifies_resigned :
    let body : RelayMessage := { blank with
      target := ascii "#a", sourcePrefix := ascii "a!b@c", text := ascii "x", originNode := 7,
      originPubkey := List.replicate 32 1 }
    let m : RelayMessage := { body with originSig := List.replicate 64 1 }
    let n : RelayMessage := { body with originSig := List.replicate 64 2 }
    ∃ bytes bytes', encode m = .ok bytes ∧ encode n = .ok bytes' ∧
      decode bytes = .ok m ∧ decode bytes' = .ok n ∧
      m = { n with originPubkey := m.originPubkey, originSig := m.originSig } := by
  intro body m n
  have hm : ∃ bytes, encode m = .ok bytes ∧ decode bytes = .ok m := by
    refine ⟨(encode m).toOption.getD [], ?_, ?_⟩ <;> decide +kernel
  have hn : ∃ bytes, encode n = .ok bytes ∧ decode bytes = .ok n := by
    refine ⟨(encode n).toOption.getD [], ?_, ?_⟩ <;> decide +kernel
  obtain ⟨bytes, hem, hdm⟩ := hm
  obtain ⟨bytes', hen, hdn⟩ := hn
  exact ⟨bytes, bytes', hem, hen, hdm, hdn, originTranscript_identifies hdm hdn rfl⟩

end OnyxServer.Relay.V2
