import OnyxServer.Lib.Bytes

/-!
# UTF-8 and the names of IRC

The scalar reader of `utf8.zig` and the nickname and channel grammars under the
`utf8_only` casemapping. Every loop of the source walks an index upwards; here it
walks the remaining suffix, with its length as the fuel.
-/
namespace OnyxServer.Text

open Lib List

def isContinuation (byte : UInt8) : Bool := decide (0x80 ≤ byte) && decide (byte ≤ 0xBF)

/-- The length of the multi-byte sequence that starts the input. -/
def skipUtf8Sequence (input : Bytes) : Option Nat :=
  match input with
  | [] => none
  | first :: rest =>
    if 0xC2 ≤ first ∧ first ≤ 0xDF then
      match rest with
      | b :: _ => if isContinuation b then some 2 else none
      | _ => none
    else if first = 0xE0 then
      match rest with
      | b :: c :: _ => if 0xA0 ≤ b ∧ b ≤ 0xBF ∧ isContinuation c then some 3 else none
      | _ => none
    else if 0xE1 ≤ first ∧ first ≤ 0xEC then
      match rest with
      | b :: c :: _ => if isContinuation b ∧ isContinuation c then some 3 else none
      | _ => none
    else if first = 0xED then
      match rest with
      | b :: c :: _ => if 0x80 ≤ b ∧ b ≤ 0x9F ∧ isContinuation c then some 3 else none
      | _ => none
    else if 0xEE ≤ first ∧ first ≤ 0xEF then
      match rest with
      | b :: c :: _ => if isContinuation b ∧ isContinuation c then some 3 else none
      | _ => none
    else if first = 0xF0 then
      match rest with
      | b :: c :: d :: _ =>
        if 0x90 ≤ b ∧ b ≤ 0xBF ∧ isContinuation c ∧ isContinuation d then some 4 else none
      | _ => none
    else if 0xF1 ≤ first ∧ first ≤ 0xF3 then
      match rest with
      | b :: c :: d :: _ =>
        if isContinuation b ∧ isContinuation c ∧ isContinuation d then some 4 else none
      | _ => none
    else if first = 0xF4 then
      match rest with
      | b :: c :: d :: _ =>
        if 0x80 ≤ b ∧ b ≤ 0x8F ∧ isContinuation c ∧ isContinuation d then some 4 else none
      | _ => none
    else none

/-- The payload bits of a multi-byte sequence. -/
def sequenceScalar (sequence : Bytes) : Nat :=
  match sequence with
  | [a, b] => ((a &&& 0x1F).toNat <<< 6) ||| (b &&& 0x3F).toNat
  | [a, b, c] =>
    ((a &&& 0x0F).toNat <<< 12) ||| ((b &&& 0x3F).toNat <<< 6) ||| (c &&& 0x3F).toNat
  | [a, b, c, d] =>
    ((a &&& 0x07).toNat <<< 18) ||| ((b &&& 0x3F).toNat <<< 12) |||
      ((c &&& 0x3F).toNat <<< 6) ||| (d &&& 0x3F).toNat
  | _ => 0

/-- The first scalar and the input after it. -/
def readScalar (input : Bytes) : Option (Nat × Bytes) :=
  match input with
  | [] => none
  | first :: rest =>
    if first < 0x80 then some (first.toNat, rest)
    else
      match skipUtf8Sequence input with
      | none => none
      | some len => some (sequenceScalar (input.take len), input.drop len)

/-- The source also jumps over 32 ASCII octets at a time, which the loop below
passes one by one. -/
def validateUtf8Loop : Nat → Bytes → Bool
  | _, [] => true
  | 0, _ => false
  | fuel + 1, first :: rest =>
    if first < 0x80 then validateUtf8Loop fuel rest
    else
      match skipUtf8Sequence (first :: rest) with
      | none => false
      | some len => validateUtf8Loop fuel ((first :: rest).drop len)

def validateUtf8 (input : Bytes) : Bool := validateUtf8Loop input.length input

def asciiAlpha (scalar : Nat) : Bool :=
  (decide (0x41 ≤ scalar) && decide (scalar ≤ 0x5A)) ||
    (decide (0x61 ≤ scalar) && decide (scalar ≤ 0x7A))

def asciiDigit (scalar : Nat) : Bool := decide (0x30 ≤ scalar) && decide (scalar ≤ 0x39)

/-- `[ ] \ grave _ ^ { | } ~` -/
def isIrcSpecial (scalar : Nat) : Bool :=
  scalar ∈ [0x5B, 0x5D, 0x5C, 0x60, 0x5F, 0x5E, 0x7B, 0x7C, 0x7D, 0x7E]

def isNickFirstAscii (scalar : Nat) : Bool := asciiAlpha scalar || isIrcSpecial scalar

def isNickRestAscii (scalar : Nat) : Bool :=
  isNickFirstAscii scalar || asciiDigit scalar || scalar == 0x2D

def inRanges (ranges : List (Nat × Nat)) (scalar : Nat) : Bool :=
  ranges.any fun range => decide (range.1 ≤ scalar) && decide (scalar ≤ range.2)

def isForbiddenNameScalar (scalar : Nat) : Bool :=
  decide (scalar ≤ 0x20) || (decide (0x7F ≤ scalar) && decide (scalar ≤ 0x9F)) ||
    inRanges [(0x00A0, 0x00A0), (0x1680, 0x1680), (0x2000, 0x200A), (0x2028, 0x2028),
      (0x2029, 0x2029), (0x202F, 0x202F), (0x205F, 0x205F), (0x3000, 0x3000), (0x3A, 0x3A)] scalar

/-- Not forbidden, and none of `# & + @ % : , ! * ?`. -/
def isNickVisibleScalar (scalar : Nat) : Bool :=
  !isForbiddenNameScalar scalar &&
    !decide (scalar ∈ [0x23, 0x26, 0x2B, 0x40, 0x25, 0x3A, 0x2C, 0x21, 0x2A, 0x3F])

def isNickFirstScalar (scalar : Nat) : Bool :=
  isNickVisibleScalar scalar && (decide (0x80 ≤ scalar) || isNickFirstAscii scalar)

def isNickRestScalar (scalar : Nat) : Bool :=
  isNickVisibleScalar scalar && (decide (0x80 ≤ scalar) || isNickRestAscii scalar)

def isChannelScalar (scalar : Nat) : Bool := !isForbiddenNameScalar scalar && scalar != 0x2C

def isSpoofScalar (scalar : Nat) : Bool :=
  inRanges [(0x00AD, 0x00AD), (0x061C, 0x061C), (0x180E, 0x180E), (0xFEFF, 0xFEFF),
    (0xE0001, 0xE0001), (0x0300, 0x036F), (0x1AB0, 0x1AFF), (0x1DC0, 0x1DFF), (0x200B, 0x200F),
    (0x202A, 0x202E), (0x2060, 0x2064), (0x2066, 0x206F), (0x20D0, 0x20FF), (0x2100, 0x214F),
    (0xFE00, 0xFE0F), (0xFE20, 0xFE2F), (0xFF01, 0xFF5E), (0x1D400, 0x1D7FF),
    (0xE0020, 0xE007F), (0xE0100, 0xE01EF)] scalar

def letterScript (scalar : Nat) : Option Nat :=
  if scalar ≤ 0x7F then if asciiAlpha scalar then some 1 else none
  else if inRanges [(0x00C0, 0x00D6), (0x00D8, 0x00F6), (0x00F8, 0x024F), (0x1E00, 0x1EFF),
    (0x2C60, 0x2C7F), (0xA720, 0xA7FF), (0xAB30, 0xAB6F)] scalar then some 1
  else if inRanges [(0x0370, 0x03FF), (0x1F00, 0x1FFF)] scalar then some 2
  else if inRanges [(0x0400, 0x052F), (0x1C80, 0x1C8F), (0x2DE0, 0x2DFF), (0xA640, 0xA69F)] scalar
    then some 3
  else if inRanges [(0x0590, 0x05FF)] scalar then some 4
  else if inRanges [(0x0600, 0x06FF), (0x0750, 0x077F), (0x08A0, 0x08FF)] scalar then some 5
  else if inRanges [(0x3040, 0x30FF), (0x3400, 0x9FFF), (0xF900, 0xFAFF)] scalar then some 6
  else if inRanges [(0x1100, 0x11FF), (0xAC00, 0xD7AF)] scalar then some 7
  else none

/-- `seen` is the one letter script met so far, zero before the first letter. -/
def spoofLoop : Nat → Nat → Bytes → Bool
  | _, _, [] => false
  | 0, _, _ => true
  | fuel + 1, seen, first :: rest =>
    if first < 0x80 then
      if asciiAlpha first.toNat then
        if seen ≠ 0 ∧ seen ≠ 1 then true else spoofLoop fuel 1 rest
      else spoofLoop fuel seen rest
    else
      match readScalar (first :: rest) with
      | none => true
      | some (scalar, rest) =>
        if isSpoofScalar scalar then true
        else
          match letterScript scalar with
          | some script =>
            if seen ≠ 0 ∧ seen ≠ script then true else spoofLoop fuel script rest
          | none => spoofLoop fuel seen rest

def containsIdentifierSpoof (text : Bytes) : Bool := spoofLoop text.length 0 text

/-- Every remaining scalar is readable and in the class. -/
def allScalars (accepts : Nat → Bool) : Nat → Bytes → Bool
  | _, [] => true
  | 0, _ => false
  | fuel + 1, input =>
    match readScalar input with
    | none => false
    | some (scalar, rest) => accepts scalar && allScalars accepts fuel rest

def isValidUtf8Nick (nick : Bytes) : Bool :=
  if containsIdentifierSpoof nick then false
  else
    match readScalar nick with
    | none => false
    | some (first, rest) => isNickFirstScalar first && allScalars isNickRestScalar rest.length rest

def isValidNickWith (nick : Bytes) (maxNickBytes : Nat) : Bool :=
  if nick.length = 0 ∨ maxNickBytes < nick.length then false else isValidUtf8Nick nick

def isValidUtf8ChannelRest (rest : Bytes) : Bool :=
  !containsIdentifierSpoof rest && allScalars isChannelScalar rest.length rest

def validChannelPrefix (first : UInt8) (allowAmpersand allowBang : Bool) : Bool :=
  first == 0x23 || (allowAmpersand && first == 0x26) || (allowBang && first == 0x21)

def isValidChannelWith (channel : Bytes) (maxChannelBytes : Nat)
    (allowAmpersand allowBang : Bool) : Bool :=
  if channel.length < 2 ∨ maxChannelBytes < channel.length then false
  else
    match channel with
    | [] => false
    | first :: rest =>
      validChannelPrefix first allowAmpersand allowBang && isValidUtf8ChannelRest rest

def simpleLowerScalar (scalar : Nat) : Nat :=
  if 0x41 ≤ scalar ∧ scalar ≤ 0x5A then scalar + 0x20
  else if 0x00C0 ≤ scalar ∧ scalar ≤ 0x00D6 then scalar + 0x20
  else if 0x00D8 ≤ scalar ∧ scalar ≤ 0x00DE then scalar + 0x20
  else if 0x0100 ≤ scalar ∧ scalar ≤ 0x012F ∧ scalar % 2 = 0 then scalar + 1
  else if 0x0132 ≤ scalar ∧ scalar ≤ 0x0137 ∧ scalar % 2 = 0 then scalar + 1
  else if 0x0139 ≤ scalar ∧ scalar ≤ 0x0148 ∧ scalar % 2 = 1 then scalar + 1
  else if 0x014A ≤ scalar ∧ scalar ≤ 0x0177 ∧ scalar % 2 = 0 then scalar + 1
  else if scalar = 0x0178 then 0x00FF
  else if scalar = 0x0386 then 0x03AC
  else if 0x0388 ≤ scalar ∧ scalar ≤ 0x038A then scalar + 0x25
  else if scalar = 0x038C then 0x03CC
  else if 0x038E ≤ scalar ∧ scalar ≤ 0x038F then scalar + 0x3F
  else if 0x0391 ≤ scalar ∧ scalar ≤ 0x03A1 then scalar + 0x20
  else if 0x03A3 ≤ scalar ∧ scalar ≤ 0x03AB then scalar + 0x20
  else if 0x0410 ≤ scalar ∧ scalar ≤ 0x042F then scalar + 0x20
  else if 0xFF21 ≤ scalar ∧ scalar ≤ 0xFF3A then scalar + 0x20
  else scalar

def eqlLoop : Nat → Bytes → Bytes → Bool
  | _, [], b => b.isEmpty
  | _, _ :: _, [] => false
  | 0, _ :: _, _ :: _ => false
  | fuel + 1, a@(_ :: _), b@(_ :: _) =>
    match readScalar a, readScalar b with
    | some (left, a), some (right, b) =>
      simpleLowerScalar left == simpleLowerScalar right && eqlLoop fuel a b
    | _, _ => false

def eqlUtf8Only (a b : Bytes) : Bool := eqlLoop a.length a b

variable {input : Bytes}

/-- A multi-byte sequence has no ASCII octet. -/
theorem skipUtf8Sequence_high {len : Nat} (h : skipUtf8Sequence input = some len) :
    2 ≤ len ∧ ∀ byte ∈ input.take len, 0x80 ≤ byte := by
  unfold skipUtf8Sequence at h
  simp only [isContinuation, Bool.and_eq_true, decide_eq_true_eq] at h
  repeat' split at h
  all_goals cases h
  all_goals
    refine ⟨by omega, ?_⟩
    simp only [take_succ_cons, take_zero, mem_cons, not_mem_nil, or_false,
      forall_eq_or_imp, forall_eq]
    simp only [UInt8.le_iff_toNat_le, ← UInt8.toNat_inj, UInt8.reduceToNat] at *
    omega

variable {scalar : Nat}

/-- The octets a scalar was read from: one ASCII octet, or none. -/
theorem readScalar_octets {input rest : Bytes}
    (h : readScalar input = some (scalar, rest)) :
    ∃ head, input = head ++ rest ∧ head ≠ [] ∧
      ((∃ byte, head = [byte] ∧ byte.toNat = scalar) ∨ ∀ byte ∈ head, 0x80 ≤ byte) := by
  unfold readScalar at h
  split at h
  · cases h
  rename_i first tail
  split at h
  · cases h
    exact ⟨[first], rfl, by simp, Or.inl ⟨first, rfl, rfl⟩⟩
  split at h
  · cases h
  rename_i len hlen
  cases h
  obtain ⟨hlen2, hhigh⟩ := skipUtf8Sequence_high hlen
  refine ⟨(first :: tail).take len, (take_append_drop _ _).symm, ?_, Or.inr hhigh⟩
  obtain ⟨n, rfl⟩ : ∃ n, len = n + 1 := ⟨len - 1, by omega⟩
  simp

/-- A property of octets that every ASCII octet of the class and every octet above
ASCII has holds of the whole text. -/
theorem allScalars_octets {accepts : Nat → Bool} {P : UInt8 → Prop}
    (hascii : ∀ byte : UInt8, accepts byte.toNat = true → P byte)
    (hhigh : ∀ byte : UInt8, 0x80 ≤ byte → P byte) :
    ∀ (fuel : Nat) (input : Bytes), allScalars accepts fuel input = true →
    ∀ byte ∈ input, P byte := by
  intro fuel
  induction fuel with
  | zero =>
    intro input h
    cases input with
    | nil => simp
    | cons first rest => cases h
  | succ fuel ih =>
    intro input h
    cases input with
    | nil => simp
    | cons first tail =>
      unfold allScalars at h
      split at h
      · cases h
      rename_i scalar rest hread
      simp only [Bool.and_eq_true] at h
      obtain ⟨head, heq, -, hhead⟩ := readScalar_octets hread
      rw [heq]
      intro byte hbyte
      rcases mem_append.mp hbyte with hbyte | hbyte
      · rcases hhead with ⟨b, rfl, rfl⟩ | hhead
        · rw [mem_singleton.mp hbyte]
          exact hascii b h.1
        · exact hhigh byte (hhead byte hbyte)
      · exact ih rest h.2 byte hbyte

theorem isNickVisible_of_rest (h : isNickRestScalar scalar = true) :
    isNickVisibleScalar scalar = true := by
  simp only [isNickRestScalar, Bool.and_eq_true] at h
  exact h.1

theorem isNickVisible_of_first (h : isNickFirstScalar scalar = true) :
    isNickVisibleScalar scalar = true := by
  simp only [isNickFirstScalar, Bool.and_eq_true] at h
  exact h.1

variable {nick : Bytes}

/-- No octet of a nickname is a control, a blank or a `!`. -/
theorem isValidUtf8Nick_octets (h : isValidUtf8Nick nick = true) :
    ∀ byte ∈ nick, 0x20 < byte ∧ byte ≠ 0x21 := by
  have hascii : ∀ byte : UInt8, isNickVisibleScalar byte.toNat = true →
      0x20 < byte ∧ byte ≠ 0x21 := by
    intro byte hbyte
    simp only [isNickVisibleScalar, isForbiddenNameScalar, Bool.and_eq_true, Bool.not_eq_true',
      Bool.or_eq_false_iff, decide_eq_false_iff_not, mem_cons, not_or] at hbyte
    simp only [UInt8.lt_iff_toNat_lt, ne_eq, ← UInt8.toNat_inj, UInt8.reduceToNat]
    omega
  have hhigh : ∀ byte : UInt8, 0x80 ≤ byte → 0x20 < byte ∧ byte ≠ 0x21 := by
    intro byte hbyte
    simp only [UInt8.lt_iff_toNat_lt, UInt8.le_iff_toNat_le, ne_eq, ← UInt8.toNat_inj,
      UInt8.reduceToNat] at *
    omega
  unfold isValidUtf8Nick at h
  split at h
  · cases h
  split at h
  · cases h
  rename_i first rest hread
  simp only [Bool.and_eq_true] at h
  obtain ⟨head, heq, -, hhead⟩ := readScalar_octets hread
  rw [heq]
  intro byte hbyte
  rcases mem_append.mp hbyte with hbyte | hbyte
  · rcases hhead with ⟨b, rfl, rfl⟩ | hhead
    · rw [mem_singleton.mp hbyte]
      exact hascii b (isNickVisible_of_first h.1)
    · exact hhigh byte (hhead byte hbyte)
  · exact allScalars_octets (fun b hb => hascii b (isNickVisible_of_rest hb)) hhigh _ _ h.2
      byte hbyte

theorem isValidNickWith_octets {maxNickBytes : Nat}
    (h : isValidNickWith nick maxNickBytes = true) :
    (0 < nick.length ∧ nick.length ≤ maxNickBytes) ∧ ∀ byte ∈ nick, 0x20 < byte ∧ byte ≠ 0x21 := by
  unfold isValidNickWith at h
  split_ifs at h
  · exact ⟨by omega, isValidUtf8Nick_octets h⟩

/-! ## Accepted names are UTF-8 -/

/-- The whole text is read scalar by scalar. -/
inductive Scalars : Bytes → Prop where
  | nil : Scalars []
  | cons {input rest : Bytes} {scalar : Nat} (read : readScalar input = some (scalar, rest))
      (tail : Scalars rest) : Scalars input

theorem skipUtf8Sequence_append {len : Nat} (h : skipUtf8Sequence input = some len) (more : Bytes) :
    skipUtf8Sequence (input ++ more) = some len ∧ len ≤ input.length := by
  unfold skipUtf8Sequence at h
  repeat' split at h
  all_goals cases h
  all_goals
    refine ⟨?_, by simp only [length_cons]; omega⟩
    simp only [cons_append, skipUtf8Sequence, *, ↓reduceIte, and_self] <;> rfl

theorem readScalar_append {input rest : Bytes} (h : readScalar input = some (scalar, rest))
    (more : Bytes) : readScalar (input ++ more) = some (scalar, rest ++ more) := by
  unfold readScalar at h
  split at h
  · cases h
  rename_i first tail
  rw [cons_append, readScalar]
  split at h
  · next hascii =>
    cases h
    rw [if_pos hascii]
  rename_i hhigh
  rw [if_neg hhigh]
  split at h
  · cases h
  rename_i len hlen
  cases h
  obtain ⟨hskip, hle⟩ := skipUtf8Sequence_append hlen more
  rw [cons_append] at hskip
  rw [hskip]
  simp only
  rw [← cons_append, take_append_of_le_length hle, drop_append_of_le_length hle]

theorem Scalars.append {a b : Bytes} (ha : Scalars a) (hb : Scalars b) : Scalars (a ++ b) := by
  induction ha with
  | nil => exact hb
  | cons read tail ih => exact .cons (readScalar_append read b) ih

theorem Scalars.ascii (h : ∀ byte ∈ input, byte < 0x80) : Scalars input := by
  induction input with
  | nil => exact .nil
  | cons byte input ih =>
    obtain ⟨hbyte, hinput⟩ := forall_mem_cons.mp h
    exact .cons (if_pos hbyte) (ih hinput)

theorem Scalars.octet {byte : UInt8} (h : byte < 0x80) : Scalars [byte] :=
  Scalars.ascii (forall_mem_singleton.mpr h)

theorem readScalar_length {input rest : Bytes} (h : readScalar input = some (scalar, rest)) :
    rest.length < input.length := by
  obtain ⟨head, rfl, hne, -⟩ := readScalar_octets h
  rw [length_append]
  have := length_pos_iff.mpr hne
  omega

theorem scalars_of_allScalars {accepts : Nat → Bool} {fuel : Nat}
    (h : allScalars accepts fuel input = true) : Scalars input := by
  induction fuel generalizing input with
  | zero =>
    cases input with
    | nil => exact .nil
    | cons first rest => cases h
  | succ fuel ih =>
    cases input with
    | nil => exact .nil
    | cons first tail =>
      unfold allScalars at h
      split at h
      · cases h
      · next scalar rest hread => exact .cons hread (ih (Bool.and_eq_true _ _ ▸ h).2)

/-- The validator walks the same scalars. -/
theorem validateUtf8Loop_of_scalars (h : Scalars input) {fuel : Nat} (hfuel : input.length ≤ fuel) :
    validateUtf8Loop fuel input = true := by
  induction h generalizing fuel with
  | nil => cases fuel <;> rfl
  | @cons input rest scalar read tail ih =>
    have hshort := readScalar_length read
    cases fuel with
    | zero => omega
    | succ fuel =>
      have hrest := @ih fuel (by omega)
      unfold readScalar at read
      split at read
      · cases read
      rename_i first tail'
      rw [validateUtf8Loop]
      split at read
      · next hascii =>
        cases read
        rw [if_pos hascii]
        exact hrest
      · next hhigh =>
        rw [if_neg hhigh]
        split at read
        · cases read
        · next len hlen =>
          cases read
          exact hrest

theorem validateUtf8_of_scalars (h : Scalars input) : validateUtf8 input = true :=
  validateUtf8Loop_of_scalars h (Nat.le_refl _)

theorem scalars_of_validateUtf8Loop {fuel : Nat} (h : validateUtf8Loop fuel input = true) :
    Scalars input := by
  induction fuel generalizing input with
  | zero =>
    cases input with
    | nil => exact .nil
    | cons first rest => cases h
  | succ fuel ih =>
    cases input with
    | nil => exact .nil
    | cons first rest =>
      rw [validateUtf8Loop] at h
      split at h
      · next hascii => exact .cons (if_pos hascii) (ih h)
      rename_i hhigh
      split at h
      · cases h
      rename_i len hlen
      have hread : readScalar (first :: rest) =
          some (sequenceScalar ((first :: rest).take len), (first :: rest).drop len) := by
        rw [readScalar, if_neg hhigh, hlen]
      exact .cons hread (ih h)

theorem scalars_of_validateUtf8 (h : validateUtf8 input = true) : Scalars input :=
  scalars_of_validateUtf8Loop h

theorem scalars_of_nick {maxNickBytes : Nat} (h : isValidNickWith nick maxNickBytes = true) :
    Scalars nick := by
  unfold isValidNickWith at h
  split_ifs at h
  unfold isValidUtf8Nick at h
  split_ifs at h
  · split at h
    · cases h
    · next first rest hread =>
        exact .cons hread (scalars_of_allScalars (Bool.and_eq_true _ _ ▸ h).2)

theorem scalars_of_channel {channel : Bytes} {maxChannelBytes : Nat} {allowAmpersand : Bool}
    (h : isValidChannelWith channel maxChannelBytes allowAmpersand false = true) :
    Scalars channel := by
  unfold isValidChannelWith at h
  split at h
  · cases h
  split at h
  · cases h
  rename_i first rest hlength
  simp only [isValidUtf8ChannelRest, validChannelPrefix, Bool.and_eq_true, Bool.or_eq_true,
    beq_iff_eq, Bool.false_and, Bool.false_eq_true, or_false] at h
  have hfirst : first < 0x80 := by
    rcases h.1 with rfl | ⟨-, rfl⟩ <;> decide
  exact .cons (if_pos hfirst) (scalars_of_allScalars h.2.2)

end OnyxServer.Text
