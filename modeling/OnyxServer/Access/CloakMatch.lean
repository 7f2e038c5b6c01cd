import OnyxServer.Text.Glob

/-!
# Matching across cloak rotations

`cloak_match.zig`: a pattern that does not match the visible hostmask may still name an
older cloak of the same client. Its host is then read as a digest, an epoch, a cadence
and a suffix, and the cloak of that epoch is derived again and matched. The derivation
itself (a keyed hash) is a parameter.
-/
namespace OnyxServer.Access

open Lib Text Option

def maxHostnameLen : Nat := 253
def wideTokenHexLen : Nat := 32

structure CloakContext where
  key : Bytes
  previousKey : Option Bytes
  suffix : Bytes
  address : Bytes

/-- `cloakOpaqueEpochV4`: the room in the buffer, key, address, epoch, cadence and suffix. -/
abbrev Derivation := Nat → Bytes → Bytes → UInt64 → UInt64 → Bytes → Option Bytes

def byteAt : UInt8 := 0x40
def byteDot : UInt8 := 0x2E

/-- What follows the last `@`, all of it where there is none. -/
def afterLastAt (bytes : Bytes) : Bytes := (bytes.reverse.takeWhile (· != byteAt)).reverse

/-- What stands up to the last `@`, nothing where there is none. -/
def throughLastAt (bytes : Bytes) : Bytes :=
  bytes.take (bytes.length - (afterLastAt bytes).length)

/-- One label of a host and, behind a dot, the rest. -/
def nextLabel (host : Bytes) : Bytes × Option Bytes :=
  (host.takeWhile (· != byteDot),
    match host.dropWhile (· != byteDot) with
    | [] => none
    | _ :: rest => some rest)

def isDecimal (byte : UInt8) : Bool := decide (0x30 ≤ byte ∧ byte ≤ 0x39)

def isHex (byte : UInt8) : Bool :=
  isDecimal byte || decide (0x61 ≤ toLower byte ∧ toLower byte ≤ 0x66)

/-- The digits a digest asks for; a star asks for none. -/
def digestWidth : Bytes → Option Nat
  | [] => some 0
  | byte :: digest =>
    if toLower byte = globStar then digestWidth digest
    else if isHex byte ∨ toLower byte = globQuestion then (digestWidth digest).map (· + 1)
    else none

def hexValue (byte : UInt8) : Nat :=
  if isDecimal byte then byte.toNat - 0x30 else (toLower byte).toNat - 0x61 + 10

def parseLabel (label : Bytes) (marker : UInt8) : Option UInt64 :=
  match label with
  | [] => none
  | first :: digits =>
    if label.length < 2 ∨ 17 < label.length ∨ toLower first ≠ marker then none
    else if 1 < digits.length ∧ digits.headD 0 = 0x30 then none
    else if digits.any (!isHex ·) then none
    else some (UInt64.ofNat (digits.foldl (fun value digit => 16 * value + hexValue digit) 0))

def isHostnameByte (byte : UInt8) : Bool :=
  decide (0x61 ≤ toLower byte ∧ toLower byte ≤ 0x7A) || isDecimal byte || byte == 0x2D

def validSuffixLabel (label : Bytes) : Bool :=
  decide (0 < label.length ∧ label.length ≤ 63) && label.headD 0 != 0x2D &&
    label.getLastD 0 != 0x2D && label.all isHostnameByte

def normalizeSuffix (suffix : Bytes) : Option Bytes :=
  if suffix.length = 0 ∨ maxHostnameLen - 74 < suffix.length then none
  else if (suffix.splitOn byteDot).all validSuffixLabel then some (lowerString suffix)
  else none

/-- The epoch and the cadence a pattern's host names under the suffix. -/
def readCloakHost (host suffix : Bytes) : Option (UInt64 × UInt64) := do
  let (digest, rest) := nextLabel host
  if digest.length = 0 then none
  let width ← digestWidth digest
  if wideTokenHexLen < width then none
  let (epochLabel, rest) := nextLabel (← rest)
  let epoch ← parseLabel epochLabel 0x65
  let (cadenceLabel, rest) := nextLabel (← rest)
  let cadence ← parseLabel cadenceLabel 0x63
  let (version, rest) := nextLabel (← rest)
  if !eqlIgnoreCase version [0x6F, 0x70, 0x71, 0x34] then none
  if !eqlIgnoreCase (rest.getD []) suffix then none
  pure (epoch, cadence)

def alternate (derive : Derivation) (pattern visible key address : Bytes) (epoch cadence : UInt64)
    (suffix : Bytes) : Bool :=
  let through := throughLastAt visible
  if 256 < through.length then false
  else
    match derive (512 - through.length) key address epoch cadence suffix with
    | none => false
    | some derived => matchGlob pattern (through ++ derived)

def cloakMatch (derive : Derivation) (pattern visible : Bytes) (ctx : Option CloakContext) : Bool :=
  if matchGlob pattern visible then true
  else
    match ctx with
    | none => false
    | some context =>
      if 512 < pattern.length ∨ 512 < visible.length then false
      else
        match normalizeSuffix context.suffix with
        | none => false
        | some suffix =>
          match readCloakHost (afterLastAt pattern) suffix with
          | none => false
          | some (epoch, cadence) =>
            alternate derive pattern visible context.key context.address epoch cadence suffix ||
              context.previousKey.any fun key =>
                alternate derive pattern visible key context.address epoch cadence suffix

/-! ## The case of the pattern -/

theorem takeWhile_lower {sep : UInt8} (hsep : Fixed sep) (bytes : Bytes) :
    (lowerString bytes).takeWhile (· != sep) = lowerString (bytes.takeWhile (· != sep)) := by
  have hp : ((· != sep) ∘ toLower) = (· != sep) := by
    funext byte
    simp only [Function.comp, bne, beq_eq_decide, toLower_eq_iff_of_fixed hsep]
  rw [lowerString, List.takeWhile_map, hp, lowerString]

theorem dropWhile_lower {sep : UInt8} (hsep : Fixed sep) (bytes : Bytes) :
    (lowerString bytes).dropWhile (· != sep) = lowerString (bytes.dropWhile (· != sep)) := by
  have hp : ((· != sep) ∘ toLower) = (· != sep) := by
    funext byte
    simp only [Function.comp, bne, beq_eq_decide, toLower_eq_iff_of_fixed hsep]
  rw [lowerString, List.dropWhile_map, hp, lowerString]

theorem afterLastAt_lower (bytes : Bytes) :
    afterLastAt (lowerString bytes) = lowerString (afterLastAt bytes) := by
  have hrev : (lowerString bytes).reverse = lowerString bytes.reverse := List.map_reverse.symm
  rw [afterLastAt, hrev, takeWhile_lower (by decide)]
  exact List.map_reverse.symm

theorem nextLabel_lower (host : Bytes) :
    nextLabel (lowerString host) =
      (lowerString (nextLabel host).1, (nextLabel host).2.map lowerString) := by
  rw [nextLabel, takeWhile_lower (by decide), dropWhile_lower (by decide), nextLabel]
  cases host.dropWhile (· != byteDot) <;> rfl

@[simp] theorem isDecimal_lower (byte : UInt8) : isDecimal (toLower byte) = isDecimal byte := by
  simp only [isDecimal, UInt8.le_iff_toNat_le, toLower_toNat]
  apply decide_eq_decide.mpr
  split_ifs with h
  · have := h.1
    exact ⟨fun hd => absurd hd.2 (by show ¬ byte.toNat + 32 ≤ 57; omega),
      fun hd => absurd hd.2 (by show ¬ byte.toNat ≤ 57; omega)⟩
  · rfl

@[simp] theorem isHex_lower (byte : UInt8) : isHex (toLower byte) = isHex byte := by
  simp [isHex]

theorem toLower_isDecimal {byte : UInt8} (h : isDecimal byte = true) : toLower byte = byte := by
  have hle : byte.toNat ≤ 57 := UInt8.le_iff_toNat_le.mp (of_decide_eq_true h).2
  apply UInt8.toNat_inj.mp
  rw [toLower_toNat, if_neg (by omega)]

@[simp] theorem hexValue_lower (byte : UInt8) : hexValue (toLower byte) = hexValue byte := by
  simp only [hexValue, isDecimal_lower, toLower_toLower]
  split
  · rename_i h
    rw [toLower_isDecimal h]
  · rfl

theorem digestWidth_lower (digest : Bytes) :
    digestWidth (lowerString digest) = digestWidth digest := by
  induction digest with
  | nil => rfl
  | cons byte digest ih =>
    rw [lowerString] at ih
    simp only [lowerString, List.map_cons, digestWidth, toLower_toLower, isHex_lower, ih]

theorem parseLabel_lower (label : Bytes) (marker : UInt8) :
    parseLabel (lowerString label) marker = parseLabel label marker := by
  cases label with
  | nil => rfl
  | cons first digits =>
    have hhead : (digits.map toLower).headD 0 = 0x30 ↔ digits.headD 0 = 0x30 := by
      cases digits with
      | nil => rfl
      | cons digit digits => exact toLower_eq_iff_of_fixed (by decide)
    simp only [lowerString, List.map_cons, parseLabel, List.length_cons, List.length_map,
      toLower_toLower, hhead, List.any_map, List.foldl_map, Function.comp_def, isHex_lower,
      hexValue_lower]

theorem eqlIgnoreCase_lower (a b : Bytes) :
    eqlIgnoreCase (lowerString a) b = eqlIgnoreCase a b := by
  simp [eqlIgnoreCase]

theorem readCloakHost_lower (host suffix : Bytes) :
    readCloakHost (lowerString host) suffix = readCloakHost host suffix := by
  have hrest : ∀ rest : Option Bytes, eqlIgnoreCase ((rest.map lowerString).getD []) suffix =
      eqlIgnoreCase (rest.getD []) suffix := by
    intro rest
    cases rest with
    | none => rfl
    | some rest => exact eqlIgnoreCase_lower rest suffix
  simp only [readCloakHost, nextLabel_lower, lowerString_length, digestWidth_lower]
  cases (nextLabel host).2 with
  | none => rfl
  | some epochRest =>
    simp only [map_some, bind_eq_bind, bind_some, nextLabel_lower, parseLabel_lower]
    cases (nextLabel epochRest).2 with
    | none => rfl
    | some cadenceRest =>
      simp only [map_some, bind_some, nextLabel_lower, parseLabel_lower]
      cases (nextLabel cadenceRest).2 with
      | none => rfl
      | some versionRest =>
        simp only [map_some, bind_some, nextLabel_lower, eqlIgnoreCase_lower, hrest]

/-- The case of a pattern's letters does not change what it matches. -/
theorem cloakMatch_lower (derive : Derivation) (pattern visible : Bytes)
    (ctx : Option CloakContext) :
    cloakMatch derive (lowerString pattern) visible ctx =
      cloakMatch derive pattern visible ctx := by
  have halternate : ∀ key address epoch cadence suffix,
      alternate derive (lowerString pattern) visible key address epoch cadence suffix =
        alternate derive pattern visible key address epoch cadence suffix := by
    intros
    simp only [alternate, matchGlob_lower]
  simp only [cloakMatch, matchGlob_lower, lowerString_length, afterLastAt_lower,
    readCloakHost_lower, halternate]

end OnyxServer.Access
