import Mathlib.Tactic.SplitIfs
import OnyxServer.Lib.Bytes

/-!
# ASCII case

`std.ascii` folds the letters `A` to `Z` and leaves every other octet alone.
-/
namespace OnyxServer.Text

open Lib

def toLower (byte : UInt8) : UInt8 :=
  if 0x41 ≤ byte ∧ byte ≤ 0x5A then byte + 32 else byte

def lowerString (bytes : Bytes) : Bytes := bytes.map toLower

def eqlIgnoreCase (a b : Bytes) : Bool := decide (lowerString a = lowerString b)

@[simp] theorem eqlIgnoreCase_iff {a b : Bytes} :
    eqlIgnoreCase a b = true ↔ lowerString a = lowerString b := by
  simp [eqlIgnoreCase]

@[simp] theorem lowerString_length (bytes : Bytes) : (lowerString bytes).length = bytes.length :=
  List.length_map _

theorem toLower_toNat (byte : UInt8) : (toLower byte).toNat =
    if 0x41 ≤ byte.toNat ∧ byte.toNat ≤ 0x5A then byte.toNat + 32 else byte.toNat := by
  have hiff : (0x41 ≤ byte ∧ byte ≤ 0x5A) ↔ 0x41 ≤ byte.toNat ∧ byte.toNat ≤ 0x5A := by
    rw [UInt8.le_iff_toNat_le, UInt8.le_iff_toNat_le]
    rfl
  rw [toLower]
  by_cases h : 0x41 ≤ byte.toNat ∧ byte.toNat ≤ 0x5A
  · rw [if_pos (hiff.mpr h), if_pos h, UInt8.toNat_add]
    exact Nat.mod_eq_of_lt (by have := h.2; show byte.toNat + 32 < 256; omega)
  · rw [if_neg (mt hiff.mp h), if_neg h]

@[simp] theorem toLower_toLower (byte : UInt8) : toLower (toLower byte) = toLower byte := by
  apply UInt8.toNat_inj.mp
  rw [toLower_toNat (toLower byte), toLower_toNat byte]
  split_ifs <;> omega

@[simp] theorem lowerString_lowerString (bytes : Bytes) :
    lowerString (lowerString bytes) = lowerString bytes := by
  simp [lowerString]

/-- No capital and no small letter. -/
def Fixed (byte : UInt8) : Prop :=
  ¬ (0x41 ≤ byte.toNat ∧ byte.toNat ≤ 0x5A) ∧ ¬ (0x61 ≤ byte.toNat ∧ byte.toNat ≤ 0x7A)

instance (byte : UInt8) : Decidable (Fixed byte) := inferInstanceAs (Decidable (_ ∧ _))

theorem toLower_eq_iff_of_fixed {byte other : UInt8} (h : Fixed other) :
    toLower byte = other ↔ byte = other := by
  obtain ⟨hcapital, hsmall⟩ := h
  rw [← UInt8.toNat_inj, ← UInt8.toNat_inj, toLower_toNat]
  split_ifs <;> omega

theorem lowerString_getD (bytes : Bytes) (i : Nat) :
    (lowerString bytes).getD i 0 = toLower (bytes.getD i 0) := by
  simp only [lowerString, List.getD_eq_getElem?_getD, List.getElem?_map]
  cases bytes[i]? <;> rfl

end OnyxServer.Text
