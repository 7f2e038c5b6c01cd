import OnyxServer.Lib.Bytes

/-!
# Saturating arithmetic on words

`a +| b`, `a *| b` and `a -| b` of the source: a result that does not fit is the
nearest word that does.
-/
namespace OnyxServer.Lib

def maxU64 : Nat := 2 ^ 64 - 1

def clampU64 (n : Nat) : UInt64 := UInt64.ofNat (min n maxU64)

def satAdd (a b : UInt64) : UInt64 := clampU64 (a.toNat + b.toNat)
def satMul (a b : UInt64) : UInt64 := clampU64 (a.toNat * b.toNat)
def satSub (a b : UInt64) : UInt64 := clampU64 (a.toNat - b.toNat)

@[simp] theorem clampU64_toNat (n : Nat) : (clampU64 n).toNat = min n maxU64 := by
  rw [clampU64, UInt64.toNat_ofNat']
  exact Nat.mod_eq_of_lt (by simp only [maxU64]; omega)

@[simp] theorem satAdd_toNat (a b : UInt64) : (satAdd a b).toNat = min (a.toNat + b.toNat) maxU64 :=
  clampU64_toNat _

theorem toNat_le_maxU64 (a : UInt64) : a.toNat ≤ maxU64 := by
  have ha := a.toNat_lt
  simp only [maxU64]
  omega

end OnyxServer.Lib
