import Mathlib.Algebra.Group.Int.Defs
import Mathlib.Algebra.GroupWithZero.Nat
import Mathlib.Data.List.Lex
import Mathlib.Data.List.Sort
import Mathlib.Order.Lattice
import Mathlib.Tactic.Order

/-!
# Byte strings and fixed-width words

Byte strings are lists of octets, ordered lexicographically. A fixed-width array
carries its length as a subtype, so a key or an identifier of the wrong width
cannot be built. The integer codecs write exactly `w` bytes in either byte order;
they are exact below `256 ^ w`.
-/
namespace OnyxServer.Lib

instance instLinearOrderUInt8 : LinearOrder UInt8 where
  le_refl := UInt8.le_refl
  le_trans _ _ _ := UInt8.le_trans
  le_antisymm _ _ := UInt8.le_antisymm
  le_total := UInt8.le_total
  lt_iff_le_not_ge a b := by simp only [UInt8.lt_iff_toNat_lt, UInt8.le_iff_toNat_le]; omega
  toDecidableLE := inferInstance
  toDecidableEq := inferInstance
  toDecidableLT := inferInstance

instance instLinearOrderUInt64 : LinearOrder UInt64 where
  le_refl := UInt64.le_refl
  le_trans _ _ _ := UInt64.le_trans
  le_antisymm _ _ := UInt64.le_antisymm
  le_total := UInt64.le_total
  lt_iff_le_not_ge a b := by simp only [UInt64.lt_iff_toNat_lt, UInt64.le_iff_toNat_le]; omega
  toDecidableLE := inferInstance
  toDecidableEq := inferInstance
  toDecidableLT := inferInstance

abbrev Bytes := List UInt8

instance instLawfulBEqUInt64 : LawfulBEq UInt64 := inferInstance

instance instLawfulBEqBytes : LawfulBEq Bytes := inferInstance

/-- An array of exactly `n` octets. -/
abbrev FixedBytes (n : Nat) := { bytes : Bytes // bytes.length = n }

namespace FixedBytes

/-- The first `n` octets of a slice. A short slice is filled with zeros, which no
caller relies on: every read is preceded by a length check. -/
def ofSlice (n : Nat) (bytes : Bytes) : FixedBytes n :=
  ⟨bytes.take n ++ List.replicate (n - bytes.length) 0, by
    simp only [List.length_append, List.length_take, List.length_replicate]; omega⟩

/-- One octet repeated. -/
def splat (n : Nat) (byte : UInt8) : FixedBytes n :=
  ⟨List.replicate n byte, List.length_replicate⟩

@[simp] theorem ofSlice_append {n : Nat} (x : FixedBytes n) (rest : Bytes) :
    ofSlice n (x.val ++ rest) = x := by
  apply Subtype.ext
  have hx := x.property
  simp only [ofSlice]
  rw [List.take_left' hx, List.length_append, hx]
  simp

@[simp] theorem ofSlice_val {n : Nat} (x : FixedBytes n) : ofSlice n x.val = x := by
  simpa using ofSlice_append x []

end FixedBytes

def leBytes : Nat → Nat → Bytes
  | 0, _ => []
  | w + 1, n => UInt8.ofNat n :: leBytes w (n / 256)

def leNat : Bytes → Nat
  | [] => 0
  | b :: bs => b.toNat + 256 * leNat bs

def beBytes (w n : Nat) : Bytes := (leBytes w n).reverse

def beNat (bytes : Bytes) : Nat := leNat bytes.reverse

@[simp] theorem leBytes_length (w n : Nat) : (leBytes w n).length = w := by
  induction w generalizing n with
  | zero => rfl
  | succ w ih => simp [leBytes, ih]

@[simp] theorem beBytes_length (w n : Nat) : (beBytes w n).length = w := by
  simp [beBytes]

theorem leNat_leBytes {w n : Nat} (h : n < 256 ^ w) : leNat (leBytes w n) = n := by
  induction w generalizing n with
  | zero => simp only [Nat.pow_zero] at h; simp [leBytes, leNat]; omega
  | succ w ih =>
    have hdiv : n / 256 < 256 ^ w := by
      rw [Nat.pow_succ, Nat.mul_comm] at h
      exact Nat.div_lt_of_lt_mul h
    simp only [leBytes, leNat, ih hdiv, UInt8.toNat_ofNat']
    omega

theorem leBytes_leNat (bytes : Bytes) : leBytes bytes.length (leNat bytes) = bytes := by
  induction bytes with
  | nil => rfl
  | cons b bs ih =>
    have hlow : UInt8.ofNat (b.toNat + 256 * leNat bs) = b := by
      apply UInt8.toNat_inj.mp
      have hb := b.toNat_lt
      rw [UInt8.toNat_ofNat']
      omega
    have hhigh : (b.toNat + 256 * leNat bs) / 256 = leNat bs := by
      have hb := b.toNat_lt
      omega
    simp only [List.length_cons, leNat, leBytes, hlow, hhigh, ih]

theorem beNat_beBytes {w n : Nat} (h : n < 256 ^ w) : beNat (beBytes w n) = n := by
  simp [beNat, beBytes, leNat_leBytes h]

theorem leNat_lt (bytes : Bytes) : leNat bytes < 256 ^ bytes.length := by
  induction bytes with
  | nil => simp [leNat]
  | cons b bs ih =>
    have hb := b.toNat_lt
    simp only [leNat, List.length_cons, Nat.pow_succ]
    omega

theorem leNat_leBytes_u64 (n : UInt64) : leNat (leBytes 8 n.toNat) = n.toNat :=
  leNat_leBytes (by have := n.toNat_lt; simpa using this)

theorem u64_leBytes_inj {a b : UInt64} (h : leBytes 8 a.toNat = leBytes 8 b.toNat) : a = b := by
  rw [← UInt64.toNat_inj, ← leNat_leBytes_u64 a, ← leNat_leBytes_u64 b, h]

theorem beNat_beBytes_u64 (n : UInt64) : beNat (beBytes 8 n.toNat) = n.toNat :=
  beNat_beBytes (by have := n.toNat_lt; simpa using this)

theorem u64_read (n : UInt64) : UInt64.ofNat (beNat (beBytes 8 n.toNat)) = n := by
  rw [beNat_beBytes_u64]
  exact UInt64.ofNat_toNat

theorem u32_read (n : UInt32) : UInt32.ofNat (beNat (beBytes 4 n.toNat)) = n := by
  rw [beNat_beBytes (by have := n.toNat_lt; simpa using this)]
  exact UInt32.ofNat_toNat

end OnyxServer.Lib
