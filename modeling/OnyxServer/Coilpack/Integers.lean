import Mathlib.Data.Nat.Bitwise
import OnyxServer.Coilpack.Value

/-!
# Varints and zig-zag integers

A varint holds seven bits an octet, the lowest group first. The reader takes exactly what
the writer makes: a group too many, or a last group of zero, is refused by its length.
-/
namespace OnyxServer.Coilpack

open Lib

theorem shiftRight_seven (value : UInt64) : (value >>> 7).toNat = value.toNat / 128 := by
  rw [UInt64.toNat_shiftRight]
  simp [Nat.shiftRight_eq_div_pow]

theorem low_group (value : UInt64) :
    ((value &&& 0x7f).toUInt8 ||| 0x80) = UInt8.ofNat (value.toNat % 128 + 128) := by
  apply UInt8.toNat_inj.mp
  have hmask : (0x7f : UInt64).toNat = 2 ^ 7 - 1 := rfl
  have hlow : ((value &&& 0x7f).toUInt8).toNat = value.toNat % 128 := by
    rw [UInt64.toNat_toUInt8, UInt64.toNat_and, hmask, Nat.and_two_pow_sub_one_eq_mod]
    omega
  have hhigh : (0x80 : UInt8).toNat = 2 ^ 7 * 1 := rfl
  rw [UInt8.toNat_or, hlow, hhigh, Nat.or_comm,
    ← Nat.two_pow_add_eq_or_of_lt (Nat.mod_lt _ (by decide)), UInt8.toNat_ofNat']
  omega

theorem le_group (value : UInt64) : (0x80 : UInt64) ≤ value ↔ 128 ≤ value.toNat := by
  rw [UInt64.le_iff_toNat_le]
  rfl

theorem last_group {value : UInt64} : value.toUInt8 = UInt8.ofNat value.toNat := by
  apply UInt8.toNat_inj.mp
  rw [UInt64.toNat_toUInt8, UInt8.toNat_ofNat']

theorem appendVarintLoop_succ (fuel : Nat) (value : UInt64) :
    appendVarintLoop (fuel + 1) value =
      if 128 ≤ value.toNat then
        UInt8.ofNat (value.toNat % 128 + 128) :: appendVarintLoop fuel (value >>> 7)
      else [UInt8.ofNat value.toNat] := by
  rw [appendVarintLoop, low_group, last_group]
  by_cases hlarge : 128 ≤ value.toNat
  · rw [if_pos ((le_group value).mpr hlarge), if_pos hlarge]
  · rw [if_neg (fun h => hlarge ((le_group value).mp h)), if_neg hlarge]

theorem appendVarintLoop_small {fuel : Nat} {value : UInt64} (h : value.toNat < 128) :
    appendVarintLoop fuel value = [UInt8.ofNat value.toNat] := by
  cases fuel with
  | zero => rw [appendVarintLoop, last_group]
  | succ fuel => rw [appendVarintLoop_succ, if_neg (Nat.not_le.mpr h)]

theorem pow_group (count : Nat) : 2 ^ (7 * (count + 1)) = 128 * 2 ^ (7 * count) := by
  rw [Nat.mul_succ, Nat.pow_add, Nat.mul_comm]

/-- A varint has as many octets as its value has groups. The last round takes whatever is
left. -/
theorem varintLenLoop_eq {fuel : Nat} (value : UInt64) {index : Nat} (hindex : index ≤ fuel) :
    varintLenLoop fuel value = index + 1 ↔
      (index = fuel ∨ value.toNat < 2 ^ (7 * (index + 1))) ∧
      (index = 0 ∨ 2 ^ (7 * index) ≤ value.toNat) := by
  induction fuel generalizing value index with
  | zero =>
    obtain rfl : index = 0 := Nat.le_zero.mp hindex
    simp [varintLenLoop]
  | succ fuel ih =>
    rw [varintLenLoop]
    by_cases hlarge : 128 ≤ value.toNat
    · rw [if_pos ((le_group value).mpr hlarge)]
      cases index with
      | zero =>
        have hpos : 1 ≤ varintLenLoop fuel (value >>> 7) := by
          cases fuel with
          | zero => exact Nat.le_refl _
          | succ fuel =>
            rw [varintLenLoop]
            split <;> omega
        constructor
        · intro h
          omega
        · rintro ⟨hlt | hlt, -⟩ <;> omega
      | succ index =>
        rw [Nat.add_right_cancel_iff, ih (value >>> 7) (Nat.le_of_succ_le_succ hindex),
          shiftRight_seven,
          pow_group (index + 1), Nat.div_lt_iff_lt_mul (by decide), Nat.mul_comm 128,
          pow_group index, Nat.add_right_cancel_iff]
        refine and_congr_right fun _ => ?_
        rw [Nat.le_div_iff_mul_le (by decide), Nat.mul_comm 128]
        constructor
        · rintro (rfl | hge)
          · exact Or.inr (by simpa using hlarge)
          · exact Or.inr hge
        · rintro (hzero | hge)
          · cases hzero
          · exact Or.inr hge
    · rw [if_neg (fun h => hlarge ((le_group value).mp h))]
      cases index with
      | zero => simpa using hlarge
      | succ index =>
        have hpow : 128 ≤ 2 ^ (7 * (index + 1)) := by
          rw [pow_group]
          exact Nat.le_mul_of_pos_right _ (Nat.two_pow_pos _)
        constructor
        · intro h
          omega
        · rintro ⟨-, hge⟩
          omega

theorem or_shiftLeft {result group : UInt64} {index : Nat} (hindex : index ≤ 9)
    (hresult : result.toNat < 2 ^ (7 * index)) (hgroup : group.toNat * 2 ^ (7 * index) < 2 ^ 64) :
    (result ||| (group <<< UInt64.ofNat (index * 7))).toNat =
      result.toNat + group.toNat * 2 ^ (7 * index) := by
  have hshift : (UInt64.ofNat (index * 7)).toNat % 64 = 7 * index := by
    rw [UInt64.toNat_ofNat']
    omega
  rw [UInt64.toNat_or, UInt64.toNat_shiftLeft, hshift, Nat.shiftLeft_eq, Nat.mod_eq_of_lt hgroup,
    Nat.or_comm, Nat.mul_comm, ← Nat.two_pow_add_eq_or_of_lt hresult, Nat.add_comm]

theorem payload_toNat (byte : UInt8) : ((byte &&& 0x7f).toUInt64).toNat = byte.toNat % 128 := by
  have hmask : (0x7f : UInt8).toNat = 2 ^ 7 - 1 := rfl
  rw [UInt8.toNat_toUInt64, UInt8.toNat_and, hmask, Nat.and_two_pow_sub_one_eq_mod]

theorem continues_iff (byte : UInt8) : byte &&& 0x80 = 0 ↔ byte.toNat < 128 := by
  have hbound := byte.toNat_lt
  have hmask : (0x80 : UInt8).toNat = 2 ^ 7 := rfl
  rw [← UInt8.toNat_inj, UInt8.toNat_and, hmask, Nat.and_two_pow, Nat.testBit_eq_decide_div_mod_eq]
  by_cases hbit : byte.toNat / 2 ^ 7 % 2 = 1
  · simp only [hbit, decide_true, Bool.toNat_true]
    constructor
    · intro h
      cases h
    · omega
  · simp only [hbit, decide_false, Bool.toNat_false, Nat.zero_mul]
    refine ⟨fun _ => by omega, fun _ => rfl⟩

variable {fuel index : Nat}

/-- One round of the reader. The tenth group holds the one bit that is left. -/
theorem readVarintLoop_cons (hindex : index ≤ 9) {result : UInt64} {byte : UInt8} {rest : Bytes}
    (hresult : result.toNat < 2 ^ (7 * index)) :
    (index = 9 ∧ 1 < byte.toNat % 128 ∧
      readVarintLoop (fuel + 1) index result (byte :: rest) = .error .varintOverflow) ∨
    ∃ next : UInt64, next.toNat = result.toNat + byte.toNat % 128 * 2 ^ (7 * index) ∧
      readVarintLoop (fuel + 1) index result (byte :: rest) =
        if byte.toNat < 128 then
          if varintLen next ≠ index + 1 then .error .nonCanonicalVarint else .ok (next, rest)
        else readVarintLoop fuel (index + 1) next rest := by
  have hpayload := payload_toNat byte
  have hover : 1 < (byte &&& 0x7f).toUInt64 ↔ 1 < byte.toNat % 128 := by
    rw [UInt64.lt_iff_toNat_lt, hpayload]
    rfl
  by_cases hlast : index = 9 ∧ 1 < byte.toNat % 128
  · refine Or.inl ⟨hlast.1, hlast.2, ?_⟩
    rw [readVarintLoop]
    exact if_pos ⟨hlast.1, hover.mpr hlast.2⟩
  refine Or.inr ⟨result ||| ((byte &&& 0x7f).toUInt64 <<< UInt64.ofNat (index * 7)), ?_, ?_⟩
  · rw [← hpayload]
    refine or_shiftLeft hindex hresult ?_
    rw [hpayload]
    by_cases hnine : index = 9
    · subst hnine
      omega
    have hgroup : byte.toNat % 128 < 2 ^ 7 := Nat.mod_lt _ (by decide)
    calc byte.toNat % 128 * 2 ^ (7 * index) < 2 ^ 7 * 2 ^ (7 * index) :=
          Nat.mul_lt_mul_of_pos_right hgroup (Nat.two_pow_pos _)
      _ = 2 ^ (7 + 7 * index) := (Nat.pow_add 2 7 (7 * index)).symm
      _ ≤ 2 ^ 64 := Nat.pow_le_pow_right (by decide) (by omega)
  · rw [readVarintLoop]
    simp only [hover, hlast, ↓reduceIte, continues_iff]

theorem ofNat_group {n : Nat} (h : n < 256) : (UInt8.ofNat n).toNat = n := by
  rw [UInt8.toNat_ofNat']
  omega

/-- The reader on what the writer makes of the groups from `index` on. -/
theorem readVarintLoop_append (hfuel : index + fuel = 9) (value result : UInt64)
    (rest : Bytes) (hresult : result.toNat < 2 ^ (7 * index))
    (hvalue : value.toNat * 2 ^ (7 * index) < 2 ^ 64) (hlast : index = 0 ∨ 0 < value.toNat) :
    ∃ whole, readVarintLoop (fuel + 1) index result (appendVarintLoop fuel value ++ rest) =
      .ok (whole, rest) ∧
      whole.toNat = result.toNat + value.toNat * 2 ^ (7 * index) := by
  induction fuel generalizing index value result with
  | zero =>
    obtain rfl : index = 9 := by omega
    have hsmall : value.toNat < 2 := by omega
    rw [appendVarintLoop_small (by omega), List.singleton_append]
    rcases @readVarintLoop_cons 0 9 (Nat.le_refl _) result
      (UInt8.ofNat value.toNat) rest hresult with
      ⟨-, hlarge, -⟩ | ⟨next, hnext, hread⟩
    · rw [ofNat_group (by omega)] at hlarge
      omega
    rw [ofNat_group (by omega)] at hnext hread
    rw [Nat.mod_eq_of_lt (by omega)] at hnext
    have hlen : varintLen next = 9 + 1 :=
      (varintLenLoop_eq next (Nat.le_refl 9)).mpr ⟨Or.inl rfl, Or.inr (by omega)⟩
    refine ⟨next, ?_, hnext⟩
    rw [hread, if_pos (by omega), if_neg (not_not.mpr hlen)]
  | succ fuel ih =>
    by_cases hlarge : 128 ≤ value.toNat
    · rw [appendVarintLoop_succ, if_pos hlarge, List.cons_append]
      rcases @readVarintLoop_cons (fuel + 1) index (by omega) result
        (UInt8.ofNat (value.toNat % 128 + 128))
        (appendVarintLoop fuel (value >>> 7) ++ rest) hresult with
          ⟨hnine, -, -⟩ | ⟨next, hnext, hread⟩
      · omega
      rw [ofNat_group (by omega)] at hnext hread
      rw [hread, if_neg (by omega)]
      have hmod : (value.toNat % 128 + 128) % 128 = value.toNat % 128 := by omega
      rw [hmod] at hnext
      have hgroups : value.toNat * 2 ^ (7 * index) =
          value.toNat % 128 * 2 ^ (7 * index) + value.toNat / 128 * 2 ^ (7 * (index + 1)) := by
        rw [pow_group, ← Nat.mul_assoc, ← Nat.add_mul, Nat.mul_comm (value.toNat / 128),
          Nat.mod_add_div]
      have hbelow : next.toNat < 2 ^ (7 * (index + 1)) := by
        have hgroup : value.toNat % 128 ≤ 127 := by omega
        rw [hnext, pow_group]
        calc result.toNat + value.toNat % 128 * 2 ^ (7 * index)
            < 2 ^ (7 * index) + 127 * 2 ^ (7 * index) :=
              Nat.add_lt_add_of_lt_of_le hresult (Nat.mul_le_mul_right _ hgroup)
          _ = 128 * 2 ^ (7 * index) := by omega
      obtain ⟨whole, hok, hwhole⟩ := @ih (index + 1) (by omega) (value >>> 7) next hbelow
        (by rw [shiftRight_seven]; omega) (Or.inr (by rw [shiftRight_seven]; omega))
      refine ⟨whole, hok, ?_⟩
      rw [hwhole, hnext, shiftRight_seven, hgroups, Nat.add_assoc]
    · rw [appendVarintLoop_small (Nat.not_le.mp hlarge), List.singleton_append]
      rcases @readVarintLoop_cons (fuel + 1) index (by omega) result
        (UInt8.ofNat value.toNat) rest hresult with
        ⟨hnine, -, -⟩ | ⟨next, hnext, hread⟩
      · omega
      rw [ofNat_group (by omega)] at hnext hread
      rw [Nat.mod_eq_of_lt (by omega)] at hnext
      have hlen : varintLen next = index + 1 := by
        refine (varintLenLoop_eq next (by omega)).mpr ⟨Or.inr ?_, ?_⟩
        · rw [hnext, pow_group]
          calc result.toNat + value.toNat * 2 ^ (7 * index)
              < 2 ^ (7 * index) + 127 * 2 ^ (7 * index) :=
                Nat.add_lt_add_of_lt_of_le hresult (Nat.mul_le_mul_right _ (by omega))
            _ = 128 * 2 ^ (7 * index) := by omega
        · refine hlast.imp_right fun hpos => ?_
          rw [hnext]
          exact Nat.le_trans (Nat.le_mul_of_pos_left _ hpos) (Nat.le_add_left _ _)
      refine ⟨next, ?_, hnext⟩
      rw [hread, if_pos (by omega), if_neg (not_not.mpr hlen)]

theorem readVarint_append (value : UInt64) (rest : Bytes) :
    readVarint (appendVarint value ++ rest) = .ok (value, rest) := by
  have hbound := value.toNat_lt
  obtain ⟨whole, hok, hwhole⟩ :=
    @readVarintLoop_append 9 0 rfl value 0 rest (by decide) (by omega) (Or.inl rfl)
  have heq : whole = value := UInt64.toNat_inj.mp (by simpa using hwhole)
  rw [readVarint, appendVarint, hok, heq]

/-- The last group is not zero unless it is the only one. -/
theorem readVarintLoop_last (hindex : index ≤ 9) {result next whole : UInt64} {byte : UInt8}
    {input rest : Bytes} (hresult : result.toNat < 2 ^ (7 * index)) (hbyte : byte.toNat < 128)
    (hnext : next.toNat = result.toNat + byte.toNat % 128 * 2 ^ (7 * index))
    (h : (if varintLen next ≠ index + 1 then .error .nonCanonicalVarint else .ok (next, input)) =
      (.ok (whole, rest) : Except FormatError (UInt64 × Bytes))) :
    ∃ value : UInt64, byte :: input = appendVarintLoop fuel value ++ rest ∧
      whole.toNat = result.toNat + value.toNat * 2 ^ (7 * index) ∧
      (index = 0 ∨ 0 < value.toNat) := by
  split_ifs at h with hlen
  cases h
  rw [Nat.mod_eq_of_lt hbyte] at hnext
  refine ⟨byte.toUInt64, ?_, ?_, ?_⟩
  · rw [appendVarintLoop_small (by simpa using hbyte), UInt8.toNat_toUInt64, UInt8.ofNat_toNat]
    rfl
  · rw [hnext, UInt8.toNat_toUInt64]
  · refine ((varintLenLoop_eq next hindex).mp (not_not.mp hlen)).2.imp_right fun hge => ?_
    rw [UInt8.toNat_toUInt64]
    by_contra hzero
    rw [hnext, Nat.eq_zero_of_not_pos hzero] at hge
    omega

/-- What the reader accepts from `index` on is what the writer makes of some groups. -/
theorem readVarintLoop_ok (hfuel : index + fuel = 9) {result whole : UInt64}
    {input rest : Bytes} (hresult : result.toNat < 2 ^ (7 * index))
    (h : readVarintLoop (fuel + 1) index result input = .ok (whole, rest)) :
    ∃ value : UInt64, input = appendVarintLoop fuel value ++ rest ∧
      whole.toNat = result.toNat + value.toNat * 2 ^ (7 * index) ∧
      (index = 0 ∨ 0 < value.toNat) := by
  induction fuel generalizing index result input with
  | zero =>
    cases input with
    | nil => cases h
    | cons byte input =>
      rcases @readVarintLoop_cons 0 index (by omega) result byte input hresult with
        ⟨-, -, hread⟩ | ⟨next, hnext, hread⟩
      · rw [hread] at h
        cases h
      rw [hread] at h
      split at h
      · next hbyte => exact readVarintLoop_last (by omega) hresult hbyte hnext h
      · cases h
  | succ fuel ih =>
    cases input with
    | nil => cases h
    | cons byte input =>
      rcases @readVarintLoop_cons (fuel + 1) index (by omega) result byte input hresult with
        ⟨-, -, hread⟩ | ⟨next, hnext, hread⟩
      · rw [hread] at h
        cases h
      rw [hread] at h
      split at h
      · next hbyte => exact readVarintLoop_last (by omega) hresult hbyte hnext h
      rename_i hbyte
      have hbound := byte.toNat_lt
      have hbelow : next.toNat < 2 ^ (7 * (index + 1)) := by
        rw [hnext, pow_group]
        calc result.toNat + byte.toNat % 128 * 2 ^ (7 * index)
            < 2 ^ (7 * index) + 127 * 2 ^ (7 * index) :=
              Nat.add_lt_add_of_lt_of_le hresult (Nat.mul_le_mul_right _ (by omega))
          _ = 128 * 2 ^ (7 * index) := by omega
      obtain ⟨value, rfl, hwhole, hpos⟩ := ih (by omega) hbelow h
      have hvalue : 0 < value.toNat := hpos.resolve_left (by omega)
      have hfits : byte.toNat % 128 + 128 * value.toNat < 2 ^ 64 := by
        have hword := whole.toNat_lt
        have hscale : 128 * value.toNat ≤ value.toNat * 2 ^ (7 * (index + 1)) := by
          rw [pow_group, Nat.mul_comm 128]
          exact Nat.mul_le_mul_left _ (Nat.le_mul_of_pos_right _ (Nat.two_pow_pos _))
        have hgroup : byte.toNat % 128 ≤ byte.toNat % 128 * 2 ^ (7 * index) :=
          Nat.le_mul_of_pos_right _ (Nat.two_pow_pos _)
        omega
      have hnat : (UInt64.ofNat (byte.toNat % 128 + 128 * value.toNat)).toNat =
          byte.toNat % 128 + 128 * value.toNat := UInt64.toNat_ofNat_of_lt' hfits
      refine ⟨UInt64.ofNat (byte.toNat % 128 + 128 * value.toNat), ?_, ?_, Or.inr (by omega)⟩
      · have hshift : UInt64.ofNat (byte.toNat % 128 + 128 * value.toNat) >>> 7 = value := by
          apply UInt64.toNat_inj.mp
          rw [shiftRight_seven, hnat]
          omega
        have hfirst : (byte.toNat % 128 + 128 * value.toNat) % 128 + 128 = byte.toNat := by omega
        rw [appendVarintLoop_succ, hnat, if_pos (by omega), hshift, hfirst, UInt8.ofNat_toNat,
          List.cons_append]
      · rw [hwhole, hnext, hnat, pow_group, Nat.mul_left_comm, Nat.add_mul, Nat.mul_assoc 128,
          Nat.add_assoc]

/-- A varint is read only from the octets it is written as. -/
theorem readVarint_ok {input rest : Bytes} {value : UInt64}
    (h : readVarint input = .ok (value, rest)) :
    input = appendVarint value ++ rest := by
  obtain ⟨whole, hinput, hwhole, -⟩ := @readVarintLoop_ok 9 0 rfl 0 value input rest (by decide) h
  have heq : value = whole := UInt64.toNat_inj.mp (by simpa using hwhole)
  rw [hinput, heq, appendVarint]

theorem sign_toUInt64 (value : Int64) :
    (value >>> 63).toUInt64 = if value.toUInt64.toNat < 2 ^ 63 then 0 else -1 := by
  have hmsb : value.toBitVec.msb = decide (2 ^ 63 ≤ value.toUInt64.toNat) := BitVec.msb_eq_decide _
  have hbound := value.toUInt64.toNat_lt
  apply UInt64.toNat_inj.mp
  change (value.toBitVec.sshiftRight 63).toNat = _
  by_cases hsign : value.toUInt64.toNat < 2 ^ 63
  · rw [decide_eq_false (Nat.not_le.mpr hsign)] at hmsb
    rw [BitVec.toNat_sshiftRight_of_msb_false hmsb, if_pos hsign, Nat.shiftRight_eq_div_pow]
    exact Nat.div_eq_of_lt hsign
  rw [decide_eq_true (Nat.not_lt.mp hsign)] at hmsb
  rw [BitVec.toNat_sshiftRight_of_msb_true hmsb, if_neg hsign, Nat.shiftRight_eq_div_pow]
  have hword : (-1 : UInt64).toNat = 2 ^ 64 - 1 := rfl
  have hvalue : value.toBitVec.toNat = value.toUInt64.toNat := rfl
  rw [hword, hvalue]
  omega

theorem xor_ones (value : UInt64) : (value ^^^ -1).toNat = 2 ^ 64 - 1 - value.toNat := by
  rw [UInt64.xor_neg_one, UInt64.toNat_not]
  rfl

theorem zigZagEncode_toNat (value : Int64) :
    (zigZagEncode value).toNat =
      if value.toUInt64.toNat < 2 ^ 63 then 2 * value.toUInt64.toNat
      else 2 ^ 65 - 1 - 2 * value.toUInt64.toNat := by
  have hbound := value.toUInt64.toNat_lt
  have hdouble : (value.toUInt64 <<< 1).toNat = 2 * value.toUInt64.toNat % 2 ^ 64 := by
    rw [UInt64.toNat_shiftLeft]
    simp [Nat.shiftLeft_eq, Nat.mul_comm]
  rw [zigZagEncode, sign_toUInt64]
  by_cases hsign : value.toUInt64.toNat < 2 ^ 63
  · rw [if_pos hsign, if_pos hsign, UInt64.xor_zero, hdouble]
    omega
  · rw [if_neg hsign, if_neg hsign, xor_ones, hdouble]
    omega

theorem zigZagDecode_toNat (value : UInt64) :
    (zigZagDecode value).toUInt64.toNat =
      if value.toNat % 2 = 0 then value.toNat / 2 else 2 ^ 64 - 1 - value.toNat / 2 := by
  have hhalf : (value >>> 1).toNat = value.toNat / 2 := by
    rw [UInt64.toNat_shiftRight]
    simp [Nat.shiftRight_eq_div_pow]
  have hlow : (value &&& 1).toNat = value.toNat % 2 := by
    have hmask : (1 : UInt64).toNat = 2 ^ 1 - 1 := rfl
    rw [UInt64.toNat_and, hmask, Nat.and_two_pow_sub_one_eq_mod]
  change ((value >>> 1) ^^^ (0 - (value &&& 1))).toNat = _
  by_cases heven : value.toNat % 2 = 0
  · have hzero : value &&& 1 = 0 := UInt64.toNat_inj.mp (by rw [hlow, heven]; rfl)
    rw [if_pos heven, hzero, UInt64.sub_zero, UInt64.xor_zero, hhalf]
  · have hone : value &&& 1 = 1 := UInt64.toNat_inj.mp (by rw [hlow]; change _ = 1; omega)
    have hones : (0 : UInt64) - 1 = -1 := rfl
    rw [if_neg heven, hone, hones, xor_ones, hhalf]

theorem zigZagDecode_encode (value : Int64) : zigZagDecode (zigZagEncode value) = value := by
  have hbound := value.toUInt64.toNat_lt
  have hword : (zigZagDecode (zigZagEncode value)).toUInt64 = value.toUInt64 := by
    apply UInt64.toNat_inj.mp
    rw [zigZagDecode_toNat, zigZagEncode_toNat]
    split_ifs <;> omega
  exact Int64.toBitVec_inj.mp (congrArg UInt64.toBitVec hword)

theorem zigZagEncode_decode (value : UInt64) : zigZagEncode (zigZagDecode value) = value := by
  have hbound := value.toNat_lt
  apply UInt64.toNat_inj.mp
  rw [zigZagEncode_toNat, zigZagDecode_toNat]
  split_ifs <;> omega

end OnyxServer.Coilpack
