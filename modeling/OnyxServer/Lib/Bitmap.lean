import Mathlib.Data.List.Basic

/-!
# Compacted arrays

A bitmap says which slots of an array are taken; the array itself holds only these, in the
order of their slots.
-/
namespace OnyxServer.Lib.Bitmap

open List

variable {w slot i : Nat} {bitmap : BitVec w}

def popCount (bitmap : BitVec w) : Nat := (List.range w).countP bitmap.getLsbD

def bit (w slot : Nat) : BitVec w := 1#w <<< slot

def slotOccupied (bitmap : BitVec w) (slot : Nat) : Bool := bitmap &&& bit w slot ≠ 0#w

/-- The place of a slot in the compacted array. -/
def physIndex (bitmap : BitVec w) (slot : Nat) : Nat := popCount (bitmap &&& (bit w slot - 1#w))

/-- The slots that are taken, in order. -/
def slots (bitmap : BitVec w) : List Nat := (List.range w).filter bitmap.getLsbD

def below (bitmap : BitVec w) (slot : Nat) : List Nat := (List.range slot).filter bitmap.getLsbD

def above (bitmap : BitVec w) (slot : Nat) : List Nat :=
  (List.range' (slot + 1) (w - (slot + 1))).filter bitmap.getLsbD

theorem popCount_eq (bitmap : BitVec w) : popCount bitmap = (slots bitmap).length :=
  countP_eq_length_filter

theorem slots_nodup (bitmap : BitVec w) : (slots bitmap).Nodup := nodup_range.filter _

theorem getLsbD_bit (h : slot < w) : (bit w slot).getLsbD i = decide (slot = i) := by
  rw [bit, ← BitVec.twoPow_eq, BitVec.getLsbD_twoPow, decide_eq_true h, Bool.true_and]

/-- The bits under a bit are those of the slots under its slot. -/
theorem getLsbD_mask (h : slot < w) : (bit w slot - 1#w).getLsbD i = decide (i < slot) := by
  have hlt : (2 : Nat) ^ slot < 2 ^ w := Nat.pow_lt_pow_right Nat.one_lt_two h
  have hpos : 0 < (2 : Nat) ^ slot := Nat.two_pow_pos slot
  have hbit : (bit w slot).toNat = 2 ^ slot := by
    rw [bit, ← BitVec.twoPow_eq, BitVec.toNat_twoPow, Nat.mod_eq_of_lt hlt]
  have hone : (1#w).toNat = 1 := by
    rw [BitVec.toNat_ofNat, Nat.mod_eq_of_lt (by omega)]
  have hmask : (bit w slot - 1#w).toNat = 2 ^ slot - 1 := by
    rw [BitVec.toNat_sub_of_le (by rw [BitVec.le_def, hbit, hone]; exact hpos), hbit, hone]
  rw [BitVec.getLsbD, hmask, Nat.testBit_two_pow_sub_one]

theorem slotOccupied_iff (h : slot < w) : slotOccupied bitmap slot = bitmap.getLsbD slot := by
  cases hset : bitmap.getLsbD slot with
  | true =>
    refine decide_eq_true fun hzero => ?_
    have hbit := congrArg (fun x : BitVec w => x.getLsbD slot) hzero
    simp [hset, getLsbD_bit h] at hbit
  | false =>
    refine decide_eq_false (not_not_intro (BitVec.eq_of_getLsbD_eq fun i hi => ?_))
    rw [BitVec.getLsbD_and, getLsbD_bit h, BitVec.getLsbD_zero]
    by_cases hsame : slot = i
    · rw [← hsame, hset, Bool.false_and]
    · rw [decide_eq_false hsame, Bool.and_false]

theorem slots_eq (h : slot < w) :
    slots bitmap =
      below bitmap slot ++ ((if bitmap.getLsbD slot then [slot] else []) ++ above bitmap slot) := by
  have hrange :
      List.range w = List.range slot ++ (slot :: List.range' (slot + 1) (w - (slot + 1))) := by
    have hw : w = slot + (w - (slot + 1) + 1) := by omega
    rw [range_eq_range', hw, ← List.range'_append_1, Nat.zero_add, List.range'_succ,
      range_eq_range', ← hw]
  rw [slots, hrange, filter_append, filter_cons]
  split <;> rfl

theorem slots_of_occupied (h : slot < w) (hset : bitmap.getLsbD slot = true) :
    slots bitmap = below bitmap slot ++ slot :: above bitmap slot := by
  rw [slots_eq h, if_pos hset, singleton_append]

theorem slots_of_free (h : slot < w) (hset : bitmap.getLsbD slot = false) :
    slots bitmap = below bitmap slot ++ above bitmap slot := by
  rw [slots_eq h, hset, if_neg Bool.false_ne_true, nil_append]

theorem below_congr {other : BitVec w} (h : ∀ i < slot, other.getLsbD i = bitmap.getLsbD i) :
    below other slot = below bitmap slot :=
  filter_congr fun i hi => h i (mem_range.mp hi)

theorem above_congr {other : BitVec w} (h : ∀ i, slot < i → other.getLsbD i = bitmap.getLsbD i) :
    above other slot = above bitmap slot :=
  filter_congr fun i hi => h i (mem_range'_1.mp hi).1

theorem physIndex_eq (h : slot < w) : physIndex bitmap slot = (below bitmap slot).length := by
  have hmasked : ∀ i, (bitmap &&& (bit w slot - 1#w)).getLsbD i =
      (bitmap.getLsbD i && decide (i < slot)) := fun i => by
    rw [BitVec.getLsbD_and, getLsbD_mask h]
  have hfree : (bitmap &&& (bit w slot - 1#w)).getLsbD slot = false := by
    rw [hmasked, decide_eq_false (Nat.lt_irrefl slot), Bool.and_false]
  have hbelow : below (bitmap &&& (bit w slot - 1#w)) slot = below bitmap slot :=
    below_congr fun i hi => by rw [hmasked, decide_eq_true hi, Bool.and_true]
  have habove : above (bitmap &&& (bit w slot - 1#w)) slot = [] :=
    filter_eq_nil_iff.mpr fun i hi => by
      have hle := (mem_range'_1.mp hi).1
      rw [hmasked, decide_eq_false (by omega), Bool.and_false]
      exact Bool.false_ne_true
  rw [physIndex, popCount_eq, slots_of_free h hfree, hbelow, habove, append_nil]

/-- Taking a slot puts it between the ones below and the ones above. -/
theorem slots_insert (h : slot < w) :
    slots (bitmap ||| bit w slot) = below bitmap slot ++ slot :: above bitmap slot := by
  have hbits : ∀ i, (bitmap ||| bit w slot).getLsbD i = (bitmap.getLsbD i || decide (slot = i)) :=
    fun i => by
    rw [BitVec.getLsbD_or, getLsbD_bit h]
  have hother : ∀ i, slot ≠ i → (bitmap ||| bit w slot).getLsbD i = bitmap.getLsbD i :=
    fun i hi => by
    rw [hbits, decide_eq_false hi, Bool.or_false]
  have hset : (bitmap ||| bit w slot).getLsbD slot = true := by
    rw [hbits, decide_eq_true rfl, Bool.or_true]
  rw [slots_of_occupied h hset, below_congr fun i hi => hother i (Nat.ne_of_gt hi),
    above_congr fun i hi => hother i (Nat.ne_of_lt hi)]

theorem slots_erase (h : slot < w) :
    slots (bitmap &&& ~~~ bit w slot) = below bitmap slot ++ above bitmap slot := by
  have hbits : ∀ i, (bitmap &&& ~~~ bit w slot).getLsbD i =
      (bitmap.getLsbD i && !decide (slot = i)) := fun i => by
    rw [BitVec.getLsbD_and, BitVec.getLsbD_not, getLsbD_bit h]
    by_cases hi : i < w
    · rw [decide_eq_true hi, Bool.true_and]
    · rw [BitVec.getLsbD_of_ge _ _ (Nat.le_of_not_lt hi), Bool.false_and, Bool.false_and]
  have hother : ∀ i, slot ≠ i → (bitmap &&& ~~~ bit w slot).getLsbD i = bitmap.getLsbD i :=
    fun i hi => by
    rw [hbits, decide_eq_false hi, Bool.not_false, Bool.and_true]
  have hfree : (bitmap &&& ~~~ bit w slot).getLsbD slot = false := by
    rw [hbits, decide_eq_true rfl, Bool.not_true, Bool.and_false]
  rw [slots_of_free h hfree, below_congr fun i hi => hother i (Nat.ne_of_gt hi),
    above_congr fun i hi => hother i (Nat.ne_of_lt hi)]

theorem lt_of_mem_below (h : i ∈ below bitmap slot) : i < slot := mem_range.mp (mem_filter.mp h).1

theorem lt_of_mem_above (h : i ∈ above bitmap slot) : slot < i :=
  (mem_range'_1.mp (mem_filter.mp h).1).1

theorem slots_bit (h : slot < w) : slots (bit w slot) = [slot] := by
  have hbelow : below (0#w) slot = [] := filter_eq_nil_iff.mpr fun i _ => by simp
  have habove : above (0#w) slot = [] := filter_eq_nil_iff.mpr fun i _ => by simp
  rw [← BitVec.zero_or (x := bit w slot), slots_insert h, hbelow, habove, nil_append]

/-- Two bits take their slots in order. -/
theorem slots_pair {other : Nat} (h : slot < w) (hother : other < w) (hne : slot ≠ other) :
    slots (bit w slot ||| bit w other) = if slot < other then [slot, other] else [other, slot] := by
  have hfree : (bit w slot).getLsbD other = false := by rw [getLsbD_bit h, decide_eq_false hne]
  have hsplit := slots_of_free hother hfree
  rw [slots_bit h] at hsplit
  rw [slots_insert hother]
  rcases cons_eq_append_iff.mp hsplit with ⟨hnil, habove⟩ | ⟨rest, hbelow, hrest⟩
  · have hlt : other < slot := lt_of_mem_above (habove ▸ mem_singleton_self slot)
    rw [hnil, habove, if_neg (Nat.not_lt_of_lt hlt), nil_append]
  obtain ⟨rfl, habove⟩ := append_eq_nil_iff.mp hrest.symm
  have hlt : slot < other := lt_of_mem_below (hbelow ▸ mem_singleton_self slot)
  rw [hbelow, habove, if_pos hlt]
  rfl

end OnyxServer.Lib.Bitmap
