import OnyxServer.AntiEntropy.Merkle
import Mathlib.Logic.Function.Basic

/-!
# Bit prefixes of key hashes

The prefix of a subtree is built bit by bit from the root. A hash has the prefix of a
child exactly when it has the parent's and the child's bit at the split.
-/
namespace OnyxServer.AntiEntropy

section

open Lib List

theorem getBit_eq (hash : Hash) (i : Nat) :
    getBit hash i = (hash.val.getD (i / 8) 0).toBitVec.getLsbD (7 - i % 8) := rfl

theorem getD_modify (bytes : Bytes) (i j : Nat) (f : UInt8 → UInt8) (hj : j < bytes.length) :
    (bytes.modify i f).getD j 0 = if i = j then f (bytes.getD j 0) else bytes.getD j 0 := by
  rw [getD_eq_getElem?_getD, getD_eq_getElem?_getD, List.getElem?_modify,
    List.getElem?_eq_getElem hj]
  split <;> simp_all

/-- The mask of one bit of an octet, counted from the high end. -/
theorem getLsbD_mask (i j : Nat) :
    (1#8 <<< (7 - j % 8)).getLsbD (7 - i % 8) = decide (i % 8 = j % 8) := by
  rw [BitVec.getLsbD_shiftLeft, BitVec.getLsbD_one, Bool.eq_iff_iff]
  simp only [Bool.and_eq_true, decide_eq_true_eq, Bool.not_eq_true', decide_eq_false_iff_not]
  omega

theorem getLsbD_keepMask (i n : Nat) :
    (0xff#8 <<< (8 - n % 8)).getLsbD (7 - i % 8) = decide (i % 8 < n % 8) := by
  rw [BitVec.getLsbD_shiftLeft, show (0xff#8) = BitVec.allOnes 8 from rfl, BitVec.getLsbD_allOnes,
    Bool.eq_iff_iff]
  simp only [Bool.and_eq_true, decide_eq_true_eq, Bool.not_eq_true', decide_eq_false_iff_not]
  omega

theorem getBit_setBit {hash : Hash} {i : Nat} (hi : i < maxPrefixBits) (j : Nat) (bit : Bool) :
    getBit (setBit hash j bit) i = if i = j then bit else getBit hash i := by
  have hlen := hash.property
  unfold maxPrefixBits at hi
  rw [getBit_eq, getBit_eq, setBit, getD_modify _ _ _ _ (by omega)]
  by_cases hbyte : j / 8 = i / 8
  · rw [if_pos hbyte]
    have hsame : i % 8 = j % 8 ↔ i = j := by omega
    cases bit with
    | false =>
      rw [if_neg Bool.false_ne_true, UInt8.toBitVec_and, UInt8.toBitVec_not, BitVec.getLsbD_and,
        BitVec.getLsbD_not, getLsbD_mask]
      simp only [hsame, show 7 - i % 8 < 8 by omega, decide_true, Bool.true_and]
      split <;> simp_all
    | true =>
      rw [if_pos rfl, UInt8.toBitVec_or, BitVec.getLsbD_or, getLsbD_mask]
      simp only [hsame]
      split <;> simp_all
  · rw [if_neg hbyte, if_neg (by omega)]

theorem getD_clearFrom (hash : Hash) (start i : Nat) :
    (clearFrom hash start).val.getD i 0 = if i < start then hash.val.getD i 0 else 0 := by
  have hlen := hash.property
  simp only [clearFrom, getD_eq_getElem?_getD]
  by_cases hi : i < start
  · by_cases hin : i < 32
    · rw [if_pos hi, List.getElem?_append_left (by rw [length_take]; omega),
        List.getElem?_take_of_lt hi]
    · rw [if_pos hi, List.getElem?_eq_none (by simp; omega), List.getElem?_eq_none (by omega)]
  · rw [if_neg hi]
    by_cases hin : i < 32
    · rw [List.getElem?_append_right (by rw [length_take]; omega), List.getElem?_replicate]
      split <;> rfl
    · rw [List.getElem?_eq_none (by simp; omega)]
      rfl

theorem getBit_clearAfter {hash : Hash} {i : Nat} (hi : i < maxPrefixBits) (bits : Nat) :
    getBit (clearAfter hash bits) i = (decide (i < bits) && getBit hash i) := by
  have hlen := hash.property
  unfold maxPrefixBits at hi
  unfold clearAfter maxPrefixBits
  split
  · rw [decide_eq_true (by omega), Bool.true_and]
  split
  · rw [getBit_eq, getD_clearFrom, getBit_eq]
    by_cases hbyte : i / 8 < bits / 8
    · rw [if_pos hbyte, decide_eq_true (by omega), Bool.true_and]
    · rw [if_neg hbyte, decide_eq_false (by omega), Bool.false_and]
      exact BitVec.getLsbD_zero
  · rw [getBit_eq, getD_clearFrom, getBit_eq]
    by_cases hbyte : i / 8 < bits / 8 + 1
    · rw [if_pos hbyte, getD_modify _ _ _ _ (by omega)]
      by_cases hlast : bits / 8 = i / 8
      · rw [if_pos hlast, UInt8.toBitVec_and, BitVec.getLsbD_and, getLsbD_keepMask, Bool.and_comm,
          decide_eq_decide.mpr (show i % 8 < bits % 8 ↔ i < bits by omega)]
      · rw [if_neg hlast, decide_eq_true (by omega), Bool.true_and]
    · rw [if_neg hbyte, decide_eq_false (by omega), Bool.false_and]
      exact BitVec.getLsbD_zero

/-- The prefix of a subtree, the last bit of the path first. -/
def prefixAt : List Bool → Hash
  | [] => emptyHash
  | bit :: path => childPrefix (prefixAt path) path.length bit

theorem getBit_childPrefix {prefixHash : Hash} {bits i : Nat} (hi : i < maxPrefixBits)
    (bit : Bool) :
    getBit (childPrefix prefixHash bits bit) i =
      (decide (i < bits + 1) && if i = bits then bit else getBit prefixHash i) := by
  rw [childPrefix, getBit_clearAfter hi, getBit_setBit hi]

theorem hasPrefix_child {hash prefixHash : Hash} {bits : Nat} (hbits : bits < maxPrefixBits)
    (bit : Bool) :
    hasPrefix hash (childPrefix prefixHash bits bit) (bits + 1) =
      (hasPrefix hash prefixHash bits && getBit hash bits == bit) := by
  unfold hasPrefix
  rw [range_succ, all_append, all_cons, all_nil, Bool.and_true, getBit_childPrefix hbits,
    decide_eq_true (Nat.lt_succ_self bits), Bool.true_and, if_pos rfl]
  congr 1
  rw [Bool.eq_iff_iff, all_eq_true, all_eq_true]
  refine forall₂_congr fun i hi => ?_
  have hlt := mem_range.mp hi
  rw [getBit_childPrefix (by omega), decide_eq_true (by omega), Bool.true_and, if_neg (by omega)]

end

/-!
## The map a Merkle tree holds

The entries stay in strict key order, so a run of puts and removals leaves exactly the
map that the operations describe, whatever the order they came in.
-/
section

open Lib

variable {sha : Bytes → Hash} {l r : List (Entry sha)} {x : Entry sha}

/-- The value hash held under a key. -/
def valueIn (entries : List (Entry sha)) (key : Bytes) : Option Hash :=
  (entries.find? fun entry => entry.key == key).map (·.valueHash)

def MerkleTree.lookup (tree : MerkleTree sha) (key : Bytes) : Option Hash :=
  valueIn tree.entries key

def MerkleTree.Ordered (tree : MerkleTree sha) : Prop := Ascending (·.key) tree.entries

theorem valueIn_none_iff {entries : List (Entry sha)} {key : Bytes} :
    valueIn entries key = none ↔ ∀ e ∈ entries, e.key ≠ key := by
  unfold valueIn
  rw [Option.map_eq_none_iff, List.find?_eq_none]
  simp

theorem valueIn_split (h : Ascending (·.key) (l ++ x :: r)) (key : Bytes) :
    valueIn (l ++ x :: r) key = if x.key = key then some x.valueHash else valueIn (l ++ r) key := by
  obtain ⟨-, -, hbelow⟩ := ascending_append.mp h
  unfold valueIn
  rw [List.find?_append]
  by_cases hkey : x.key = key
  · have hl : l.find? (fun e => e.key == key) = none :=
      List.find?_eq_none.mpr fun e he => by
        have hlt := hbelow e he x List.mem_cons_self
        simpa using (hkey ▸ hlt).ne
    rw [if_pos hkey, hl, List.find?_cons_of_pos (by simpa using hkey)]
    rfl
  · rw [if_neg hkey, List.find?_append, List.find?_cons_of_neg (by simpa using hkey)]

theorem valueIn_gap {key : Bytes} (hl : ∀ y ∈ l, y.key < key) (hr : ∀ y ∈ r, key < y.key) :
    valueIn (l ++ r) key = none :=
  valueIn_none_iff.mpr fun e he => (List.mem_append.mp he).elim (fun h => (hl e h).ne) fun h =>
    (hr e h).ne'

theorem valueIn_some_iff {entries : List (Entry sha)} (h : Ascending (·.key) entries) {key : Bytes}
    {value : Hash} :
    valueIn entries key = some value ↔ ∃ e ∈ entries, e.key = key ∧ e.valueHash = value := by
  constructor
  · intro hfound
    obtain ⟨e, hfind, hvalue⟩ := Option.map_eq_some_iff.mp hfound
    exact ⟨e, List.mem_of_find?_eq_some hfind, by simpa using List.find?_some hfind, hvalue⟩
  · rintro ⟨e, he, rfl, rfl⟩
    obtain ⟨l, r, rfl⟩ := List.append_of_mem he
    rw [valueIn_split h, if_pos rfl]

theorem entries_eq {t u : MerkleTree sha} (ht : t.Ordered) (hu : u.Ordered)
    (h : ∀ key, t.lookup key = u.lookup key) :
    t.entries = u.entries := by
  have hmem : ∀ {t u : MerkleTree sha}, t.Ordered → u.Ordered →
      (∀ key, t.lookup key = u.lookup key) →
      ∀ e ∈ t.entries, e ∈ u.entries := by
    intro t u ht hu h e he
    have hvalue := (h e.key).symm.trans ((valueIn_some_iff ht).mpr ⟨e, he, rfl, rfl⟩)
    obtain ⟨f, hf, hkey, hval⟩ := (valueIn_some_iff hu).mp hvalue
    have hef : e = f := by
      cases e with
      | mk key keyHash valueHash hashed =>
        cases f
        simp_all
    exact hef ▸ hf
  exact ht.ext hu fun e => ⟨hmem ht hu h e, hmem hu ht (fun key => (h key).symm) e⟩

/-- What an operation does to the map. A new key needs memory, a new value does not. -/
def Op.apply (values : Bytes → Option Hash) : Op → Bytes → Option Hash
  | .put key valueHash alloc =>
    if alloc ∨ (values key).isSome then Function.update values key (some valueHash) else values
  | .remove key => Function.update values key none

/-- The map that a run of operations describes. -/
def mapOf (ops : List Op) : Bytes → Option Hash := ops.foldl Op.apply fun _ => none

theorem ascending_replace {y : Entry sha} (h : Ascending (·.key) (l ++ x :: r))
    (hkey : y.key = x.key) :
    Ascending (·.key) (l ++ y :: r) := by
  have hmap : (l ++ y :: r).map (·.key) = (l ++ x :: r).map (·.key) := by
    rw [List.map_append, List.map_append, List.map_cons, List.map_cons, hkey]
  have hpair := List.pairwise_map.mpr h
  exact List.pairwise_map.mp (hmap ▸ hpair)

variable {tree : MerkleTree sha}

theorem put_spec (h : tree.Ordered) (key : Bytes) (value : Hash) (alloc : Bool) :
    (tree.put key value alloc).Ordered ∧
    (tree.put key value alloc).lookup = (Op.put key value alloc).apply tree.lookup := by
  have hfound : Located (·.key) tree.entries key (tree.findKey key) := h.located key
  simp only [MerkleTree.put, Op.apply]
  generalize tree.findKey key = found at hfound
  cases hfound with
  | hit l r x hxs hkey =>
    subst hkey
    unfold MerkleTree.Ordered at h
    rw [hxs] at h
    have hheld : tree.lookup x.key = some x.valueHash := by
      unfold MerkleTree.lookup
      rw [hxs, valueIn_split h, if_pos rfl]
    rw [hheld, if_pos rfl, if_pos (.inr rfl), hxs, modify_split]
    have hnew := ascending_replace (y := { x with valueHash := value }) h rfl
    refine ⟨hnew, funext fun other => ?_⟩
    unfold MerkleTree.lookup
    rw [hxs, valueIn_split hnew]
    by_cases hother : x.key = other
    · subst hother
      rw [if_pos rfl, Function.update_self]
    · rw [if_neg hother, Function.update_of_ne (Ne.symm hother), valueIn_split h, if_neg hother]
  | miss l r hxs hl hr =>
    have hnone : tree.lookup key = none := by
      unfold MerkleTree.lookup
      rw [hxs, valueIn_gap hl hr]
    cases alloc with
    | false =>
      rw [hnone]
      exact ⟨h, rfl⟩
    | true =>
      simp only [Bool.false_eq_true, if_false, if_true, true_or, hxs, insertShift_append]
      have hnew := Ascending.insert (x := (⟨key, sha key, value, rfl⟩ : Entry sha)) (hxs ▸ h) hl hr
      refine ⟨hnew, funext fun other => ?_⟩
      unfold MerkleTree.lookup
      rw [valueIn_split hnew, hxs]
      by_cases hother : key = other
      · subst hother
        rw [if_pos rfl, Function.update_self]
      · rw [if_neg hother, Function.update_of_ne (Ne.symm hother)]

theorem remove_spec (h : tree.Ordered) (key : Bytes) :
    (tree.remove key).2.Ordered ∧ (tree.remove key).2.lookup = (Op.remove key).apply tree.lookup ∧
      (tree.remove key).1 = (tree.lookup key).isSome := by
  have hfound : Located (·.key) tree.entries key (tree.findKey key) := h.located key
  simp only [MerkleTree.remove, Op.apply]
  generalize tree.findKey key = found at hfound
  cases hfound with
  | hit l r x hxs hkey =>
    subst hkey
    unfold MerkleTree.Ordered at h
    rw [hxs] at h
    have hheld : tree.lookup x.key = some x.valueHash := by
      unfold MerkleTree.lookup
      rw [hxs, valueIn_split h, if_pos rfl]
    rw [if_pos rfl, hheld, hxs, removeShift_append]
    have hrest : Ascending (·.key) (l ++ r) :=
      h.sublist ((List.sublist_cons_self x r).append_left l)
    refine ⟨hrest, funext fun other => ?_, rfl⟩
    unfold MerkleTree.lookup
    rw [hxs]
    by_cases hother : x.key = other
    · subst hother
      rw [Function.update_self]
      obtain ⟨-, hr, hbelow⟩ := ascending_append.mp h
      exact valueIn_gap (fun e he => hbelow e he x List.mem_cons_self) (ascending_cons.mp hr).1
    · rw [Function.update_of_ne (Ne.symm hother), valueIn_split h, if_neg hother]
  | miss l r hxs hl hr =>
    have hnone : tree.lookup key = none := by
      unfold MerkleTree.lookup
      rw [hxs, valueIn_gap hl hr]
    refine ⟨h, funext fun other => ?_, ?_⟩
    · by_cases hother : other = key
      · rw [hother, Function.update_self]
        exact hnone
      · rw [Function.update_of_ne hother]
        rfl
    · rw [hnone]
      rfl

theorem step_spec (h : tree.Ordered) (op : Op) :
    (step tree op).Ordered ∧ (step tree op).lookup = op.apply tree.lookup := by
  cases op with
  | put key value alloc => exact put_spec h key value alloc
  | remove key =>
    obtain ⟨hordered, hlookup, -⟩ := remove_spec h key
    exact ⟨hordered, hlookup⟩

theorem steps_spec (h : tree.Ordered) (ops : List Op) :
    (ops.foldl step tree).Ordered ∧
    (ops.foldl step tree).lookup = ops.foldl Op.apply tree.lookup := by
  induction ops generalizing tree with
  | nil => exact ⟨h, rfl⟩
  | cons op ops ih =>
    obtain ⟨hordered, hlookup⟩ := step_spec h op
    rw [List.foldl_cons, List.foldl_cons, ← hlookup]
    exact ih hordered

/-- A run leaves an ordered tree of the map it describes. -/
theorem build_spec (ops : List Op) : (build sha ops).Ordered ∧ (build sha ops).lookup = mapOf ops :=
  steps_spec List.Pairwise.nil ops

end

end OnyxServer.AntiEntropy
