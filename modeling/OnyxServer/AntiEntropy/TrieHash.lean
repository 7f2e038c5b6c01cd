import OnyxServer.AntiEntropy.Keyspace
import OnyxServer.Lib.MerkleTrie
import Mathlib.Data.Set.Function

/-!
# The tree's hashes are those of a hash trie

The flat array hashed prefix by prefix is a trie over its entries, split by the bits of
the key hashes. A message determines what it was made for: its tag gives the kind, and
its length the length of the only part that varies.
-/
namespace OnyxServer.AntiEntropy

open Lib List
open MerkleTrie (Content Input)

variable {sha : Bytes → Hash}

def entryBit (entry : Entry sha) (i : Nat) : Bool := getBit entry.keyHash i

/-- The bytes hashed for a trie input. Two entries of a bucket are counted, never more. -/
def message : Input (Entry sha) Hash → Bytes
  | (path, .empty) => emptyMessage (prefixAt path) path.length
  | (_, .leaf entry) => leafMessage entry
  | (path, .node left right) => nodeMessage (prefixAt path) path.length left right
  | (path, .bucket leaves) => bucketMessage (prefixAt path) path.length 2 leaves

def digest (input : Input (Entry sha) Hash) : Hash := sha (message input)

/-- The entries below a path. -/
def under (path : List Bool) (entries : List (Entry sha)) : List (Entry sha) :=
  entries.filter fun entry => hasPrefix entry.keyHash (prefixAt path) path.length

theorem under_root (entries : List (Entry sha)) : under [] entries = entries :=
  filter_eq_self.mpr fun _ _ => rfl

theorem branch_under {path : List Bool} (h : path.length < maxPrefixBits) (side : Bool)
    (entries : List (Entry sha)) :
    MerkleTrie.branch entryBit path side (under path entries) = under (side :: path) entries := by
  unfold MerkleTrie.branch under
  rw [filter_filter]
  refine filter_congr fun entry _ => ?_
  rw [prefixAt, length_cons, hasPrefix_child h, Bool.and_comm]
  rfl

theorem scanPrefix_spec (prefixHash : Hash) (bits : Nat) (entries : List (Entry sha)) :
    scanPrefix prefixHash bits entries 0 none =
      match entries.filter fun entry => hasPrefix entry.keyHash prefixHash bits with
      | [] => (0, none)
      | [a] => (1, some a)
      | _ :: b :: _ => (2, some b) := by
  have hone : ∀ (a : Entry sha) (entries : List (Entry sha)),
      scanPrefix prefixHash bits entries 1 (some a) =
        match entries.filter fun entry => hasPrefix entry.keyHash prefixHash bits with
        | [] => (1, some a)
        | b :: _ => (2, some b) := by
    intro a entries
    induction entries with
    | nil => rfl
    | cons entry rest ih =>
      rw [scanPrefix, filter_cons]
      by_cases hentry : hasPrefix entry.keyHash prefixHash bits = true
      · rw [if_pos hentry, if_pos hentry]
        rfl
      · rw [if_neg hentry, if_neg hentry, ih]
  induction entries with
  | nil => rfl
  | cons entry rest ih =>
    rw [scanPrefix, filter_cons]
    by_cases hentry : hasPrefix entry.keyHash prefixHash bits = true
    · rw [if_pos hentry, if_pos hentry, if_neg (by omega), hone]
      cases rest.filter fun entry => hasPrefix entry.keyHash prefixHash bits <;> rfl
    · rw [if_neg hentry, if_neg hentry, ih]

theorem hashRange_eq (entries : List (Entry sha)) (left : Nat) (path : List Bool)
    (hleft : path.length + left = maxPrefixBits) :
    hashRange entries left (prefixAt path) =
      MerkleTrie.hash digest entryBit left path (under path entries) := by
  have hbits : maxPrefixBits - left = path.length := by omega
  have hscan := scanPrefix_spec (prefixAt path) path.length entries
  induction left generalizing path with
  | zero =>
    unfold hashRange MerkleTrie.hash MerkleTrie.content
    simp only [hbits, hscan]
    unfold hashBucket under
    generalize (entries.filter fun entry => hasPrefix entry.keyHash (prefixAt path) path.length) =
      xs
    match xs with
    | [] => rfl
    | [a] => rfl
    | a :: b :: rest => rfl
  | succ left ih =>
    have hchild : ∀ side, hashRange entries left (childPrefix (prefixAt path) path.length side) =
        MerkleTrie.hash digest entryBit left (side :: path)
          (MerkleTrie.branch entryBit path side (under path entries)) := by
      intro side
      have hlen : (side :: path).length + left = maxPrefixBits := by
        rw [length_cons]
        omega
      rw [branch_under (by omega)]
      exact ih (side :: path) hlen (by omega) (scanPrefix_spec _ _ _)
    unfold hashRange MerkleTrie.hash MerkleTrie.content
    simp only [hbits, hscan, hchild]
    unfold under
    generalize (entries.filter fun entry => hasPrefix entry.keyHash (prefixAt path) path.length) =
      xs
    match xs with
    | [] => rfl
    | [a] => rfl
    | a :: b :: rest => rfl

theorem root_eq (tree : MerkleTree sha) :
    tree.root = MerkleTrie.hash digest entryBit maxPrefixBits [] tree.entries :=
  (hashRange_eq tree.entries maxPrefixBits [] rfl).trans (by rw [under_root])

/-- The walk lists the keys of the trie's difference. -/
theorem diffPrefix_eq (t u : MerkleTree sha) (left : Nat) (path : List Bool) (out : List Bytes)
    (hleft : path.length + left = maxPrefixBits) :
    diffPrefix t u left (prefixAt path) out =
      out ++
        (MerkleTrie.diff digest entryBit left path (under path t.entries)
          (under path u.entries)).map (·.key) := by
  have hbits : maxPrefixBits - left = path.length := by omega
  have hhash : ∀ tree : MerkleTree sha, tree.subtreeHash (prefixAt path) left =
      MerkleTrie.hash digest entryBit left path (under path tree.entries) :=
    fun tree => hashRange_eq tree.entries left path hleft
  have hkeys : u.keysInPrefix (prefixAt path) path.length = (under path u.entries).map (·.key) :=
    rfl
  induction left generalizing path out with
  | zero =>
    unfold diffPrefix MerkleTrie.diff
    simp only [hbits, hhash, hkeys, length_map, leafSplitLimit, ite_self]
    split
    · rw [map_nil, append_nil]
    · rfl
  | succ left ih =>
    have hchild :
        ∀ side out, diffPrefix t u left (childPrefix (prefixAt path) path.length side) out =
        out ++ (MerkleTrie.diff digest entryBit left (side :: path)
          (MerkleTrie.branch entryBit path side (under path t.entries))
          (MerkleTrie.branch entryBit path side (under path u.entries))).map (·.key) := by
      intro side out
      have hlen : (side :: path).length + left = maxPrefixBits := by
        rw [length_cons]
        omega
      rw [branch_under (by omega), branch_under (by omega)]
      exact ih (side :: path) out hlen (by omega)
        (fun tree => hashRange_eq tree.entries left (side :: path) hlen) rfl
    unfold diffPrefix MerkleTrie.diff
    simp only [hbits, hhash, hkeys, length_map, hchild, leafSplitLimit]
    split
    · rw [map_nil, append_nil]
    · split
      · rfl
      · rw [map_append, append_assoc]

/-- The octet after `onyx_server.suimyaku.merkle.` tells the kind. -/
def kindOctet : Content (Entry sha) Hash → UInt8
  | .empty => 0x65
  | .leaf _ => 0x6c
  | .node _ _ => 0x6e
  | .bucket _ => 0x62

theorem tagged {tag : Bytes} {kind : UInt8} (h : tag[28]? = some kind) (rest : Bytes) :
    (tag ++ rest)[28]? = some kind := by
  rw [List.getElem?_append_left (List.getElem?_eq_some_iff.mp h).1]
  exact h

theorem message_kind (input : Input (Entry sha) Hash) :
    (message input)[28]? = some (kindOctet input.2) := by
  obtain ⟨path, content⟩ := input
  cases content with
  | empty =>
    simp only [message, emptyMessage, append_assoc]
    have htag : emptyTag[28]? = some 0x65 := by decide +kernel
    exact tagged htag _
  | leaf entry =>
    simp only [message, leafMessage, append_assoc]
    have htag : leafTag[28]? = some 0x6c := by decide +kernel
    exact tagged htag _
  | node left right =>
    simp only [message, nodeMessage, append_assoc]
    have htag : nodeTag[28]? = some 0x6e := by decide +kernel
    exact tagged htag _
  | bucket leaves =>
    simp only [message, bucketMessage, append_assoc]
    have htag : bucketTag[28]? = some 0x62 := by decide +kernel
    exact tagged htag _

theorem Entry.ext_of {a b : Entry sha} (hkey : a.key = b.key) (hvalue : a.valueHash = b.valueHash) :
    a = b := by
  cases a with
  | mk key keyHash valueHash hashed =>
    cases b
    simp_all

theorem leafMessage_inj {a b : Entry sha} (h : leafMessage a = leafMessage b) : a = b := by
  have hlen : a.key.length = b.key.length := by
    have hlen := congrArg List.length h
    simp only [leafMessage, length_append, beBytes_length, a.valueHash.property,
      b.valueHash.property] at hlen
    omega
  unfold leafMessage at h
  rw [append_assoc, append_assoc, append_assoc, append_assoc, hlen] at h
  obtain ⟨hkey, hvalue⟩ := append_inj (append_cancel_left (append_cancel_left h)) hlen
  exact Entry.ext_of hkey (Subtype.ext hvalue)

theorem hashes_inj : ∀ {xs ys : List Hash}, xs.flatMap (·.val) = ys.flatMap (·.val) → xs = ys
  | [], [], _ => rfl
  | [], y :: ys, h => by
    have hlen := congrArg List.length h
    simp only [flatMap_nil, flatMap_cons, length_append, y.property, length_nil] at hlen
    omega
  | x :: xs, [], h => by
    have hlen := congrArg List.length h
    simp only [flatMap_nil, flatMap_cons, length_append, x.property, length_nil] at hlen
    omega
  | x :: xs, y :: ys, h => by
    rw [flatMap_cons, flatMap_cons] at h
    obtain ⟨hx, hrest⟩ := append_inj h (x.property.trans y.property.symm)
    rw [Subtype.ext hx, hashes_inj hrest]

/-- A message determines the content it was made for. -/
theorem message_inj {i j : Input (Entry sha) Hash} (h : message i = message j) : i.2 = j.2 := by
  have hkind := (message_kind i).symm.trans ((congrArg (·[28]?) h).trans (message_kind j))
  injection hkind with hkind
  obtain ⟨p, c⟩ := i
  obtain ⟨q, d⟩ := j
  cases c with
  | empty =>
    cases d with
    | empty => rfl
    | _ => simp [kindOctet] at hkind
  | leaf a =>
    cases d with
    | leaf b => exact congrArg Content.leaf (leafMessage_inj h)
    | _ => simp [kindOctet] at hkind
  | node l r =>
    cases d with
    | node l' r' =>
      simp only [message, nodeMessage] at h
      obtain ⟨h, hr⟩ := append_inj' h (r.property.trans r'.property.symm)
      obtain ⟨-, hl⟩ := append_inj' h (l.property.trans l'.property.symm)
      rw [Subtype.ext hl, Subtype.ext hr]
    | _ => simp [kindOctet] at hkind
  | bucket ds =>
    cases d with
    | bucket es =>
      simp only [message, bucketMessage, append_assoc] at h
      have h₁ := append_cancel_left h
      obtain ⟨-, h₂⟩ := append_inj h₁ (by rw [beBytes_length, beBytes_length])
      obtain ⟨-, h₃⟩ := append_inj (append_cancel_left h₂)
        ((prefixAt p).property.trans (prefixAt q).property.symm)
      exact congrArg Content.bucket (hashes_inj h₃)
    | _ => simp [kindOctet] at hkind

/-- Where SHA-256 has no collision among the messages, digests tell contents apart. -/
theorem digest_binding {is : List (Input (Entry sha) Hash)}
    (h : Set.InjOn sha {m | m ∈ is.map message}) : MerkleTrie.Binding digest is :=
  fun _ hi _ hj heq => message_inj (h (mem_map_of_mem hi) (mem_map_of_mem hj) heq)

end OnyxServer.AntiEntropy
