import OnyxServer.Lib.Search

/-!
# The anti-entropy Merkle tree

Entries are one flat array in key order. The hash of a subtree is computed from the
entries whose key hash has its prefix, and the difference of two trees descends where
the hashes differ. SHA-256 is the parameter `sha`.

The recursions count down the bits `left` after the prefix of a subtree. When an
allocation fails the difference returns no result, so only a walk that ends is modelled.
-/
namespace OnyxServer.AntiEntropy

open Lib

abbrev Hash := FixedBytes 32

def emptyHash : Hash := FixedBytes.splat 32 0
def maxPrefixBits : Nat := 256
def leafSplitLimit : Nat := 1

variable {sha : Bytes → Hash}

structure Entry (sha : Bytes → Hash) where
  key : Bytes
  keyHash : Hash
  valueHash : Hash
  hashed : keyHash = sha key

structure MerkleTree (sha : Bytes → Hash) where
  entries : List (Entry sha)

def MerkleTree.init : MerkleTree sha := ⟨[]⟩

def MerkleTree.findKey (tree : MerkleTree sha) (key : Bytes) : FindResult :=
  searchBy (·.key) tree.entries key

/-- `alloc` is whether the key's copy and its slot can be allocated. -/
def MerkleTree.put (tree : MerkleTree sha) (key : Bytes) (valueHash : Hash) (alloc : Bool) :
    MerkleTree sha :=
  let found := tree.findKey key
  if found.present then
    ⟨tree.entries.modify found.index fun entry => { entry with valueHash := valueHash }⟩
  else if alloc then
    ⟨insertShift tree.entries found.index ⟨key, sha key, valueHash, rfl⟩⟩
  else tree

def MerkleTree.remove (tree : MerkleTree sha) (key : Bytes) : Bool × MerkleTree sha :=
  let found := tree.findKey key
  if found.present then (true, ⟨removeShift tree.entries found.index⟩) else (false, tree)

def getBit (bytes : Hash) (bitIndex : Nat) : Bool :=
  (bytes.val.getD (bitIndex / 8) 0).toNat.testBit (7 - bitIndex % 8)

def setBit (bytes : Hash) (bitIndex : Nat) (bit : Bool) : Hash :=
  let mask : UInt8 := ⟨1#8 <<< (7 - bitIndex % 8)⟩
  ⟨bytes.val.modify (bitIndex / 8) fun byte => if bit then byte ||| mask else byte &&& ~~~mask, by
    rw [List.length_modify, bytes.property]⟩

/-- `@memset(bytes[start..], 0)` -/
def clearFrom (bytes : Hash) (start : Nat) : Hash :=
  ⟨bytes.val.take start ++ List.replicate (32 - start) 0, by
    have h := bytes.property
    rw [List.length_append, List.length_take, List.length_replicate]
    omega⟩

def clearAfter (bytes : Hash) (bits : Nat) : Hash :=
  if bits ≥ maxPrefixBits then bytes
  else if bits % 8 = 0 then clearFrom bytes (bits / 8)
  else
    let keepMask : UInt8 := ⟨0xff#8 <<< (8 - bits % 8)⟩
    clearFrom ⟨bytes.val.modify (bits / 8) (· &&& keepMask), by
      rw [List.length_modify, bytes.property]⟩
      (bits / 8 + 1)

def childPrefix (prefixHash : Hash) (bits : Nat) (bit : Bool) : Hash :=
  clearAfter (setBit prefixHash bits bit) (bits + 1)

def hasPrefix (hash prefixHash : Hash) (bits : Nat) : Bool :=
  (List.range bits).all fun i => getBit hash i == getBit prefixHash i

def emptyTag : Bytes := "onyx_server.suimyaku.merkle.empty.v1".toUTF8.toList
def leafTag : Bytes := "onyx_server.suimyaku.merkle.leaf.v1".toUTF8.toList
def nodeTag : Bytes := "onyx_server.suimyaku.merkle.node.v1".toUTF8.toList
def bucketTag : Bytes := "onyx_server.suimyaku.merkle.bucket.v1".toUTF8.toList

def emptyMessage (prefixHash : Hash) (bits : Nat) : Bytes :=
  emptyTag ++ beBytes 2 bits ++ prefixHash.val

def leafMessage (entry : Entry sha) : Bytes :=
  leafTag ++ beBytes 8 entry.key.length ++ entry.key ++ entry.valueHash.val

def nodeMessage (prefixHash : Hash) (bits : Nat) (left right : Hash) : Bytes :=
  nodeTag ++ beBytes 2 bits ++ prefixHash.val ++ left.val ++ right.val

def bucketMessage (prefixHash : Hash) (bits count : Nat) (leaves : List Hash) : Bytes :=
  bucketTag ++ beBytes 2 bits ++ beBytes 8 count ++ prefixHash.val ++ leaves.flatMap (·.val)

/-- Counts the entries with the prefix, stopping at the second, and keeps the last one seen. -/
def scanPrefix (prefixHash : Hash) (bits : Nat) :
    List (Entry sha) → Nat → Option (Entry sha) → Nat × Option (Entry sha)
  | [], matching, only => (matching, only)
  | entry :: rest, matching, only =>
    if hasPrefix entry.keyHash prefixHash bits then
      if matching + 1 > 1 then (matching + 1, some entry)
      else scanPrefix prefixHash bits rest (matching + 1) (some entry)
    else scanPrefix prefixHash bits rest matching only

variable (sha) in
def hashEmpty (prefixHash : Hash) (bits : Nat) : Hash := sha (emptyMessage prefixHash bits)

def hashLeaf (entry : Entry sha) : Hash := sha (leafMessage entry)

variable (sha) in
def hashNode (prefixHash : Hash) (bits : Nat) (left right : Hash) : Hash :=
  sha (nodeMessage prefixHash bits left right)

def hashBucket (entries : List (Entry sha)) (prefixHash : Hash) (bits count : Nat) : Hash :=
  sha (bucketMessage prefixHash bits count
    ((entries.filter fun entry => hasPrefix entry.keyHash prefixHash bits).map hashLeaf))

def hashRange (entries : List (Entry sha)) : Nat → Hash → Hash
  | left, prefixHash =>
    let bits := maxPrefixBits - left
    match scanPrefix prefixHash bits entries 0 none with
    | (0, _) => hashEmpty sha prefixHash bits
    | (1, some only) => hashLeaf only
    | (matching, _) =>
      match left with
      | 0 => hashBucket entries prefixHash bits matching
      | left + 1 =>
        hashNode sha prefixHash bits (hashRange entries left (childPrefix prefixHash bits false))
          (hashRange entries left (childPrefix prefixHash bits true))

def MerkleTree.subtreeHash (tree : MerkleTree sha) (prefixHash : Hash) (left : Nat) : Hash :=
  hashRange tree.entries left prefixHash

def MerkleTree.root (tree : MerkleTree sha) : Hash := tree.subtreeHash emptyHash maxPrefixBits

def MerkleTree.keysInPrefix (tree : MerkleTree sha) (prefixHash : Hash) (bits : Nat) : List Bytes :=
  (tree.entries.filter fun entry => hasPrefix entry.keyHash prefixHash bits).map (·.key)

def diffPrefix (localTree remoteTree : MerkleTree sha) : Nat → Hash → List Bytes → List Bytes
  | left, prefixHash, out =>
    let bits := maxPrefixBits - left
    if localTree.subtreeHash prefixHash left = remoteTree.subtreeHash prefixHash left then out
    else
      let remoteKeys := remoteTree.keysInPrefix prefixHash bits
      if remoteKeys.length ≤ leafSplitLimit then out ++ remoteKeys
      else
        match left with
        | 0 => out ++ remoteKeys
        | left + 1 =>
          diffPrefix localTree remoteTree left (childPrefix prefixHash bits true)
            (diffPrefix localTree remoteTree left (childPrefix prefixHash bits false) out)

/-- The remote keys to pull, in key order. -/
def diffTrees (localTree remoteTree : MerkleTree sha) : List Bytes :=
  sortByKey id (diffPrefix localTree remoteTree maxPrefixBits emptyHash [])

structure SummaryEntry where
  key : Bytes
  hash : Hash

structure Summary (sha : Bytes → Hash) where
  tree : MerkleTree sha
  entries : List SummaryEntry

def Summary.init : Summary sha := ⟨MerkleTree.init, []⟩

def Summary.hashFor (summary : Summary sha) (key : Bytes) : Option Hash :=
  (summary.entries.find? fun entry => entry.key == key).map (·.hash)

/-- A failed allocation gives the whole summary up, so only completed calls are modelled. -/
def putDigest (summary : Summary sha) (key : Bytes) (hash : Hash) : Summary sha :=
  ⟨summary.tree.put key hash true, summary.entries ++ [⟨key, hash⟩]⟩

inductive RepairError where
  | invalidRepairKey
  deriving DecidableEq

/-- The loop of `diff` over the keys of `diffTrees`. -/
def repairRanges (localSide remoteSide : Summary sha) : List Bytes → Except RepairError (List Bytes)
  | [] => .ok []
  | key :: keys =>
    match remoteSide.hashFor key with
    | none => .error .invalidRepairKey
    | some remoteHash =>
      if localSide.hashFor key = some remoteHash then repairRanges localSide remoteSide keys
      else (key :: ·) <$> repairRanges localSide remoteSide keys

def repairDiff (localSide remoteSide : Summary sha) : Except RepairError (List Bytes) :=
  repairRanges localSide remoteSide (diffTrees localSide.tree remoteSide.tree)

inductive Op where
  | put (key : Bytes) (valueHash : Hash) (alloc : Bool)
  | remove (key : Bytes)

def step (tree : MerkleTree sha) : Op → MerkleTree sha
  | .put key valueHash alloc => tree.put key valueHash alloc
  | .remove key => (tree.remove key).2

variable (sha) in
def build (ops : List Op) : MerkleTree sha := ops.foldl step MerkleTree.init

end OnyxServer.AntiEntropy
