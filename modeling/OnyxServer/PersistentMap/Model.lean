import OnyxServer.Lib.Bitmap
import OnyxServer.Lib.RefCount

/-!
# The persistent map

A hash array-mapped trie of 32-way nodes. Every change copies the path to one key and shares
the rest with the version it was made from; the nodes count their references.
-/
namespace OnyxServer.PersistentMap

open Lib Lib.Bitmap

/-- What a map asks of its keys, as a hash map of the standard library does. -/
structure Context (K : Type) where
  hash : K → BitVec 64
  eql : K → K → Bool
  eql_refl : ∀ a, eql a a
  eql_symm : ∀ {a b}, eql a b → eql b a
  eql_trans : ∀ {a b c}, eql a b → eql b c → eql a c
  hash_eq : ∀ {a b}, eql a b → hash a = hash b

structure Entry (K V : Type) where
  key : K
  value : V

inductive Kind (K V : Type) where
  | internal (bitmap : BitVec 32) (children : List Addr)
  | leaf (entry : Entry K V)
  | collision (entries : List (Entry K V))

def branchBits : Nat := 5
def branchMask : BitVec 64 := 31#64
def maxDepth : Nat := 13

variable {K V : Type}

def Kind.pointers : Kind K V → List Addr
  | .internal _ children => children
  | .leaf _ => []
  | .collision _ => []

def retainNode (node : Addr) : Mem (Kind K V) Unit := Mem.retain node

/-- No node is more than `maxDepth` levels below the root. -/
def releaseNode (node : Addr) : Mem (Kind K V) Unit := Mem.release Kind.pointers (maxDepth + 1) node

def newLeaf (key : K) (value : V) : Mem (Kind K V) Addr := Mem.create (.leaf ⟨key, value⟩)

def newInternal (bitmap : BitVec 32) (children : List Addr) : Mem (Kind K V) Addr :=
  Mem.create (.internal bitmap children)

def newCollision (entries : List (Entry K V)) : Mem (Kind K V) Addr :=
  Mem.create (.collision entries)

def slotOf (hash : BitVec 64) (depth : Nat) : Nat :=
  (hash >>> (depth * branchBits) &&& branchMask).toNat

/-- The shift of `slotOf` is a number of six bits. -/
def checkedSlotOf (hash : BitVec 64) (depth : Nat) : Mem (Kind K V) Nat := do
  Mem.require (depth * branchBits < 2 ^ 6)
  pure (slotOf hash depth)

def childAt (children : List Addr) (idx : Nat) : Mem (Kind K V) Addr :=
  match children[idx]? with
  | some child => pure child
  | none => Mem.fault

/-- The copy of an internal node: `shared` are the children that both versions point to. -/
def copyInternal (bitmap : BitVec 32) (children shared : List Addr) : Mem (Kind K V) Addr := do
  shared.forM retainNode
  (newInternal bitmap children).onError (children.forM releaseNode)

variable (ctx : Context K)

def findEntry (entries : List (Entry K V)) (key : K) : Option Nat :=
  entries.findIdx? fun entry => ctx.eql entry.key key

/-- `levels` is `maxDepth - depth` here and below. -/
def getAt (key : K) (levels : Nat) (getChild : Addr → Mem (Kind K V) (Option V)) (node : Addr) :
    Mem (Kind K V) (Option V) := do
  let cell ← Mem.load node
  match cell.kind with
  | .leaf entry => pure (if ctx.eql entry.key key then some entry.value else none)
  | .collision entries => pure ((entries.find? fun entry => ctx.eql entry.key key).map (·.value))
  | .internal bitmap children => do
    let slot ← checkedSlotOf (ctx.hash key) (maxDepth - levels)
    if slotOccupied bitmap slot then do
      let child ← childAt children (physIndex bitmap slot)
      getChild child
    else pure none

def getNode (key : K) : (levels : Nat) → Addr → Mem (Kind K V) (Option V)
  | 0 => getAt ctx key 0 fun _ => Mem.fault
  | levels + 1 => getAt ctx key (levels + 1) (getNode key levels)

def putIntoCollision (entries : List (Entry K V)) (key : K) (value : V) :
    Mem (Kind K V) (Addr × Bool) := do
  Mem.reserve
  match findEntry ctx entries key with
  | some idx => do
    let node ← newCollision (entries.set idx ⟨key, value⟩)
    pure (node, false)
  | none => do
    let node ← newCollision (entries ++ [⟨key, value⟩])
    pure (node, true)

/-- The node of two keys that differ. -/
def mergeTwo (a b : Entry K V) (ha hb : BitVec 64) : (levels : Nat) → Mem (Kind K V) Addr
  | 0 => do
    Mem.reserve
    newCollision [a, b]
  | levels + 1 =>
    let sa := slotOf ha (maxDepth - (levels + 1))
    let sb := slotOf hb (maxDepth - (levels + 1))
    if sa ≠ sb then do
      let leafA ← newLeaf a.key a.value
      let leafB ← (newLeaf b.key b.value).onError (releaseNode leafA)
      Mem.reserve.onError do
        releaseNode leafB
        releaseNode leafA
      copyInternal (bit 32 sa ||| bit 32 sb) (if sa < sb then [leafA, leafB] else [leafB, leafA]) []
    else do
      let sub ← mergeTwo a b ha hb levels
      Mem.reserve.onError (releaseNode sub)
      copyInternal (bit 32 sa) [sub] []

def putIntoInternal (node : Addr) (bitmap : BitVec 32) (children : List Addr) (slot : Nat) (key : K)
    (value : V)
    (putChild : Addr → Mem (Kind K V) (Addr × Bool)) : Mem (Kind K V) (Addr × Bool) := do
  Mem.require (children.length = popCount bitmap)
  if slotOccupied bitmap slot then do
    let child ← childAt children (physIndex bitmap slot)
    let (newChild, added) ← putChild child
    Mem.reserve.onError (releaseNode newChild)
    -- the children are read from the node again, which has to be there still
    let _ ← Mem.load node
    let copy ← copyInternal bitmap (children.set (physIndex bitmap slot) newChild)
      (children.eraseIdx (physIndex bitmap slot))
    pure (copy, added)
  else do
    let leaf ← newLeaf key value
    Mem.reserve.onError (releaseNode leaf)
    let _ ← Mem.load node
    let copy ← copyInternal (bitmap ||| bit 32 slot)
      (children.take (physIndex bitmap slot) ++ leaf ::
        children.drop (physIndex bitmap slot)) children
    pure (copy, true)

def putAt (key : K) (value : V) (levels : Nat) (putChild : Addr → Mem (Kind K V) (Addr × Bool))
    (node : Addr) :
    Mem (Kind K V) (Addr × Bool) := do
  let cell ← Mem.load node
  match cell.kind with
  | .leaf entry =>
    if ctx.eql entry.key key then do
      let leaf ← newLeaf key value
      pure (leaf, false)
    else do
      let merged ← mergeTwo entry ⟨key, value⟩ (ctx.hash entry.key) (ctx.hash key) levels
      pure (merged, true)
  | .collision entries => putIntoCollision ctx entries key value
  | .internal bitmap children => do
    let slot ← checkedSlotOf (ctx.hash key) (maxDepth - levels)
    putIntoInternal node bitmap children slot key value putChild

def putNode (key : K) (value : V) : (levels : Nat) → Addr → Mem (Kind K V) (Addr × Bool)
  | 0 => putAt ctx key value 0 fun _ => Mem.fault
  | levels + 1 => putAt ctx key value (levels + 1) (putNode key value levels)

/-- `putNode` where there may be no node. -/
def putRoot (root : Option Addr) (key : K) (value : V) : Mem (Kind K V) (Addr × Bool) :=
  match root with
  | some root => putNode ctx key value maxDepth root
  | none => do
    let leaf ← newLeaf key value
    pure (leaf, true)

def removeFromCollision (entries : List (Entry K V)) (key : K) :
    Mem (Kind K V) (Option Addr × Bool) :=
  match findEntry ctx entries key with
  | none => pure (none, false)
  | some idx =>
    if entries.length = 2 then
      match entries[1 - idx]? with
      | some keep => do
        let leaf ← newLeaf keep.key keep.value
        pure (some leaf, true)
      | none => Mem.fault
    else do
      Mem.reserve
      let node ← newCollision (entries.eraseIdx idx)
      pure (some node, true)

def removeFromInternal (node : Addr) (bitmap : BitVec 32) (children : List Addr) (slot : Nat)
    (removeChild : Addr → Mem (Kind K V) (Option Addr × Bool)) :
    Mem (Kind K V) (Option Addr × Bool) := do
  Mem.require (children.length = popCount bitmap)
  if slotOccupied bitmap slot then do
    let child ← childAt children (physIndex bitmap slot)
    match ← removeChild child with
    | (_, false) => pure (none, false)
    | (none, true) =>
      if popCount bitmap = 1 then pure (none, true)
      else do
        Mem.reserve
        let _ ← Mem.load node
        let copy ← copyInternal (bitmap &&& ~~~ bit 32 slot)
          (children.eraseIdx (physIndex bitmap slot))
          (children.eraseIdx (physIndex bitmap slot))
        pure (some copy, true)
    | (some newChild, true) => do
      Mem.reserve.onError (releaseNode newChild)
      let _ ← Mem.load node
      let copy ← copyInternal bitmap (children.set (physIndex bitmap slot) newChild)
        (children.eraseIdx (physIndex bitmap slot))
      pure (some copy, true)
  else pure (none, false)

def removeAt (key : K) (levels : Nat) (removeChild : Addr → Mem (Kind K V) (Option Addr × Bool))
    (node : Addr) :
    Mem (Kind K V) (Option Addr × Bool) := do
  let cell ← Mem.load node
  match cell.kind with
  | .leaf entry => pure (none, ctx.eql entry.key key)
  | .collision entries => removeFromCollision ctx entries key
  | .internal bitmap children => do
    let slot ← checkedSlotOf (ctx.hash key) (maxDepth - levels)
    removeFromInternal node bitmap children slot removeChild

def removeNode (key : K) : (levels : Nat) → Addr → Mem (Kind K V) (Option Addr × Bool)
  | 0 => removeAt ctx key 0 fun _ => Mem.fault
  | levels + 1 => removeAt ctx key (levels + 1) (removeNode key levels)

/-- A version of the map: what `PersistentMap` holds. -/
structure Map where
  root : Option Addr := none
  len : Nat := 0

namespace Map

def empty : Map := {}

def retain (map : Map) : Mem (Kind K V) Unit :=
  match map.root with
  | some root => retainNode root
  | none => pure ()

def release (map : Map) : Mem (Kind K V) Unit :=
  match map.root with
  | some root => releaseNode root
  | none => pure ()

def get (map : Map) (key : K) : Mem (Kind K V) (Option V) :=
  match map.root with
  | some root => getNode ctx key maxDepth root
  | none => pure none

/-- No function of the source: whether `get` finds a value. -/
def contains (map : Map) (key : K) : Mem (Kind K V) Bool := do
  let value ← map.get ctx key
  pure value.isSome

def count (map : Map) : Nat := map.len

def put (map : Map) (key : K) (value : V) : Mem (Kind K V) Map := do
  let (root, added) ← putRoot ctx map.root key value
  pure ⟨some root, if added then map.len + 1 else map.len⟩

def remove (map : Map) (key : K) : Mem (Kind K V) Map :=
  match map.root with
  | none => pure {}
  | some root => do
    match ← removeNode ctx key maxDepth root with
    | (_, false) => do
      retainNode root
      pure ⟨some root, map.len⟩
    | (newRoot, true) => do
      Mem.require (0 < map.len)
      pure ⟨newRoot, map.len - 1⟩

end Map

structure Frame where
  node : Addr
  idx : Nat

/-- The stack of an iterator, the top frame first. -/
abbrev Iterator := List Frame

namespace Iterator

def capacity : Nat := maxDepth + 2

def nextLoop : Nat → Iterator → Mem (Kind K V) (Option (Entry K V) × Iterator)
  | 0, _ => Mem.fault
  | _ + 1, [] => pure (none, [])
  | rounds + 1, top :: rest => do
    let cell ← Mem.load top.node
    match cell.kind with
    | .leaf entry => pure (some entry, rest)
    | .collision entries =>
      match entries[top.idx]? with
      | some entry => pure (some entry, ⟨top.node, top.idx + 1⟩ :: rest)
      | none => nextLoop rounds rest
    | .internal _ children =>
      match children[top.idx]? with
      | some child => do
        Mem.require ((top :: rest).length < capacity)
        nextLoop rounds (⟨child, 0⟩ :: ⟨top.node, top.idx + 1⟩ :: rest)
      | none => nextLoop rounds rest

/-- The loop of `next` pops frames that are done and goes down to the next entry, which takes
it no more than two rounds for a frame. -/
def next (it : Iterator) : Mem (Kind K V) (Option (Entry K V) × Iterator) :=
  nextLoop (2 * capacity) it

end Iterator

def Map.iterator (map : Map) : Iterator :=
  match map.root with
  | some root => [⟨root, 0⟩]
  | none => []

end OnyxServer.PersistentMap
