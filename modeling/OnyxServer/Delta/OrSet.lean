import OnyxServer.Delta.View
import OnyxServer.Lib.Keyed

/-!
# The observed-remove set

An add makes a fresh dot for its value, a remove forgets the dots of its value, and the
context keeps every dot ever seen. The context is a hash set: its list stands in the order
of an iteration, which no operation relies on.

Operations that fail for memory answer nothing, and a replica whose counter is exhausted
stops at the overflow.
-/
namespace OnyxServer.Delta

section

open Lib

variable {T : Type} [DecidableEq T]

def observe (cc : List Dot) (dot : Dot) : List Dot := if dot ∈ cc then cc else cc ++ [dot]

def mergeContext (cc other : List Dot) : List Dot := other.foldl observe cc

def maxCounter (replica : UInt64) (cc : List Dot) : UInt64 :=
  cc.foldl (fun best dot => if dot.replica = replica ∧
    best < dot.counter then dot.counter else best) 0

def nextDot (cc : List Dot) (replica : UInt64) : Option (Dot × List Dot) :=
  if (maxCounter replica cc).toNat + 1 < 2 ^ 64 then
    let dot : Dot := ⟨replica, maxCounter replica cc + 1⟩
    some (dot, observe cc dot)
  else none

def contextEql (a b : List Dot) : Bool := a.length == b.length && a.all fun dot => decide (dot ∈ b)

structure Entry (T : Type) where
  value : T
  dots : List Dot
  deriving DecidableEq

structure OrSet (T : Type) where
  replicaId : UInt64
  entries : List (Entry T)
  cc : List Dot
  deriving DecidableEq

def OrSet.init (replicaId : UInt64) : OrSet T := ⟨replicaId, [], []⟩

def findEntryIndex (entries : List (Entry T)) (value : T) : Option Nat :=
  entries.findIdx? fun entry => decide (entry.value = value)

def addDot (entries : List (Entry T)) (value : T) (dot : Dot) : List (Entry T) :=
  match findEntryIndex entries value with
  | some idx =>
    entries.modify idx fun entry => if dot ∈ entry.dots then entry
      else { entry with dots := entry.dots ++ [dot] }
  | none => entries ++ [⟨value, [dot]⟩]

/-- The delta, and the set after. -/
def OrSet.add (self : OrSet T) (value : T) : Option (OrSet T × OrSet T) :=
  match nextDot self.cc self.replicaId with
  | none => none
  | some (dot, cc) =>
    some (⟨self.replicaId, addDot [] value dot, observe [] dot⟩,
      ⟨self.replicaId, addDot self.entries value dot, cc⟩)

/-- The delta, and the set after. -/
def OrSet.remove (self : OrSet T) (value : T) : OrSet T × OrSet T :=
  match findEntryIndex self.entries value with
  | none => (OrSet.init self.replicaId, self)
  | some idx =>
    let dots := match self.entries[idx]? with
      | some removed => removed.dots
      | none => []
    (⟨self.replicaId, [], mergeContext [] dots⟩,
      ⟨self.replicaId, swapRemove self.entries idx, mergeContext self.cc dots⟩)

def OrSet.contains (self : OrSet T) (value : T) : Bool :=
  match findEntryIndex self.entries value with
  | none => false
  | some idx => self.entries[idx]?.any fun entry => entry.dots.length != 0

def OrSet.hasLiveDot (self : OrSet T) (dot : Dot) : Bool :=
  self.entries.any fun entry => decide (dot ∈ entry.dots)

/-- A dot that the delta has seen and does not hold live. -/
def OrSet.forgets (delta : OrSet T) (dot : Dot) : Bool :=
  decide (dot ∈ delta.cc) && !delta.hasLiveDot dot

/-- Drops the dots that the delta forgets, and the entries that have none left. -/
def removeDotsLoop (delta : OrSet T) : Nat → Nat → List (Entry T) → List (Entry T)
  | 0, _, entries => entries
  | fuel + 1, idx, entries =>
    match entries[idx]? with
    | none => entries
    | some entry =>
      let dots := swapSweep delta.forgets entry.dots.length 0 entry.dots
      if dots.length = 0 then removeDotsLoop delta fuel idx (swapRemove entries idx)
      else removeDotsLoop delta fuel (idx + 1) (entries.set idx { entry with dots := dots })

def removeDotsDominatedBy (entries : List (Entry T)) (delta : OrSet T) : List (Entry T) :=
  removeDotsLoop delta entries.length 0 entries

def applyAddsNotDominated (cc : List Dot) (entries : List (Entry T)) (delta : OrSet T) :
    List (Entry T) :=
  delta.entries.foldl (fun entries entry => entry.dots.foldl
    (fun entries dot => if dot ∈ cc then entries else addDot entries entry.value dot) entries)
    entries

def OrSet.mergeDelta (self delta : OrSet T) : OrSet T :=
  ⟨self.replicaId, applyAddsNotDominated self.cc (removeDotsDominatedBy self.entries delta) delta,
    mergeContext self.cc delta.cc⟩

def dotListsEql (a b : List Dot) : Bool := a.length == b.length && a.all fun dot => decide (dot ∈ b)

def OrSet.eql (a b : OrSet T) : Bool :=
  contextEql a.cc b.cc && a.entries.length == b.entries.length &&
    a.entries.all fun entry =>
      match findEntryIndex b.entries entry.value with
      | none => false
      | some idx =>
        match b.entries[idx]? with
        | none => false
        | some other => dotListsEql entry.dots other.dots

/-- Sets left by adds, removes and merges of any replicas, and the deltas these make. A
context may come to be iterated in another order. -/
inductive Reachable : OrSet T → Prop where
  | init (replicaId : UInt64) : Reachable (OrSet.init replicaId)
  | add {self delta after : OrSet T} (value : T) (h : Reachable self)
      (hadd : self.add value = some (delta, after)) :
    Reachable after
  | addDelta {self delta after : OrSet T} (value : T) (h : Reachable self)
    (hadd : self.add value = some (delta, after)) : Reachable delta
  | remove {self : OrSet T} (value : T) (h : Reachable self) : Reachable (self.remove value).2
  | removeDelta {self : OrSet T} (value : T) (h : Reachable self) : Reachable (self.remove value).1
  | mergeDelta {self delta : OrSet T} (h : Reachable self) (hdelta : Reachable delta) :
    Reachable (self.mergeDelta delta)
  | rehash {self : OrSet T} {cc : List Dot} (h : Reachable self) (hperm : cc.Perm self.cc) :
    Reachable { self with cc := cc }

end

/-!
## The codec of observed-remove sets

The encoder walks the unordered arrays of a set: the next dot or the next entry to write
is the least one above the last. Values go through a codec of their own. The decoder
builds a set of what a view says.
-/
section

open Lib

variable {T : Type}

/-- The codec of a value; `encode` is given the room that it has. -/
structure ValueCodec (T : Type) where
  encode : Nat → T → Except CodecError Bytes
  decode : Bytes → Except CodecError T

/-- A value is decoded from what it was encoded to. -/
def ValueCodec.RoundTrips (codec : ValueCodec T) : Prop :=
  ∀ room value bytes, codec.encode room value = .ok bytes → codec.decode bytes = .ok value

def u64ValueCodec : ValueCodec UInt64 where
  encode room value := if room < 8 then .error .valueTooLarge else .ok (leBytes 8 value.toNat)
  decode input := if input.length ≠ 8 then .error (.value "InvalidValue")
    else .ok (UInt64.ofNat (leNat input))

/-- The least of the considered dots above `after`. -/
def nextDotAfter (considered : Dot → Bool) (after : Option Dot) (dots : List Dot) : Option Dot :=
  dots.foldl (fun best dot =>
    if considered dot = false then best
    else if after.any fun prev => compareDots prev dot != .lt then best
    else if best.all fun b => compareDots dot b == .lt then some dot
    else best) none

def deltaHasLiveDot (delta : OrSet T) (dot : Dot) : Bool :=
  delta.entries.any fun entry => dotsContain entry.dots dot

def nextSliceDot (dots : List Dot) (after : Option Dot) : Option Dot :=
  nextDotAfter (fun _ => true) after dots

def nextContextDot (delta : OrSet T) (after : Option Dot) : Option Dot :=
  nextDotAfter (fun _ => true) after delta.cc

def nextRemovedDot (delta : OrSet T) (after : Option Dot) : Option Dot :=
  nextDotAfter (fun dot => !deltaHasLiveDot delta dot) after delta.cc

def countRemovedDots (delta : OrSet T) : Nat :=
  delta.cc.countP fun dot => !deltaHasLiveDot delta dot

variable (limits : Limits) (codec : ValueCodec T)

def encodeValue (value : T) : Except CodecError Bytes := do
  let encoded ← codec.encode limits.maxValueBytes.toNat value
  ensure (encoded.length ≤ limits.maxValueBytes.toNat) .valueTooLarge
  pure encoded

def nextEntryLoop (after : Option Bytes) :
    List (Entry T) → Nat → Option (Nat × Bytes) → Except CodecError (Option (Nat × Bytes))
  | [], _, best => .ok best
  | entry :: rest, idx, best => do
    let encoded ← encodeValue limits codec entry.value
    if after.any fun prev => decide (¬ prev < encoded) then nextEntryLoop after rest (idx + 1) best
    else if best.all fun b => decide (encoded < b.2) then
      nextEntryLoop after rest (idx + 1) (some (idx, encoded))
    else nextEntryLoop after rest (idx + 1) best

/-- The entry of the least value above the last one. -/
def nextEntryIndex (delta : OrSet T) (after : Option Bytes) : Except CodecError Nat := do
  match ← nextEntryLoop limits codec after delta.entries 0 none with
  | none => throw .nonCanonicalOrder
  | some (idx, _) => pure idx

variable (capacity : Nat)

/-- Writes `count` dots, each the next one after the last. -/
def writeNextDots (next : Option Dot → Option Dot) (allowed : Dot → Except CodecError Unit) :
    Nat → Option Dot → Out
  | 0, _ => pure ()
  | count + 1, after =>
    match next after with
    | none => throw .invalidDelta
    | some dot => do
      liftM (allowed dot)
      writeDot capacity dot
      writeNextDots next allowed count (some dot)

def writeEntries (delta : OrSet T) : Nat → Option Bytes → Out
  | 0, _ => pure ()
  | count + 1, after => do
    let idx ← liftM (nextEntryIndex limits codec delta after)
    match delta.entries[idx]? with
    | none => throw .invalidDelta
    | some entry => do
      let valueBytes ← liftM (encodeValue limits codec entry.value)
      liftM
        (ensure (¬ (entry.dots.length = 0 ∨ limits.maxDotsPerAdd.toNat < entry.dots.length))
          .invalidDelta)
      liftM (ensure (entry.dots.length ≤ limits.maxAddDots.toNat) .oversize)
      emit capacity (bytesField valueBytes)
      emit capacity (countField entry.dots.length)
      writeNextDots capacity (nextSliceDot entry.dots)
        (fun dot => ensure (dot ∈ delta.cc) .dotOutsideCausalContext)
        entry.dots.length none
      writeEntries delta count (some valueBytes)

def writeOrSet (family : EntityFamily) (entityId : Bytes) (hlc : Hlc) (delta : OrSet T) : Out := do
  writeHeader capacity family entityId hlc
  emit capacity (countField delta.cc.length)
  writeNextDots capacity (nextContextDot delta) (fun _ => .ok ()) delta.cc.length none
  emit capacity (countField delta.entries.length)
  writeEntries limits codec capacity delta delta.entries.length none
  liftM (ensure (countRemovedDots delta ≤ limits.maxRemoveDots.toNat) .oversize)
  emit capacity (countField (countRemovedDots delta))
  writeNextDots capacity (nextRemovedDot delta) (fun _ => .ok ()) (countRemovedDots delta) none

/-- Encodes into a buffer of `capacity` octets. -/
def OrSetCodec.encode (family : EntityFamily) (entityId : Bytes) (hlc : Hlc) (delta : OrSet T) :
    Except CodecError Bytes := do
  ensure (entityId.length ≤ limits.maxEntityBytes.toNat) .oversize
  ensure (delta.cc.length ≤ limits.maxContextDots.toNat) .oversize
  ensure (delta.entries.length ≤ limits.maxAdds.toNat) .oversize
  let (_, written) ← writeOrSet limits codec capacity family entityId hlc delta []
  ensure (written.length ≤ limits.maxWireBytes.toNat) .oversize
  pure written

structure Decoded (T : Type) where
  family : EntityFamily
  entityId : Bytes
  hlc : Hlc
  delta : OrSet T
  deriving DecidableEq

def decodeEntries (view : DeltaView) : List Add → Except CodecError (List (Entry T))
  | [] => .ok []
  | add :: rest => do
    let value ← codec.decode add.value
    let entries ← decodeEntries view rest
    pure (⟨value, view.dotsOf add⟩ :: entries)

def OrSetCodec.decode (replicaId : UInt64) (input : Bytes) : Except CodecError (Decoded T) := do
  let view ← Delta.decode limits input
  let entries ← decodeEntries codec view view.adds
  pure ⟨view.family, view.entityId, view.hlc, ⟨replicaId, entries, mergeContext [] view.context⟩⟩

end

end OnyxServer.Delta
