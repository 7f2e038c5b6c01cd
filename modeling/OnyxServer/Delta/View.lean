import OnyxServer.Delta.Wire

/-!
# Delta views

A view is one decoded delta: the causal context as dots, the added values with the dots
that hold them live, and the dots that are removed. Decoding checks the order, the bounds
and the partition of the context as it reads; encoding checks them first.
-/
namespace OnyxServer.Delta

open Lib
open Coilpack (appendVarint)

def magic : Bytes := [0x47, 0x44, 0x4c, 0x54]
def version : UInt8 := 1

inductive EntityFamily where
  | users
  | nicks
  | channels
  | memberships
  | prefixModes
  | channelModes
  | bans
  | topics
  | accounts
  | history
  deriving DecidableEq

def EntityFamily.tag : EntityFamily → UInt8
  | .users => 0
  | .nicks => 1
  | .channels => 2
  | .memberships => 3
  | .prefixModes => 4
  | .channelModes => 5
  | .bans => 6
  | .topics => 7
  | .accounts => 8
  | .history => 9

/-- The bounds of a codec, each of the width of a length. -/
structure Limits where
  maxWireBytes : UInt64
  maxEntityBytes : UInt64
  maxValueBytes : UInt64
  maxContextDots : UInt64
  maxAdds : UInt64
  maxAddDots : UInt64
  maxRemoveDots : UInt64
  maxDotsPerAdd : UInt64

structure Add where
  value : Bytes
  dotsStart : Nat
  dotsLen : Nat
  deriving DecidableEq

structure DeltaView where
  family : EntityFamily
  entityId : Bytes
  hlc : Hlc
  context : List Dot
  adds : List Add
  addDots : List Dot
  removes : List Dot
  deriving DecidableEq

def compareDots (a b : Dot) : Ordering :=
  if a.replica < b.replica then .lt
  else if b.replica < a.replica then .gt
  else if a.counter < b.counter then .lt
  else if b.counter < a.counter then .gt
  else .eq

def sortedDotsContain : List Dot → Dot → Bool
  | [], _ => false
  | candidate :: rest, dot =>
    match compareDots candidate dot with
    | .lt => sortedDotsContain rest dot
    | .eq => true
    | .gt => false

def dotsContain (dots : List Dot) (dot : Dot) : Bool :=
  dots.any fun candidate => compareDots candidate dot == .eq

def requireStrictDotOrder : Option Dot → Dot → Except CodecError Unit
  | none, _ => .ok ()
  | some prev, current =>
    match compareDots prev current with
    | .eq => .error .duplicateDot
    | .gt => .error .nonCanonicalOrder
    | .lt => .ok ()

def requireStrictValueOrder : Option Bytes → Bytes → Except CodecError Unit
  | none, _ => .ok ()
  | some prev, current =>
    if prev < current then .ok ()
    else if prev = current then .error .invalidDelta
    else .error .nonCanonicalOrder

/-- A check in the order of the source: the error when the condition fails. -/
def ensure (condition : Prop) [Decidable condition] (error : CodecError) : Except CodecError Unit :=
  if condition then .ok () else .error error

/-- Whether an added dot may follow the ones read so far. -/
def addDotAllowed (context live : List Dot) (dot : Dot) : Except CodecError Unit := do
  ensure (sortedDotsContain context dot) .dotOutsideCausalContext
  ensure (¬ dotsContain live dot) .duplicateDot

def removeDotAllowed (context live : List Dot) (dot : Dot) : Except CodecError Unit := do
  ensure (sortedDotsContain context dot) .dotOutsideCausalContext
  ensure (¬ dotsContain live dot) .invalidDelta

def validateCausalPartition (live removes : List Dot) : List Dot → Except CodecError Unit
  | [] => .ok ()
  | dot :: rest => do
    ensure (¬ (dotsContain live dot ∧ sortedDotsContain removes dot)) .invalidDelta
    ensure (dotsContain live dot ∨ sortedDotsContain removes dot) .causalContextMismatch
    validateCausalPartition live removes rest

def readFamily : Reader EntityFamily := do
  match ← readU8 with
  | 0 => pure .users
  | 1 => pure .nicks
  | 2 => pure .channels
  | 3 => pure .memberships
  | 4 => pure .prefixModes
  | 5 => pure .channelModes
  | 6 => pure .bans
  | 7 => pure .topics
  | 8 => pure .accounts
  | 9 => pure .history
  | _ => throw .unknownEntityFamily

def expectBytes (error : CodecError) : Bytes → Reader Unit
  | [] => pure ()
  | want :: rest => do
    let byte ← readU8
    require (byte = want) error
    expectBytes error rest

/-- Reads dots in strict order behind the ones read so far, each one checked against them. -/
def readDots (allowed : List Dot → Dot → Except CodecError Unit) :
    Nat → Option Dot → List Dot → Reader (List Dot)
  | 0, _, sofar => pure sofar
  | count + 1, prev, sofar => do
    let dot ← readDot
    check (requireStrictDotOrder prev dot)
    check (allowed sofar dot)
    readDots allowed count (some dot) (sofar ++ [dot])

def readAdds (limits : Limits) (context : List Dot) :
    Nat → Option Bytes → List Add → List Dot → Reader (List Add × List Dot)
  | 0, _, adds, addDots => pure (adds, addDots)
  | count + 1, prev, adds, addDots => do
    let value ← readBoundedBytes limits.maxValueBytes
    check (requireStrictValueOrder prev value)
    let dotsLen ← readBoundedCount limits.maxDotsPerAdd
    require (dotsLen ≠ 0) .invalidDelta
    require (addDots.length + dotsLen ≤ limits.maxAddDots.toNat) .oversize
    let addDots' ← readDots (addDotAllowed context) dotsLen none addDots
    readAdds limits context count (some value) (adds ++ [⟨value, addDots.length, dotsLen⟩]) addDots'

def readView (limits : Limits) : Reader DeltaView := do
  expectBytes .invalidMagic magic
  expectBytes .unsupportedVersion [version]
  let family ← readFamily
  let entityId ← readBoundedBytes limits.maxEntityBytes
  let key ← readU64Le
  let contextLen ← readBoundedCount limits.maxContextDots
  let context ← readDots (fun _ _ => .ok ()) contextLen none []
  let addsLen ← readBoundedCount limits.maxAdds
  let (adds, addDots) ← readAdds limits context addsLen none [] []
  let removesLen ← readBoundedCount limits.maxRemoveDots
  let removes ← readDots (fun _ => removeDotAllowed context addDots) removesLen none []
  pure ⟨family, entityId, hlcFromKey key, context, adds, addDots, removes⟩

def decode (limits : Limits) (input : Bytes) : Except CodecError DeltaView := do
  ensure (input.length ≤ limits.maxWireBytes.toNat) .oversize
  let (view, rest) ← readView limits input
  ensure (rest = []) .trailingBytes
  validateCausalPartition view.addDots view.removes view.context
  pure view

def DeltaView.dotsOf (view : DeltaView) (add : Add) : List Dot :=
  (view.addDots.drop add.dotsStart).take add.dotsLen

/-- Dots in strict order, each one allowed. -/
def validateDots (allowed : Dot → Except CodecError Unit) :
    Option Dot → List Dot → Except CodecError Unit
  | _, [] => .ok ()
  | prev, dot :: rest => do
    validateDot dot
    requireStrictDotOrder prev dot
    allowed dot
    validateDots allowed (some dot) rest

def DeltaView.validateAdds (limits : Limits) (view : DeltaView) :
    Option Bytes → List Add → Except CodecError Unit
  | _, [] => .ok ()
  | prev, add :: rest => do
    ensure (add.value.length ≤ limits.maxValueBytes.toNat) .valueTooLarge
    ensure (¬ (add.dotsLen = 0 ∨ limits.maxDotsPerAdd.toNat < add.dotsLen)) .invalidDelta
    ensure (add.dotsStart + add.dotsLen ≤ view.addDots.length) .invalidDelta
    requireStrictValueOrder prev add.value
    validateDots (addDotAllowed view.context (view.addDots.take add.dotsStart)) none
      (view.dotsOf add)
    view.validateAdds limits (some add.value) rest

def DeltaView.validate (limits : Limits) (view : DeltaView) : Except CodecError Unit := do
  ensure (view.entityId.length ≤ limits.maxEntityBytes.toNat) .oversize
  ensure (view.context.length ≤ limits.maxContextDots.toNat ∧
    view.adds.length ≤ limits.maxAdds.toNat ∧
    view.addDots.length ≤ limits.maxAddDots.toNat ∧
    view.removes.length ≤ limits.maxRemoveDots.toNat) .oversize
  validateDots (fun _ => .ok ()) none view.context
  view.validateAdds limits none view.adds
  validateDots (removeDotAllowed view.context view.addDots) none view.removes
  validateCausalPartition view.addDots view.removes view.context

def writeHeader (capacity : Nat) (family : EntityFamily) (entityId : Bytes) (hlc : Hlc) : Out := do
  emit capacity magic
  emit capacity [version]
  emit capacity [family.tag]
  emit capacity (bytesField entityId)
  emit capacity (leBytes 8 hlc.toU64.toNat)

def DeltaView.write (capacity : Nat) (view : DeltaView) : Out := do
  writeHeader capacity view.family view.entityId view.hlc
  emit capacity (countField view.context.length)
  putEach (writeDot capacity) view.context
  emit capacity (countField view.adds.length)
  putEach (fun add => do
    emit capacity (bytesField add.value)
    emit capacity (countField add.dotsLen)
    putEach (writeDot capacity) (view.dotsOf add)) view.adds
  emit capacity (countField view.removes.length)
  putEach (writeDot capacity) view.removes

/-- Encodes into a buffer of `capacity` octets. -/
def DeltaView.encode (limits : Limits) (capacity : Nat) (view : DeltaView) :
    Except CodecError Bytes := do
  view.validate limits
  let (_, written) ← view.write capacity []
  ensure (written.length ≤ limits.maxWireBytes.toNat) .oversize
  pure written

end OnyxServer.Delta
