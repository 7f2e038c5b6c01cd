import Mathlib.Data.Prod.Lex
import OnyxServer.Lib.Saturating
import OnyxServer.Text.Ascii

/-!
# ACCESS facts, rows and markers

`ircx_access_store.zig`: an ACCESS entry is identified by its channel, its level and its
mask, ignoring ASCII case. A write carries a stamp, the clock of its author and the
author's node; a row holds the write that is in force and a marker the write that
deleted a row.
-/
namespace OnyxServer.Access

open Lib Text

def maxChannelBytes : Nat := 128
def maxMaskBytes : Nat := 128
def maxSetByBytes : Nat := 64
def maxPrefixBytes : Nat := 64 + 64 + 255 + 2

inductive StoreError where
  | invalidChannel
  | invalidMask
  | maskTooLong
  | invalidSetBy
  | tooManyEntries
  | outputTooSmall
  | futureHlc
  | outOfMemory
  deriving DecidableEq

inductive Level where
  | voice
  | host
  | owner
  | founder
  | grant
  | deny
  deriving DecidableEq

def Level.precedence : Level → Nat
  | .deny => 70
  | .founder => 60
  | .owner => 50
  | .host => 40
  | .grant => 40
  | .voice => 30

def isControl (byte : UInt8) : Bool :=
  byte == 0 || byte == 0x0D || byte == 0x0A || decide (1 ≤ byte ∧ byte ≤ 8) || byte == 11 ||
    byte == 12 || decide (14 ≤ byte ∧ byte ≤ 31) || byte == 127

def validateSafeText (bytes : Bytes) (err : StoreError) : Except StoreError Unit :=
  if bytes.any isControl then .error err else .ok ()

def validChannelNamePrefix : Bytes → Bool
  | 0x23 :: _ => true
  | 0x26 :: _ => true
  | 0x25 :: 0x23 :: _ => true
  | 0x25 :: 0x26 :: _ => true
  | _ => false

def validateChannel (channel : Bytes) : Except StoreError Unit :=
  if channel.length = 0 ∨ maxChannelBytes < channel.length then .error .invalidChannel
  else do
    validateSafeText channel .invalidChannel
    if !validChannelNamePrefix channel then .error .invalidChannel
    else if channel.any fun byte => byte == 0x20 || byte == 0x2C || byte == 7 then
      .error .invalidChannel
    else .ok ()

def validateMask (maxBytes : Nat) (mask : Bytes) : Except StoreError Unit :=
  if mask.length = 0 then .error .invalidMask
  else if maxBytes < mask.length then .error .maskTooLong
  else if mask.headD 0 = 0x3A then .error .invalidMask
  else do
    validateSafeText mask .invalidMask
    if mask.any fun byte => byte == 0x20 || byte == 9 || byte == 0x2C then .error .invalidMask
    else
      match mask.findIdx? (· == 0x21), mask.findIdx? (· == 0x40) with
      | some bang, some host =>
        if bang = 0 ∨ host ≤ bang + 1 ∨ host = mask.length - 1 then .error .invalidMask else .ok ()
      | _, _ => .error .invalidMask

def validateObservedHostmask (hostmask : Bytes) : Except StoreError Unit := do
  validateMask maxPrefixBytes hostmask
  if hostmask.contains 0x2A then .error .invalidMask
  else if hostmask.contains 0x3F then .error .invalidMask
  else .ok ()

def validateSetBy (setBy : Bytes) : Except StoreError Unit :=
  if setBy.length = 0 ∨ maxSetByBytes < setBy.length then .error .invalidSetBy
  else if setBy.headD 0 = 0x3A then .error .invalidSetBy
  else if setBy.any fun byte => decide (byte ≤ 0x20) || byte == 0x7F then .error .invalidSetBy
  else .ok ()

/-- The order of writes: the clock first, then the author's node. -/
def ranksAbove (hlcA nodeA hlcB nodeB : UInt64) : Bool :=
  if hlcA ≠ hlcB then decide (hlcB < hlcA) else decide (nodeB < nodeA)

abbrev Rank := UInt64 ×ₗ UInt64

def rank (hlc node : UInt64) : Rank := toLex (hlc, node)

variable {hlcA nodeA hlcB nodeB : UInt64}

@[simp] theorem ranksAbove_iff :
    ranksAbove hlcA nodeA hlcB nodeB = true ↔ rank hlcB nodeB < rank hlcA nodeA := by
  rw [rank, rank, Prod.Lex.toLex_lt_toLex, ranksAbove]
  by_cases h : hlcA = hlcB
  · simp [h]
  · simp [h, Ne.symm h]

theorem rank_lt_of_hlc_lt (h : hlcA < hlcB) :
    rank hlcA nodeA < rank hlcB nodeB :=
  Prod.Lex.toLex_lt_toLex.mpr (.inl h)

/-- The signature of an author over one fact, kept opaque. -/
structure OriginProof where
  pubkey : FixedBytes 32
  sig : FixedBytes 64
  deriving DecidableEq

/-- One replicated fact as it arrives from a peer; `present` is false for a delete. -/
structure RemoteFact where
  present : Bool
  channel : Bytes
  level : Level
  mask : Bytes
  setBy : Bytes
  duration : Option UInt64
  hlc : UInt64
  originNode : UInt64
  originProof : Option OriginProof
  deriving DecidableEq

structure Entry where
  channel : Bytes
  level : Level
  mask : Bytes
  setBy : Bytes
  duration : Option UInt64
  expiresAt : Option UInt64
  hlc : UInt64
  originNode : UInt64
  originProof : Option OriginProof
  deriving DecidableEq

structure Tombstone where
  channel : Bytes
  level : Level
  mask : Bytes
  hlc : UInt64
  originNode : UInt64
  recordedAt : UInt64
  originProof : Option OriginProof
  deriving DecidableEq

structure EntryView where
  channel : Bytes
  level : Level
  mask : Bytes
  setBy : Bytes
  duration : Option UInt64
  expiresAt : Option UInt64
  hlc : UInt64
  originNode : UInt64
  deriving DecidableEq

def Entry.view (entry : Entry) : EntryView :=
  { channel := entry.channel, level := entry.level, mask := entry.mask, setBy := entry.setBy
    duration := entry.duration, expiresAt := entry.expiresAt, hlc := entry.hlc
    originNode := entry.originNode }

structure SignedFact where
  present : Bool
  channel : Bytes
  level : Level
  mask : Bytes
  setBy : Bytes
  duration : Option UInt64
  hlc : UInt64
  originNode : UInt64
  proof : OriginProof
  deriving DecidableEq

structure Selector where
  channel : Bytes
  level : Option Level
  mask : Option Bytes
  deriving DecidableEq

def validateSelector (selector : Selector) : Except StoreError Unit := do
  validateChannel selector.channel
  match selector.mask with
  | some mask => validateMask maxMaskBytes mask
  | none => .ok ()

def Selector.matches (selector : Selector) (entry : Entry) : Bool :=
  eqlIgnoreCase selector.channel entry.channel &&
    (match selector.level with
      | some level => decide (level = entry.level)
      | none => true) &&
    (match selector.mask with
      | some mask => eqlIgnoreCase mask entry.mask
      | none => true)

/-- What a row and a marker are about: channel, level and mask, ignoring case. -/
structure Identity where
  channel : Bytes
  level : Level
  mask : Bytes
  deriving DecidableEq

def identity (channel : Bytes) (level : Level) (mask : Bytes) : Identity :=
  ⟨lowerString channel, level, lowerString mask⟩

def Entry.identity (entry : Entry) : Identity :=
  Access.identity entry.channel entry.level entry.mask

def Tombstone.identity (marker : Tombstone) : Identity :=
  Access.identity marker.channel marker.level marker.mask

def RemoteFact.identity (fact : RemoteFact) : Identity :=
  Access.identity fact.channel fact.level fact.mask

def Entry.rank (entry : Entry) : Rank := Access.rank entry.hlc entry.originNode
def Tombstone.rank (marker : Tombstone) : Rank := Access.rank marker.hlc marker.originNode
def RemoteFact.rank (fact : RemoteFact) : Rank := Access.rank fact.hlc fact.originNode

def Entry.names (entry : Entry) (channel : Bytes) (level : Level) (mask : Bytes) : Bool :=
  decide (entry.level = level) && eqlIgnoreCase entry.channel channel &&
    eqlIgnoreCase entry.mask mask

def Tombstone.names (marker : Tombstone) (channel : Bytes) (level : Level) (mask : Bytes) : Bool :=
  decide (marker.level = level) && eqlIgnoreCase marker.channel channel &&
    eqlIgnoreCase marker.mask mask

@[simp] theorem Entry.names_iff {entry : Entry} {channel mask : Bytes} {level : Level} :
    entry.names channel level mask = true ↔
    entry.identity = Access.identity channel level mask := by
  simp only [Entry.names, Entry.identity, Access.identity, Bool.and_eq_true, decide_eq_true_eq,
    eqlIgnoreCase_iff, Identity.mk.injEq]
  tauto

@[simp] theorem Tombstone.names_iff {marker : Tombstone} {channel mask : Bytes} {level : Level} :
    marker.names channel level mask = true ↔
      marker.identity = Access.identity channel level mask := by
  simp only [Tombstone.names, Tombstone.identity, Access.identity, Bool.and_eq_true,
    decide_eq_true_eq, eqlIgnoreCase_iff, Identity.mk.injEq]
  tauto

end OnyxServer.Access
