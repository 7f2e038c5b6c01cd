import OnyxServer.Lib.Keyed
import OnyxServer.Lib.LastWriter
import OnyxServer.Lib.Trace
import OnyxServer.Undertow.Table

/-!
# Channel facts of the last writer

The topic of a channel, its mode flags and each mask of its lists are records of the last
writer: the event of the highest clock stays, and of events of one clock the one that
arrived first.
-/
namespace OnyxServer.Undertow

open Lib

structure ListEvent where
  chan : Bytes
  kind : ListKind
  mask : Bytes
  setter : Bytes
  setAt : Int
  originNode : NodeId
  hlc : UInt64
  present : Bool
  deriving DecidableEq

structure ModeEvent where
  chan : Bytes
  node : NodeId
  flags : UInt16
  hlc : UInt64
  deriving DecidableEq

structure TopicEvent where
  chan : Bytes
  node : NodeId
  hlc : UInt64
  text : Bytes
  setter : Bytes
  setAt : Int
  present : Bool
  deriving DecidableEq

inductive ApplyListOutcome where
  | added
  | removed
  | unchanged
  deriving DecidableEq

inductive ApplyFactOutcome where
  | changed
  | unchanged
  deriving DecidableEq

def ListEvent.entry (event : ListEvent) : ChannelListEntry :=
  { kind := event.kind, mask := event.mask, setter := event.setter, setAt := event.setAt
    originNode := event.originNode, hlc := event.hlc, present := event.present }

def ModeEvent.record (event : ModeEvent) : ChannelModeFlags :=
  { flags := event.flags, originNode := event.node, hlc := event.hlc }

def TopicEvent.clock (event : TopicEvent) : TopicClock :=
  { originNode := event.node, hlc := event.hlc, topic := event.text, setter := event.setter
    setAt := event.setAt, present := event.present }

def findMask (list : List ChannelListEntry) (kind : ListKind) (mask : Bytes) : Option Nat :=
  list.findIdx? fun entry => decide (entry.kind = kind ∧ entry.mask = mask)

namespace RouteTable

def ensureChannelList (table : RouteTable) (chan : Bytes) (alloc : Bool) :
    Except Error (List ChannelListEntry) × RouteTable :=
  match table.channelLists.lookup chan with
  | some list => (.ok list, table)
  | none =>
    if table.listChannelCount = table.cfg.maxChannels then (.error .routeTableFull, table)
    else if !alloc then (.error .outOfMemory, table)
    else
      (.ok [], { table with
        channelLists := table.channelLists.insert chan []
        listChannelCount := table.listChannelCount + 1 })

def validateFact (table : RouteTable) (chan : Bytes) (node : NodeId) : Except Error Unit := do
  table.validateName chan
  validateNode node

def validateListEvent (table : RouteTable) (event : ListEvent) : Except Error Unit := do
  table.validateFact event.chan event.originNode
  if event.mask.length = 0 ∨ maxMaskLen < event.mask.length then .error .invalidName
  else if maxSetterLen < event.setter.length then .error .invalidName
  else .ok ()

/-- Writes the event into the channel's list, over the mask's entry at `found`. -/
def writeMask (table : RouteTable) (event : ListEvent) (list : List ChannelListEntry)
    (found : Option Nat) (alloc : Bool) : Except Error ApplyListOutcome × RouteTable :=
  match found.bind fun i => (list[i]?).map (i, ·) with
  | some (i, cur) =>
    if event.hlc ≤ cur.hlc then (.ok .unchanged, table)
    else if !alloc then (.error .outOfMemory, table)
    else
      (.ok
        (if event.present = cur.present then .unchanged
        else if event.present then .added else .removed),
        { table with
          channelLists := table.channelLists.insert event.chan
            (list.set i { event.entry with kind := cur.kind, mask := cur.mask }) })
  | none =>
    if table.cfg.maxNicks ≤ list.length then (.error .routeTableFull, table)
    else if !alloc then (.error .outOfMemory, table)
    else
      (.ok (if event.present then .added else .unchanged),
        { table with
          channelLists := table.channelLists.insert event.chan (list ++ [event.entry]) })

/-- `ensure` is the allocation of the channel's list, `alloc` those of the entry. -/
def applyChannelList (table : RouteTable) (event : ListEvent) (ensure alloc : Bool) :
    Except Error ApplyListOutcome × RouteTable :=
  match table.validateListEvent event with
  | .error e => (.error e, table)
  | .ok () =>
    match table.ensureChannelList event.chan ensure with
    | (.error e, table) => (.error e, table)
    | (.ok list, table) => table.writeMask event list (findMask list event.kind event.mask) alloc

def applyChannelModeFlags (table : RouteTable) (event : ModeEvent) (alloc : Bool) :
    Except Error ApplyFactOutcome × RouteTable :=
  match table.validateFact event.chan event.node with
  | .error e => (.error e, table)
  | .ok () =>
    match table.channelModeFlags.lookup event.chan with
    | some cur =>
      if event.hlc ≤ cur.hlc then (.ok .unchanged, table)
      else
        (.ok (if cur.flags ≠ event.flags then .changed else .unchanged),
          { table with
            channelModeFlags := table.channelModeFlags.insert event.chan event.record })
    | none =>
      if table.cfg.maxChannels ≤ table.channelModeFlags.count then (.error .routeTableFull, table)
      else if !alloc then (.error .outOfMemory, table)
      else
        (.ok .changed,
          { table with
            channelModeFlags := table.channelModeFlags.insert event.chan event.record })

def applyTopic (table : RouteTable) (event : TopicEvent) (alloc : Bool) :
    Except Error ApplyFactOutcome × RouteTable :=
  match table.validateFact event.chan event.node with
  | .error e => (.error e, table)
  | .ok () =>
    let written := { table with
      channelTopics := table.channelTopics.insert event.chan event.clock }
    match table.channelTopics.lookup event.chan with
    | some cur =>
      if event.hlc ≤ cur.hlc then (.ok .unchanged, table)
      else if !alloc then (.error .outOfMemory, table)
      else (.ok .changed, written)
    | none =>
      if table.cfg.maxChannels ≤ table.channelTopics.count then (.error .routeTableFull, table)
      else if !alloc then (.error .outOfMemory, table)
      else (.ok .changed, written)

/-- The masks that are set on a channel, with their setters and clocks. -/
def presentMasks (table : RouteTable) (chan : Bytes) : List (ListKind × Bytes × Bytes × UInt64) :=
  (((table.channelLists.lookup chan).getD []).filter ChannelListEntry.present).map fun entry =>
    (entry.kind, entry.mask, entry.setter, entry.hlc)

end RouteTable

/-! ## Records and the events that wrote them -/

inductive FactEvent where
  | list (event : ListEvent)
  | flags (event : ModeEvent)
  | topic (event : TopicEvent)
  deriving DecidableEq

/-- What an event is a write to. -/
inductive Record where
  | mask (chan : Bytes) (kind : ListKind) (mask : Bytes)
  | flags (chan : Bytes)
  | topic (chan : Bytes)
  deriving DecidableEq

def FactEvent.record : FactEvent → Record
  | .list event => .mask event.chan event.kind event.mask
  | .flags event => .flags event.chan
  | .topic event => .topic event.chan

def FactEvent.hlc : FactEvent → UInt64
  | .list event => event.hlc
  | .flags event => event.hlc
  | .topic event => event.hlc

/-- An event and whether the allocations of its application succeed. -/
structure FactOp where
  event : FactEvent
  ensure : Bool
  alloc : Bool

abbrev FactAnswer := Except Error (ApplyListOutcome ⊕ ApplyFactOutcome)

def applyFact (table : RouteTable) (op : FactOp) : FactAnswer × RouteTable :=
  match op.event with
  | .list event =>
    let (answer, table) := table.applyChannelList event op.ensure op.alloc
    (answer.map .inl, table)
  | .flags event =>
    let (answer, table) := table.applyChannelModeFlags event op.alloc
    (answer.map .inr, table)
  | .topic event =>
    let (answer, table) := table.applyTopic event op.alloc
    (answer.map .inr, table)

def ChannelListEntry.event (entry : ChannelListEntry) (chan : Bytes) : ListEvent :=
  { chan, kind := entry.kind, mask := entry.mask, setter := entry.setter, setAt := entry.setAt
    originNode := entry.originNode, hlc := entry.hlc, present := entry.present }

def ChannelModeFlags.event (record : ChannelModeFlags) (chan : Bytes) : ModeEvent :=
  { chan, node := record.originNode, flags := record.flags, hlc := record.hlc }

def TopicClock.event (clock : TopicClock) (chan : Bytes) : TopicEvent :=
  { chan, node := clock.originNode, hlc := clock.hlc, text := clock.topic, setter := clock.setter
    setAt := clock.setAt, present := clock.present }

/-- The event that a record holds, read back from the table. -/
def RouteTable.held (table : RouteTable) : Record → Option FactEvent
  | .mask chan kind mask =>
    (((table.channelLists.lookup chan).getD []).find? fun entry =>
      decide (entry.kind = kind ∧ entry.mask = mask)).map fun entry => .list (entry.event chan)
  | .flags chan => (table.channelModeFlags.lookup chan).map fun record => .flags (record.event chan)
  | .topic chan => (table.channelTopics.lookup chan).map fun clock => .topic (clock.event chan)

/-- What a record holds after an event for it. -/
def latest (held : Option FactEvent) (event : FactEvent) : FactEvent :=
  match held with
  | none => event
  | some cur => if event.hlc ≤ cur.hlc then cur else event

end OnyxServer.Undertow
