import Mathlib.Data.Finset.Card
import OnyxServer.Chanmode.Modes
import OnyxServer.Lib.HashMap
import OnyxServer.Text.Ascii

/-!
# The chat world

`world.zig`: the nicks and the channels of one server. Channel names and the keys of the mirrors
that readers look at without a lock are compared ignoring ASCII case, so those tables are keyed
by the folded name. A channel keeps the name it was made with.
-/
namespace OnyxServer.ChatWorld

open Lib Text Chanmode

structure ClientId where
  shard : BitVec 12
  slot : BitVec 20
  gen : BitVec 32
  deriving DecidableEq

inductive WorldError where
  | outOfMemory
  | invalidOwnerSet
  | invalidGraph
  | noSuchChannel
  deriving DecidableEq

structure ListEntry where
  mask : Bytes
  setter : Bytes
  setAt : Int64
  deriving DecidableEq

structure MemberModes where
  bits : UInt8
  deriving DecidableEq

/-- A packed word of flags. -/
structure ExtChannelFlags where
  bits : BitVec 32
  deriving DecidableEq

def ExtChannelFlags.registered (flags : ExtChannelFlags) : Bool := flags.bits.getLsbD 12

structure Channel where
  name : Bytes
  members : HashMap ClientId MemberModes
  topic : Option Bytes
  topicSetter : Option Bytes
  topicTime : Int64
  modes : ChannelModes
  key : Option Bytes
  limit : Option UInt32
  bans : List ListEntry
  exempts : List ListEntry
  invex : List ListEntry
  mutes : List ListEntry
  throttleJoins : UInt16
  throttleSecs : UInt32
  throttleTimes : List Int64
  throttleAlertMs : Int64
  invites : Finset ClientId
  forward : Option Bytes
  isPrivate : Bool
  hidden : Bool
  extModes : ExtChannelFlags
  oid : UInt32
  createdUnix : Int64

def defaultChannelModes : ChannelModes :=
  { ChannelModes.init [] [] [] with noExternal := true, topicOps := true }

namespace Channel

def init (name : Bytes) (oid : UInt32) (createdUnix : Int64) : Channel :=
  { name, members := ∅, topic := none, topicSetter := none, topicTime := 0, modes :=
    defaultChannelModes
    key := none, limit := none, bans := [], exempts := [], invex := [], mutes :=
      [], throttleJoins := 0
    throttleSecs := 0, throttleTimes := [], throttleAlertMs := 0, invites := ∅, forward := none
    isPrivate := false, hidden := false, extModes := ⟨0⟩, oid, createdUnix }

/-- Without a member. -/
def leave (channel : Channel) (client : ClientId) : Channel :=
  { channel with members := AList.erase client channel.members }

def uninvite (channel : Channel) (client : ClientId) : Channel :=
  { channel with invites := channel.invites.erase client }

/-- Only channels that are not registered are reclaimed when they are empty. -/
def reclaimable (channel : Channel) : Bool :=
  decide (HashMap.count channel.members = 0) && !channel.extModes.registered

end Channel

/-- The mirror of the channels: their object ids and their members. -/
structure RcuChannels where
  names : HashMap Bytes UInt32
  members : HashMap Bytes (Finset ClientId)

def foldBufLen : Nat := 256

def foldName (name : Bytes) : Bytes := lowerString (name.take foldBufLen)

namespace RcuChannels

def empty : RcuChannels := ⟨∅, ∅⟩

def membershipGet (c : RcuChannels) (name : Bytes) : Option (Finset ClientId) :=
  c.members.lookup (foldName name)

/-- The set of the channel is made if it is absent. -/
def membershipSet (c : RcuChannels) (name : Bytes) : RcuChannels :=
  if (c.membershipGet name).isSome then c
    else { c with members := AList.insert (foldName name) ∅ c.members }

def dropMembership (c : RcuChannels) (name : Bytes) : RcuChannels :=
  { c with members := AList.erase (foldName name) c.members }

def removeMember (c : RcuChannels) (name : Bytes) (client : ClientId) : RcuChannels :=
  { c with members := HashMap.adjust (foldName name) (·.erase client) c.members }

def removeName (c : RcuChannels) (name : Bytes) : RcuChannels :=
  { c with names := AList.erase name c.names }

end RcuChannels

/-- Nicks are kept in both directions, and in a mirror that ignores case. -/
structure World where
  channels : HashMap Bytes Channel
  nicks : HashMap Bytes ClientId
  clientNicks : HashMap ClientId Bytes
  nextOid : UInt32
  clockUnix : Int64
  rcuNicks : Option (HashMap Bytes ClientId)
  rcuChannels : Option RcuChannels

/-- Which allocations of `ensureChannel` succeed, in order; `undo` is the one that takes back the
mirrored name. -/
structure EnsureAllocs where
  name : Bool
  activate : Bool
  mirror : Bool
  members : Bool
  undo : Bool

/-- Which writes to the mirrors succeed while a client is removed. A write that fails is
skipped. -/
structure MirrorWrites where
  nick : Bool
  leave : Bytes → Bool
  retire : Bytes → Bool

namespace World

def init : World := ⟨∅, ∅, ∅, 1, 0, none, none⟩

def getChannel (world : World) (name : Bytes) : Option Channel :=
  world.channels.lookup (lowerString name)

def ensureChannel (world : World) (name : Bytes) (allocs : EnsureAllocs) :
    Except WorldError Unit × World :=
  if (world.getChannel name).isSome then (.ok (), world)
  else if !allocs.name then (.error .outOfMemory, world)
  else if world.rcuChannels.isNone && !allocs.activate then (.error .outOfMemory, world)
  else
    let c := world.rcuChannels.getD RcuChannels.empty
    if !allocs.mirror then (.error .outOfMemory, { world with rcuChannels := some c })
    else
      let named : RcuChannels :=
        { c with names := AList.insert (lowerString name) world.nextOid c.names }
      if (named.membershipGet name).isNone && !allocs.members then
        (.error .outOfMemory,
          { world with
            rcuChannels :=
              some (if allocs.undo then named.removeName (lowerString name) else named) })
      else
        (.ok (), { world with
          channels :=
            AList.insert (lowerString name)
            (Channel.init name world.nextOid world.clockUnix) world.channels
          nextOid := world.nextOid + 1
          rcuChannels := some (named.membershipSet name) })

/-- An empty channel to keep the list state of other servers in. -/
def ensureRemoteListChannel (world : World) (name : Bytes) (allocs : EnsureAllocs) :
    Except WorldError Unit × World :=
  world.ensureChannel name allocs

def addInvite (world : World) (name : Bytes) (client : ClientId) (alloc : Bool) :
    Except WorldError Unit × World :=
  if (world.getChannel name).isNone then (.error .noSuchChannel, world)
  else if !alloc then (.error .outOfMemory, world)
  else
    (.ok (), { world with
      channels := HashMap.adjust (lowerString name)
        (fun channel => { channel with invites := insert client channel.invites }) world.channels })

/-! ## Removing a client -/

def unregisterNick (world : World) (client : ClientId) (alloc : Bool) : World :=
  match world.clientNicks.lookup client with
  | none => world
  | some nick => { world with
      clientNicks := AList.erase client world.clientNicks
      nicks := AList.erase nick world.nicks
      rcuNicks :=
        world.rcuNicks.map fun r => if alloc then AList.erase (lowerString nick) r else r }

/-- The membership is removed where there is one, then mirrored. -/
def dropMember (world : World) (client : ClientId) (name : Bytes) (writes : MirrorWrites) : World :=
  if (world.channels.lookup name).any fun channel => decide (client ∈ channel.members) then
    { world with
      channels := HashMap.adjust name (·.leave client) world.channels
      rcuChannels := world.rcuChannels.map fun c => if writes.leave name then
      c.removeMember name client else c }
  else world

def removeChannel (world : World) (name : Bytes) (writes : MirrorWrites) : World :=
  if (world.channels.lookup name).isSome then
    { world with
      channels := AList.erase name world.channels
      rcuChannels := world.rcuChannels.map fun c =>
        (if writes.retire name then c.removeName name else c).dropMembership name }
  else world

/-- One scan over the channels, up to the first one to reclaim. -/
def removePass (client : ClientId) (writes : MirrorWrites) :
    List Bytes → World → Option Bytes × World
  | [], world => (none, world)
  | name :: names, world =>
    let world := world.dropMember client name writes
    if (world.channels.lookup name).any Channel.reclaimable then (some name, world)
    else removePass client writes names world

/-- The scan starts again behind every channel that is reclaimed. -/
def removeLoop (client : ClientId) (writes : MirrorWrites) : Nat → World → World
  | 0, world => world
  | rounds + 1, world =>
    match removePass client writes world.channels.keys world with
    | (some name, world) => removeLoop client writes rounds (world.removeChannel name writes)
    | (none, world) => world

/-- Every round but the last reclaims a channel. -/
def removeClient (world : World) (client : ClientId) (writes : MirrorWrites) : World :=
  let world := world.unregisterNick client writes.nick
  removeLoop client writes (HashMap.count world.channels + 1) world

end World

/-!
## The prepared departure

The physical removal of a client in two steps: the first finds every channel it concerns and may
refuse, the second cannot fail. This is the departure that no other client takes over.
-/

structure DepartureChannel where
  name : Bytes
  channel : Option Channel
  set : Option (Finset ClientId)
  sourceRcu : Bool
  unionMember : Bool
  cleanup : Bool
  removeName : Bool
  insertName : Bool
  rebuilt : Option (Finset ClientId)

structure PreparedPhysicalDeparture where
  source : ClientId
  channels : List DepartureChannel

namespace World

/-- The reverse index and the fallback map agree on the nicks of the client. (That they share the
octets of a nick is not visible to values.) -/
def validateFallbackNickOwner (world : World) (client : ClientId) : Except WorldError Unit :=
  if (world.clientNicks.lookup client).any fun reverse =>
    decide (world.nicks.lookup reverse ≠ some client) then
    .error .invalidOwnerSet
  else if world.nicks.entries.any fun e =>
    decide (e.2 = client ∧ world.clientNicks.lookup client ≠ some e.1) then
    .error .invalidOwnerSet
  else .ok ()

/-- The keys of the membership mirror are folded and short. (Sets are values here, so no two
channels share one.) -/
def validateMirror (world : World) : Except WorldError Unit :=
  if world.rcuChannels.any fun c => c.members.keys.any fun key =>
      decide (foldBufLen < key.length) || decide (foldName key ≠ key) then .error .invalidGraph
  else .ok ()

def membershipGet (world : World) (name : Bytes) : Option (Finset ClientId) :=
  world.rcuChannels.bind fun c => c.membershipGet name

/-- The members that are left of the fallback record, and of the mirror where there is one. -/
def fallbackFinal (client : ClientId) (channel : Option Channel) : Nat :=
  channel.elim 0 fun ch => HashMap.count ch.members - if client ∈ ch.members then 1 else 0

def rcuFinal (client : ClientId) (channel : Option Channel) (set : Option (Finset ClientId)) :
    Nat :=
  match set with
  | some s => s.card - if client ∈ s then 1 else 0
  | none => fallbackFinal client channel

/-- The channel is empty and not registered once the client is gone. -/
def cleanup (client : ClientId) (channel : Option Channel) (set : Option (Finset ClientId)) :
    Bool :=
  channel.any fun ch => !ch.extModes.registered && decide (fallbackFinal client channel = 0) &&
    decide (rcuFinal client channel set = 0)

/-- The object id of a channel without a mirrored name belongs to no other channel. -/
def oidTaken (world : World) (name : Bytes) (ch : Channel) : Bool :=
  decide (ch.oid = 0) ||
    world.channels.entries.any (fun e => decide (e.1 ≠ name ∧ e.2.oid = ch.oid)) ||
    world.rcuChannels.any fun c => c.names.entries.any fun e => decide (e.2 = ch.oid)

def deriveDepartureChannel (world : World) (client : ClientId) (name : Bytes)
    (channel : Option Channel)
    (set : Option (Finset ClientId)) : Except WorldError DepartureChannel :=
  if foldBufLen < name.length then .error .invalidGraph
  else
    let fallback := channel.any fun ch => decide (client ∈ ch.members)
    let inRcu := set.any fun s => decide (client ∈ s)
    let unionMember := fallback || inRcu
    let clean := cleanup client channel set
    let affected := unionMember || clean
    let oid := world.rcuChannels.bind fun c => c.names.lookup name
    if affected && channel.any (fun ch => oid.any fun id => decide (id ≠ ch.oid)) then
      .error .invalidGraph
    else if affected && !clean && world.rcuChannels.isSome && oid.isNone &&
      channel.any (world.oidTaken name) then
      .error .invalidGraph
    else
      .ok
        { name, channel, set, sourceRcu := inRcu, unionMember, cleanup := clean
          removeName := clean && oid.isSome
          insertName := affected && !clean && channel.isSome && world.rcuChannels.isSome &&
            oid.isNone
          rebuilt := if world.rcuChannels.isSome && set.isNone && !clean then
            channel.map fun ch => ch.members.keys.toFinset.erase client else none }

/-- The channels with a fallback record that the departure concerns. -/
def deriveFallback (world : World) (client : ClientId) : List (Sigma fun _ : Bytes => Channel) →
    Except WorldError (List DepartureChannel)
  | [] => .ok []
  | e :: entries => do
    let delta ← world.deriveDepartureChannel client e.1 (some e.2) (world.membershipGet e.1)
    let deltas ← world.deriveFallback client entries
    return if delta.unionMember || delta.cleanup then delta :: deltas else deltas

/-- The mirrored sets of channels without a fallback record. -/
def deriveMirror (world : World) (client : ClientId) :
    List (Sigma fun _ : Bytes => Finset ClientId) →
    Except WorldError (List DepartureChannel)
  | [] => .ok []
  | e :: entries =>
    if (world.channels.lookup e.1).isSome then world.deriveMirror client entries
    else do
      let delta ← world.deriveDepartureChannel client e.1 none (some e.2)
      let deltas ← world.deriveMirror client entries
      return if delta.unionMember then delta :: deltas else deltas

/-- A failed allocation ends the preparation. Until the commit nothing is published. -/
def preparePhysicalIdentityRemove (world : World) (client : ClientId) (alloc : Bool) :
    Except WorldError PreparedPhysicalDeparture := do
  world.validateFallbackNickOwner client
  world.validateMirror
  let fallback ← world.deriveFallback client world.channels.entries
  let mirror ← world.deriveMirror client (world.rcuChannels.elim [] fun c => c.members.entries)
  if !alloc then .error .outOfMemory else return ⟨client, fallback ++ mirror⟩

def commitMember (source : ClientId) (world : World) (entry : DepartureChannel) : World :=
  { world with
    channels :=
      if entry.channel.isSome then HashMap.adjust entry.name (·.leave source) world.channels
      else world.channels
    rcuChannels := world.rcuChannels.map fun c =>
      match entry.rebuilt with
      | some ids => { c with members := AList.insert (foldName entry.name) ids c.members }
      | none => if entry.sourceRcu then c.removeMember entry.name source else c }

def commitName (world : World) (entry : DepartureChannel) : World :=
  { world with
    rcuChannels := world.rcuChannels.map fun c =>
      { c with
        names :=
          if entry.removeName then AList.erase entry.name c.names
          else if entry.insertName then
          AList.insert entry.name (entry.channel.elim 0 (·.oid)) c.names
          else c.names } }

/-- The nicks of the client in every index. -/
def commitNick (world : World) (source : ClientId) : World :=
  { world with
    clientNicks := AList.erase source world.clientNicks
    nicks := (world.clientNicks.lookup source).elim world.nicks fun nick =>
    AList.erase nick world.nicks
    rcuNicks :=
      world.rcuNicks.map fun r => HashMap.keep (fun _ owner => decide (owner ≠ source)) r }

def commitCleanup (world : World) (entry : DepartureChannel) : World :=
  if entry.cleanup then
    { world with
      channels := AList.erase entry.name world.channels
      rcuChannels := world.rcuChannels.map fun c => c.dropMembership entry.name }
  else world

def commit (world : World) (prepared : PreparedPhysicalDeparture) : World :=
  let world :=
    { world with channels :=
      HashMap.mapValues (fun _ ch => ch.uninvite prepared.source) world.channels }
  let world := prepared.channels.foldl (commitMember prepared.source) world
  let world := prepared.channels.foldl commitName world
  let world := world.commitNick prepared.source
  prepared.channels.foldl commitCleanup world

end World

end OnyxServer.ChatWorld
