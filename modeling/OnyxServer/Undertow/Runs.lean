import OnyxServer.Undertow.ChannelFacts
import OnyxServer.Undertow.Renames

/-!
# Runs of the route table

Every public operation that changes the table is a step. A winning join is prepared in
one step and committed or given up in a later one. The order in which iterators meet the
rosters may change between any two steps.
-/
namespace OnyxServer.Undertow

open Lib Text

def addMember (cap : Nat) (nodes : List NodeRef) (node : NodeId) : Except Error (List NodeRef) :=
  match (nodes.findIdx? fun ref => decide (ref.id = node)).bind fun i => (nodes[i]?).map (i, ·) with
  | some (i, ref) =>
    if ref.members.toNat = 2 ^ 32 - 1 then .error .memberCountOverflow
    else .ok (nodes.set i { ref with members := ref.members + 1 })
  | none =>
    if nodes.length = cap then .error .channelFanoutFull else .ok (nodes ++ [⟨node, 1⟩])

def removeMember (nodes : List NodeRef) (node : NodeId) : List NodeRef :=
  match (nodes.findIdx? fun ref => decide (ref.id = node)).bind fun i => (nodes[i]?).map (i, ·) with
  | some (i, ref) =>
    if 1 < ref.members then nodes.set i { ref with members := ref.members - 1 }
    else swapRemove nodes i
  | none => nodes

namespace RouteTable

def setNodes (table : RouteTable) (chan : Bytes) (nodes : List NodeRef) : RouteTable :=
  { table with channels := table.channels.insert chan nodes }

/-- Writes a channel's nodes back, or removes the channel with the last of them. -/
def leaveNodes (table : RouteTable) (chan : Bytes) (nodes : List NodeRef) : RouteTable :=
  if nodes.isEmpty then
    { table with channels := table.channels.erase chan, channelCount := table.channelCount - 1 }
  else table.setNodes chan nodes

def addChannelMember (table : RouteTable) (chan : Bytes) (node : NodeId) (alloc : Bool) :
    Except Error Unit × RouteTable :=
  match table.validateFact chan node with
  | .error e => (.error e, table)
  | .ok () =>
    match table.channels.lookup chan with
    | some nodes =>
      match addMember table.cfg.maxNodesPerChannel nodes node with
      | .error e => (.error e, table)
      | .ok nodes => (.ok (), table.setNodes chan nodes)
    | none =>
      if table.channelCount = table.cfg.maxChannels then (.error .routeTableFull, table)
      else if !alloc then (.error .outOfMemory, table)
      else
        match addMember table.cfg.maxNodesPerChannel [] node with
        | .error e => (.error e, table)
        | .ok nodes =>
          (.ok (), { table.setNodes chan nodes with channelCount := table.channelCount + 1 })

def removeChannelMember (table : RouteTable) (chan : Bytes) (node : NodeId) : RouteTable :=
  match table.channels.lookup chan with
  | none => table
  | some nodes => table.leaveNodes chan (removeMember nodes node)

def setChannelNodePresence (table : RouteTable) (chan : Bytes) (node : NodeId)
    (present alloc : Bool) :
    Except Error Unit × RouteTable :=
  match table.validateFact chan node with
  | .error e => (.error e, table)
  | .ok () =>
    if present then
      if ((table.channels.lookup chan).getD []).any fun ref => decide (ref.id = node) then
        (.ok (), table)
      else table.addChannelMember chan node alloc
    else
      match table.channels.lookup chan with
      | none => (.ok (), table)
      | some nodes => (.ok (), table.leaveNodes chan (dropNode nodes node))

/-- The rosters in another order of iteration. -/
def rehash (table : RouteTable) (members : HashMap Bytes (List Member)) : RouteTable :=
  if members.entries.Perm table.channelMembers.entries then
    { table with channelMembers := members }
  else table

end RouteTable

/-- The table and the join that is prepared on it, if there is one. -/
structure System where
  table : RouteTable
  pending : Option PreparedWinningJoin

def System.init (cfg : Config) : System := ⟨.empty cfg, none⟩

inductive Op where
  | rehash (members : HashMap Bytes (List Member))
  | setNickLocation (nick : Bytes) (node : NodeId) (alloc : Bool)
  | removeNick (nick : Bytes)
  | clear
  | addChannelMember (chan : Bytes) (node : NodeId) (alloc : Bool)
  | removeChannelMember (chan : Bytes) (node : NodeId)
  | setChannelNodePresence (chan : Bytes) (node : NodeId) (present alloc : Bool)
  | applyFact (op : FactOp)
  | applyMembership (m : Membership) (preparer : Option MembershipIdentityPreparer)
      (a : ApplyAllocs)
  | prepareWinningJoin (m : Membership) (incumbentUid : Bytes) (list row : Bool)
  | commitWinningJoin (index : Bool)
  | abandonWinningJoin
  | renameNick (old new : Bytes) (node : NodeId) (ident : MemberIdentity) (copies plans : Bool)
  | renameNickDisplacing (d : Displacing) (staged reserved : Bool)
  | renameNickBindingSessionToken (node : NodeId) (old new : Bytes) (token : SessionToken)
      (ident : MemberIdentity) (a : SessionAllocs)
  | rebindSessionToken (node : NodeId) (wireNick : Bytes) (token : Option SessionToken)
  | reconcileSessionToken (r : Reconcile) (a : ReconcileAllocs)
  | pruneStale (nowMs windowMs : Int) (announced : Nat → Bool) (a : RouteTable.PruneAllocs)
  | removeNode (node : NodeId) (a : RouteTable.RemoveAllocs)

/-- A join or part without an identity, for which memory lasts. -/
def Op.member (present : Bool) (chan nick : Bytes) (node : NodeId) (hlc : UInt64) : Op :=
  .applyMembership ⟨chan, nick, node, 0, hlc, present, .unknown, 0⟩ none
    ⟨true, true, true, true, true, true, true⟩

inductive Reply where
  | done
  | answered (found : Bool)
  | counted (count : Nat)
  | applied (result : ApplyResult)
  | reconciled (result : ReconcileResult)
  | fact (outcome : ApplyListOutcome ⊕ ApplyFactOutcome)

abbrev Answer := Except Error Reply

variable (loserUid : NodeId → Bytes → Bytes)

/-- What an operation other than the winning join does to the table. -/
def tableStep (table : RouteTable) : Op → Answer × RouteTable
  | .rehash members => (.ok .done, table.rehash members)
  | .setNickLocation nick node alloc =>
    let (answer, table) := table.setNickLocation nick node alloc
    (answer.map fun _ => .done, table)
  | .removeNick nick =>
    let (found, table) := table.removeNick nick
    (.ok (.answered found), table)
  | .clear => (.ok .done, table.clear)
  | .addChannelMember chan node alloc =>
    let (answer, table) := table.addChannelMember chan node alloc
    (answer.map fun _ => .done, table)
  | .removeChannelMember chan node => (.ok .done, table.removeChannelMember chan node)
  | .setChannelNodePresence chan node present alloc =>
    let (answer, table) := table.setChannelNodePresence chan node present alloc
    (answer.map fun _ => .done, table)
  | .applyFact op =>
    let (answer, table) := Undertow.applyFact table op
    (answer.map .fact, table)
  | .applyMembership m preparer a =>
    let (answer, table) := table.applyMembership loserUid m preparer a
    (answer.map .applied, table)
  | .renameNick old new node ident copies plans =>
    let (answer, table) := table.renameNick old new node ident copies plans
    (answer.map .answered, table)
  | .renameNickDisplacing d staged reserved =>
    let (answer, table) := table.renameNickDisplacing d staged reserved
    (answer.map .answered, table)
  | .renameNickBindingSessionToken node old new token ident a =>
    let (answer, table) := table.renameNickBindingSessionToken node old new token ident a
    (answer.map .answered, table)
  | .rebindSessionToken node wireNick token =>
    let (answer, table) := table.rebindSessionToken loserUid node wireNick token
    (answer.map .counted, table)
  | .reconcileSessionToken r a =>
    let (answer, table) := table.reconcileSessionTokenObserved loserUid r a
    (answer.map .reconciled, table)
  | .pruneStale nowMs windowMs announced a =>
    let (answer, table) := table.pruneStaleObserved nowMs windowMs announced a
    (answer.map .counted, table)
  | .removeNode node a => (.ok .done, table.removeNode node a)
  | .prepareWinningJoin .. | .commitWinningJoin .. | .abandonWinningJoin => (.ok .done, table)

/-- A commit asserts that the nick has no route: the caller displaced the incumbent. -/
def step (s : System) : Op → Answer × System
  | .prepareWinningJoin m incumbentUid list row =>
    match s.table.prepareWinningJoin m incumbentUid list row with
    | (.error e, table) => (.error e, { s with table })
    | (.ok prepared, table) => (.ok (.answered prepared.isSome), ⟨table, prepared⟩)
  | .commitWinningJoin index =>
    match s.pending with
    | none => (.ok (.answered false), s)
    | some prepared =>
      if (s.table.nickNode prepared.row.nick).isSome then (.ok (.answered false), s)
      else (.ok (.answered true), ⟨s.table.commitWinningJoin prepared index, none⟩)
  | .abandonWinningJoin =>
    match s.pending with
    | none => (.ok .done, s)
    | some prepared => (.ok .done, ⟨s.table.abandonWinningJoin prepared, none⟩)
  | op =>
    let (answer, table) := tableStep loserUid s.table op
    (answer, { s with table })

end OnyxServer.Undertow
