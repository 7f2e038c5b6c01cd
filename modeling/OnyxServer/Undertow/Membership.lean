import OnyxServer.Lib.Trace
import OnyxServer.Undertow.Table

/-!
# Membership

Joins, parts, the winning join of a contest, the sweep of stale rows and the removal of a
node. The name that the loser of a contest is stored under is a parameter (`loserUid`, a
hash of node and nick).
-/
namespace OnyxServer.Undertow

section

open Lib Text

variable (loserUid : NodeId → Bytes → Bytes)

/-- What a preparer of an identity change is shown. -/
structure MembershipIdentityTransition where
  channel : Bytes
  nick : Bytes
  originNode : NodeId
  hlc : UInt64
  old : MemberIdentity
  new : MemberIdentity

structure MembershipIdentityPreparer where
  prepare : MembershipIdentityTransition → Except Error Unit
  onlyChanged : Bool

inductive ApplyOutcome where
  | joined
  | parted
  | statusChanged
  | unchanged
  deriving DecidableEq

instance instNeZeroStatus : NeZero 16 := inferInstance

structure ApplyResult where
  outcome : ApplyOutcome
  prevStatus : Fin 16
  deriving DecidableEq

/-- The arguments of `applyMembership`. -/
structure Membership where
  chan : Bytes
  nick : Bytes
  node : NodeId
  status : Fin 16
  hlc : UInt64
  present : Bool
  ident : MemberIdentity
  nowMs : Int

/-- The allocations of one application, by what they are for: the channel's roster, the
row, the route, the slot of the index, and the list and the marker of a part. -/
structure ApplyAllocs where
  list : Bool
  row : Bool
  route : Bool
  index : Bool
  tombList : Bool
  tomb : Bool
  uidTomb : Bool

def Membership.row (m : Membership) : Member :=
  { m.ident with
    nick := m.nick, node := m.node, status := m.status, hlc := m.hlc, lastRefreshedMs := m.nowMs }

namespace RouteTable

def validateMembership (table : RouteTable) (chan nick : Bytes) (node : NodeId) :
    Except Error Unit := do
  table.validateName chan
  table.validateName nick
  validateNode node

/-- A route kept best-effort, and the claim noted in the index. -/
def indexNick (table : RouteTable) (nick : Bytes) (node : NodeId) (hlc : UInt64)
    (a : ApplyAllocs) : RouteTable :=
  (table.setNickLocation nick node a.route).2.noteBestNickClaim nick ⟨node, hlc⟩ a.index

/-- Drops the row at `i` of the roster, with its channel when it was the last row. -/
def dropRow (table : RouteTable) (chan : Bytes) (list : List Member) (i : Nat) : RouteTable :=
  (table.setRoster chan (swapRemove list i)).pruneIfEmpty chan

/-- The end of a part: the row goes, and the route when the nick is on no roster. -/
def partRow (table : RouteTable) (chan : Bytes) (list : List Member) (i : Nat) (nick : Bytes)
    (index : Bool) : RouteTable :=
  let dropped := table.dropRow chan list i
  let unrouted := if (dropped.findMember nick).isNone then (dropped.removeNick nick).2 else dropped
  unrouted.reselectNick nick index

/-- The preparer's answer for a newer event of the row's own node. -/
def prepareIdentity (m : Membership) (cur : Member) (preparer : Option MembershipIdentityPreparer) :
    Except Error Unit :=
  match preparer with
  | none => .ok ()
  | some observer =>
    if cur.node ≠ m.node then .ok ()
    else if observer.onlyChanged ∧ cur.username = m.ident.username ∧ cur.host = m.ident.host then
      .ok ()
    else
      match observer.prepare
        { channel := m.chan, nick := cur.nick, originNode := m.node, hlc := m.hlc
          old := cur.toMemberIdentity, new := m.ident } with
      | .ok () => .ok ()
      | .error .publicIdentityProvenanceConflict => .error .publicIdentityProvenanceConflict
      | .error _ => .error .membershipPreparePending

/-- The branch of a nick that the roster holds at `i`. -/
def applyKnown (table : RouteTable) (m : Membership) (list : List Member) (i : Nat) (cur : Member)
    (preparer : Option MembershipIdentityPreparer) (a : ApplyAllocs) :
    Except Error ApplyResult × RouteTable :=
  if m.hlc ≤ cur.hlc then
    (.ok ⟨.unchanged, cur.status⟩,
      if m.present then
        table.setRoster m.chan (list.set i { cur with lastRefreshedMs := m.nowMs })
      else table)
  else if m.present then
    if !a.row then (.error .outOfMemory, table)
    else
      match prepareIdentity m cur preparer with
      | .error e => (.error e, table)
      | .ok () =>
        let written :=
          (table.setRoster m.chan (list.set i { m.row with nick := cur.nick })).clearPartTombstone
          m.chan m.nick m.node
        (.ok
          ⟨if cur.status ≠ m.status ∨ cur.node ≠ m.node then .statusChanged else .unchanged,
            cur.status⟩,
          written.indexNick m.nick m.node m.hlc a)
  else
    match table.notePartTombstone m.chan m.nick m.node m.hlc m.nowMs a.tombList a.tomb with
    | (.error e, table) => (.error e, table)
    | (.ok (), table) => (.ok ⟨.parted, cur.status⟩, table.partRow m.chan list i m.nick a.index)

/-- A part that removes no row still leaves its marker. -/
def noteForeignPart (table : RouteTable) (m : Membership) (a : ApplyAllocs) :
    Except Error ApplyResult × RouteTable :=
  match table.notePartTombstone m.chan m.nick m.node m.hlc m.nowMs a.tombList a.tomb with
  | (.error e, table) => (.error e, table)
  | (.ok (), table) => (.ok ⟨.unchanged, 0⟩, table)

/-- The same for an unknown member, whose roster the lookup may have created. -/
def noteUnknownPart (table : RouteTable) (m : Membership) (a : ApplyAllocs) :
    Except Error ApplyResult × RouteTable :=
  match table.notePartTombstone m.chan m.nick m.node m.hlc m.nowMs a.tombList a.tomb with
  | (.error e, table) => (.error e, table)
  | (.ok (), table) => (.ok ⟨.unchanged, 0⟩, table.pruneIfEmpty m.chan)

/-- A part of a nick that the roster does not hold: the row stored under the loser's name
goes, if there is one of the node's own. -/
def applyPartUnknown (table : RouteTable) (m : Membership) (list : List Member) (a : ApplyAllocs) :
    Except Error ApplyResult × RouteTable :=
  let uid := loserUid m.node m.nick
  match findRow list uid with
  | some (i, cur) =>
    if cur.node = m.node then
      if m.hlc ≤ cur.hlc then (.ok ⟨.unchanged, cur.status⟩, table)
      else
        match table.notePartTombstone m.chan m.nick m.node m.hlc m.nowMs a.tombList a.tomb with
        | (.error e, table) => (.error e, table)
        | (.ok (), table) =>
          match table.notePartTombstone m.chan uid m.node m.hlc m.nowMs true a.uidTomb with
          | (.error e, table) => (.error e, table)
          | (.ok (), table) => (.ok ⟨.parted, cur.status⟩, table.partRow m.chan list i uid a.index)
    else table.noteUnknownPart m a
  | none => table.noteUnknownPart m a

/-- A join of a nick that the roster does not hold. -/
def applyFreshJoin (table : RouteTable) (m : Membership) (list : List Member) (a : ApplyAllocs) :
    Except Error ApplyResult × RouteTable :=
  if table.partTombstoneBlocks m.chan m.nick m.node m.hlc then (.ok ⟨.unchanged, 0⟩, table)
  else if table.cfg.maxNicks ≤ list.length then (.error .routeTableFull, table)
  else if !a.row then (.error .outOfMemory, table)
  else
    let joined := (table.setRoster m.chan (list ++ [m.row])).clearPartTombstone m.chan m.nick m.node
    (.ok ⟨.joined, 0⟩, joined.indexNick m.nick m.node m.hlc a)

/-- A part of a nick whose row is another node's: it never removes that row. The nested
call names the loser's row, which it finds at once. -/
def applyForeignPart (table : RouteTable) (m : Membership) (list : List Member) (a : ApplyAllocs) :
    Except Error ApplyResult × RouteTable :=
  let uid := loserUid m.node m.nick
  match findRow list uid with
  | some (i, cur) =>
    if cur.node = m.node then
      match table.validateName uid with
      | .error e => (.error e, table)
      | .ok () => table.applyKnown { m with nick := uid } list i cur none a
    else table.noteForeignPart m a
  | none => table.noteForeignPart m a

def applyMembership (table : RouteTable) (m : Membership)
    (preparer : Option MembershipIdentityPreparer) (a : ApplyAllocs) :
    Except Error ApplyResult × RouteTable :=
  match table.validateMembership m.chan m.nick m.node with
  | .error e => (.error e, table)
  | .ok () =>
    match table.ensureMemberList m.chan a.list with
    | (.error e, table) => (.error e, table)
    | (.ok list, table) =>
      match findRow list m.nick with
      | some (i, cur) =>
        if !m.present && cur.node != m.node then table.applyForeignPart loserUid m list a
        else table.applyKnown m list i cur preparer a
      | none =>
        if m.present then table.applyFreshJoin m list a
        else table.applyPartUnknown loserUid m list a

/-! ## The winning join of a contest -/

end RouteTable

/-- A join that is funded but not applied. -/
structure PreparedWinningJoin where
  channel : Bytes
  row : Member
  createdList : Bool
  deriving DecidableEq

namespace RouteTable

/-- `list` and `row` are the allocations of the roster and of everything else. -/
def prepareWinningJoin (table : RouteTable) (m : Membership) (incumbentUid : Bytes)
    (list row : Bool) : Except Error (Option PreparedWinningJoin) × RouteTable :=
  match table.validateMembership m.chan m.nick m.node with
  | .error e => (.error e, table)
  | .ok () =>
    if table.partTombstoneBlocks m.chan m.nick m.node m.hlc then (.ok none, table)
    else
      let created := (table.channelMembers.lookup m.chan).isNone
      match table.ensureMemberList m.chan list with
      | (.error e, table) => (.error e, table)
      | (.ok roster, table) =>
        let unwound := if created then table.pruneIfEmpty m.chan else table
        if table.cfg.maxNicks ≤ roster.length then (.error .routeTableFull, unwound)
        else if table.cfg.maxNicks ≤ table.nickCount ∧ (table.nickNode incumbentUid).isNone then
          (.error .routeTableFull, unwound)
        else if !row then (.error .outOfMemory, unwound)
        else (.ok (some ⟨m.chan, m.row, created⟩), table)

/-- `commit`; the caller displaced the incumbent, so that the nick has no route. -/
def commitWinningJoin (table : RouteTable) (prepared : PreparedWinningJoin) (index : Bool) :
    RouteTable :=
  let row := prepared.row
  let joined := (table.setRoster prepared.channel
    (table.channelMembersOf prepared.channel ++ [row])).clearPartTombstone prepared.channel row.nick
      row.node
  { joined with
    nickToNode := joined.nickToNode.insert row.nick row.node
    nickCount := joined.nickCount + 1 }.noteBestNickClaim row.nick row.claim index

/-- `deinit` of a join that was not committed. -/
def abandonWinningJoin (table : RouteTable) (prepared : PreparedWinningJoin) : RouteTable :=
  if prepared.createdList then table.pruneIfEmpty prepared.channel else table

end RouteTable

end

/-!
## Sweeps

The loops that walk the rosters and take rows out of them: the sweep of stale rows, the
removal pass of a token reconcile and the removal of a departed node. A departure that
cannot be announced stops the walk, and what has left by then stays gone.
-/
section

open Lib Text

/-- The while loop over one roster. A row that goes is announced, then `depart` takes it
out; the row that takes its place is looked at next. -/
def sweepList (goes : Bytes → List Member → Member → Bool) (announced : Nat → Bool)
    (depart : RouteTable → Nat → Bytes → List Member → Nat → Member → RouteTable) (chan : Bytes) :
    Nat → Nat → Nat → RouteTable → Bool × Nat × RouteTable
  | 0, _, removed, table => (true, removed, table)
  | fuel + 1, i, removed, table =>
    let list := table.channelMembersOf chan
    match list[i]? with
    | none => (true, removed, table)
    | some member =>
      if goes chan list member then
        if !announced removed then (false, removed, table)
        else
          sweepList goes announced depart chan fuel i (removed + 1)
            (depart table removed chan list i member)
      else sweepList goes announced depart chan fuel (i + 1) removed table

/-- The walk over all rosters. -/
def sweep (goes : Bytes → List Member → Member → Bool) (announced : Nat → Bool)
    (depart : RouteTable → Nat → Bytes → List Member → Nat → Member → RouteTable) :
    List Bytes → Nat → RouteTable → Bool × Nat × RouteTable
  | [], removed, table => (true, removed, table)
  | chan :: chans, removed, table =>
    match sweepList goes announced depart chan
      (table.channelMembersOf chan).length 0 removed table with
    | (false, removed, table) => (false, removed, table)
    | (true, removed, table) => sweep goes announced depart chans removed table

def isStale (nowMs windowMs : Int) (member : Member) : Bool :=
  decide (windowMs < nowMs - member.lastRefreshedMs)

namespace RouteTable

/-- One stale row leaves. The index may lose its winner, so it is not read again before
the rebuild. -/
def departStale (table : RouteTable) (_ : Nat) (chan : Bytes) (list : List Member) (i : Nat)
    (member : Member) : RouteTable :=
  let dirty := { table with claimIndexDirty := true }
  let unrouted :=
    if dirty.memberNickOccurrences member.nick = 1 then (dirty.removeNick member.nick).2 else dirty
  unrouted.setRoster chan (swapRemove list i)

/-- The allocations of a sweep: of its two rebuilds, and whether an emptied list of
markers could be noted for removal. -/
structure PruneAllocs where
  rebuild : Nat → Bool
  retry : Nat → Bool
  forget : Bytes → Bool

def sweepTombs (table : RouteTable) (stale : PartTombstone → Bool) (forget : Bytes → Bool) :
    RouteTable :=
  let swept := HashMap.mapValues (fun _ list => swapSweep stale list.length 0 list)
    table.channelPartTombs
  { table with channelPartTombs := swept.keep fun chan list => !(list.isEmpty && forget chan) }

def tombCount (table : RouteTable) : Nat :=
  (table.channelPartTombs.entries.map fun e => e.2.length).sum

def rebuildIfDirty (table : RouteTable) (alloc : Nat → Bool) : RouteTable :=
  if table.claimIndexDirty then table.rebuildAllBestNickClaims alloc else table

def pruneStaleObserved (table : RouteTable) (nowMs windowMs : Int) (announced : Nat → Bool)
    (a : PruneAllocs) : Except Error Nat × RouteTable :=
  match sweep (fun _ _ member => isStale nowMs windowMs member) announced departStale
    table.channelMembers.keys 0 table with
  | (completed, pruned, table) =>
    let table := table.pruneEmpty.rebuildIfDirty a.rebuild
    if !completed then (.error .outOfMemory, table)
    else
      let swept :=
        table.sweepTombs (fun tomb => decide (windowMs < nowMs - tomb.stampedMs)) a.forget
      (.ok (pruned + (table.tombCount - swept.tombCount)), swept.rebuildIfDirty a.retry)

def pruneStale (table : RouteTable) (nowMs windowMs : Int) (a : PruneAllocs) :
    Except Error Nat × RouteTable :=
  table.pruneStaleObserved nowMs windowMs (fun _ => true) a

def removeNodeNicks (table : RouteTable) (node : NodeId) : RouteTable :=
  let kept := table.nickToNode.keep fun _ home => home != node
  { table with
    nickToNode := kept
    nickCount := table.nickCount - (table.nickToNode.count - kept.count) }

def dropNode (nodes : List NodeRef) (node : NodeId) : List NodeRef :=
  match nodes.findIdx? fun ref => decide (ref.id = node) with
  | none => nodes
  | some i => swapRemove nodes i

def removeNodeChannels (table : RouteTable) (node : NodeId) : RouteTable :=
  let left := (HashMap.mapValues (fun _ nodes => dropNode nodes node) table.channels).keep
    fun _ nodes => !nodes.isEmpty
  { table with
    channels := left
    channelCount := table.channelCount - (table.channels.count - left.count) }

def removeNodeMembers (table : RouteTable) (node : NodeId) (forget : Bytes → Bool) : RouteTable :=
  let swept := HashMap.mapValues
    (fun _ list => swapSweep (fun member => decide (member.node = node)) list.length 0 list)
    table.channelMembers
  { table with channelMembers := swept.keep fun chan list => !(list.isEmpty && forget chan) }

/-- The allocations of a removal: whether emptied rosters and lists of markers could be
noted, and of the rebuild. -/
structure RemoveAllocs where
  forget : Bytes → Bool
  forgetTombs : Bytes → Bool
  rebuild : Nat → Bool

def removeNode (table : RouteTable) (node : NodeId) (a : RemoveAllocs) : RouteTable :=
  let table := { table with claimIndexDirty := true }
  let table :=
    ((table.removeNodeNicks node).removeNodeChannels node).removeNodeMembers node a.forget
  (table.sweepTombs (fun tomb => decide (tomb.node = node)) a.forgetTombs).rebuildAllBestNickClaims
    a.rebuild

end RouteTable

end

end OnyxServer.Undertow
