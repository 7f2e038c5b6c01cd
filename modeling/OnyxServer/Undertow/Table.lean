import Mathlib.Data.Prod.Lex
import OnyxServer.Lib.HashMap
import OnyxServer.Lib.Search
import OnyxServer.Text.Ascii

/-!
# The route table

`route_table.zig`: per channel the roster of remote members, the delete markers of their
parts and the node fan-out; per nick the node a private message is sent to; an index of
the best claim to every nick; and the channel facts of the last writer. A step that
allocates takes whether its allocations succeed.
-/
namespace OnyxServer.Undertow

open Lib Text

abbrev NodeId := UInt64
abbrev SessionToken := FixedBytes 16

def maxNickLen : Nat := 64
def maxMaskLen : Nat := 512
def maxSetterLen : Nat := 256

inductive Error where
  | outOfMemory
  | channelFanoutFull
  | invalidConfig
  | invalidName
  | invalidNode
  | memberCountOverflow
  | routeTableFull
  | membershipPreparePending
  | publicIdentityProvenanceConflict
  deriving DecidableEq

structure Config where
  maxNicks : Nat
  maxChannels : Nat
  maxNodesPerChannel : Nat
  maxNameLen : Nat
  deriving DecidableEq

def Config.validate (cfg : Config) : Except Error Unit :=
  if cfg.maxNicks = 0 ∨ cfg.maxChannels = 0 ∨ cfg.maxNodesPerChannel = 0 ∨ cfg.maxNameLen = 0 then
    .error .invalidConfig
  else .ok ()

structure NickClaim where
  nodeId : NodeId
  hlc : UInt64
  deriving DecidableEq

/-- The higher clock wins, then the higher node. -/
def higherPriority (candidate incumbent : NickClaim) : Bool :=
  if candidate.hlc ≠ incumbent.hlc then decide (incumbent.hlc < candidate.hlc)
  else decide (incumbent.nodeId < candidate.nodeId)

abbrev Priority := UInt64 ×ₗ UInt64

def NickClaim.priority (claim : NickClaim) : Priority := toLex (claim.hlc, claim.nodeId)

@[simp] theorem higherPriority_iff {candidate incumbent : NickClaim} :
    higherPriority candidate incumbent = true ↔ incumbent.priority < candidate.priority := by
  rw [NickClaim.priority, NickClaim.priority, Prod.Lex.toLex_lt_toLex, higherPriority]
  by_cases h : candidate.hlc = incumbent.hlc
  · simp [h]
  · simp [h, Ne.symm h]

theorem priority_inj {a b : NickClaim} (h : a.priority = b.priority) : a = b := by
  obtain ⟨hhlc, hnode⟩ := Prod.mk.inj (toLex.injective h)
  cases a
  cases b
  exact congrArg₂ _ hnode hhlc

/-- A nick within the bound of the wire, with its case folded. -/
abbrev NickKey := Bytes

def nickKey (nick : Bytes) : Option NickKey :=
  if nick.length = 0 ∨ maxNickLen < nick.length then none else some (lowerString nick)

structure MemberIdentity where
  username : Bytes
  realname : Bytes
  host : Bytes
  account : Bytes
  accountTrusted : Bool
  realHost : Bytes
  certfp : Bytes
  sessionToken : Option SessionToken
  deriving DecidableEq

def MemberIdentity.unknown : MemberIdentity :=
  { username := [], realname := [], host := [], account := [], accountTrusted := false
    realHost := [], certfp := [], sessionToken := none }

structure Member extends MemberIdentity where
  nick : Bytes
  node : NodeId
  status : Fin 16
  hlc : UInt64
  lastRefreshedMs : Int
  deriving DecidableEq

def Member.claim (member : Member) : NickClaim := ⟨member.node, member.hlc⟩

/-- The first row with exactly this nick. -/
def find (list : List Member) (nick : Bytes) : Option Nat :=
  list.findIdx? fun member => decide (member.nick = nick)

/-- That row with its position. -/
def findRow (list : List Member) (nick : Bytes) : Option (Nat × Member) :=
  (find list nick).bind fun i => (list[i]?).map (i, ·)

structure PartTombstone where
  nick : Bytes
  node : NodeId
  hlc : UInt64
  stampedMs : Int
  deriving DecidableEq

structure NodeRef where
  id : NodeId
  members : UInt32
  deriving DecidableEq

inductive ListKind where
  | ban
  | exempt
  | invex
  | quiet
  deriving DecidableEq

structure ChannelListEntry where
  kind : ListKind
  mask : Bytes
  setter : Bytes
  setAt : Int
  originNode : NodeId
  hlc : UInt64
  present : Bool
  deriving DecidableEq

structure ChannelModeFlags where
  flags : UInt16
  originNode : NodeId
  hlc : UInt64
  deriving DecidableEq

structure TopicClock where
  originNode : NodeId
  hlc : UInt64
  topic : Bytes
  setter : Bytes
  setAt : Int
  present : Bool
  deriving DecidableEq

structure RouteTable where
  cfg : Config
  nickToNode : HashMap Bytes NodeId
  bestNickClaims : HashMap NickKey NickClaim
  claimIndexDirty : Bool
  channels : HashMap Bytes (List NodeRef)
  channelMembers : HashMap Bytes (List Member)
  channelPartTombs : HashMap Bytes (List PartTombstone)
  channelModeFlags : HashMap Bytes ChannelModeFlags
  channelLists : HashMap Bytes (List ChannelListEntry)
  channelTopics : HashMap Bytes TopicClock
  nickCount : Nat
  channelCount : Nat
  listChannelCount : Nat

namespace RouteTable

def empty (cfg : Config) : RouteTable :=
  { cfg, nickToNode := ∅, bestNickClaims := ∅, claimIndexDirty := false, channels := ∅
    channelMembers := ∅, channelPartTombs := ∅, channelModeFlags := ∅, channelLists := ∅
    channelTopics := ∅, nickCount := 0, channelCount := 0, listChannelCount := 0 }

def init (cfg : Config) : Except Error RouteTable := do
  cfg.validate
  pure (empty cfg)

def clear (table : RouteTable) : RouteTable := empty table.cfg

def validateName (table : RouteTable) (name : Bytes) : Except Error Unit :=
  if name.length = 0 ∨ table.cfg.maxNameLen < name.length then .error .invalidName else .ok ()

end RouteTable

def validateNode (node : NodeId) : Except Error Unit :=
  if node = 0 then .error .invalidNode else .ok ()

namespace RouteTable

def nickNode (table : RouteTable) (nick : Bytes) : Option NodeId := table.nickToNode.lookup nick

def setNickLocation (table : RouteTable) (nick : Bytes) (node : NodeId) (alloc : Bool) :
    Except Error Unit × RouteTable :=
  match table.validateName nick, validateNode node with
  | .error e, _ => (.error e, table)
  | .ok (), .error e => (.error e, table)
  | .ok (), .ok () =>
    if (table.nickNode nick).isSome then
      (.ok (), { table with nickToNode := table.nickToNode.insert nick node })
    else if table.nickCount = table.cfg.maxNicks then (.error .routeTableFull, table)
    else if !alloc then (.error .outOfMemory, table)
    else
      (.ok (), { table with
        nickToNode := table.nickToNode.insert nick node
        nickCount := table.nickCount + 1 })

def removeNick (table : RouteTable) (nick : Bytes) : Bool × RouteTable :=
  if (table.nickNode nick).isSome then
    (true, { table with
      nickToNode := table.nickToNode.erase nick
      nickCount := table.nickCount - 1 })
  else (false, table)

def rows (table : RouteTable) : List Member := table.channelMembers.entries.flatMap (·.2)

def rowsNamed (table : RouteTable) (nick : Bytes) : List Member :=
  table.rows.filter fun member => eqlIgnoreCase member.nick nick

def findMember (table : RouteTable) (nick : Bytes) : Option Member :=
  table.rows.find? fun member => eqlIgnoreCase member.nick nick

def memberNickOccurrences (table : RouteTable) (nick : Bytes) : Nat := (table.rowsNamed nick).length

end RouteTable

/-- The first row of the highest priority. -/
def bestRow (rows : List Member) : Option Member :=
  rows.foldl (fun best member =>
    if best.all fun row => higherPriority member.claim row.claim then some member else best) none

structure Claim extends NickClaim where
  account : Bytes
  deriving DecidableEq

namespace RouteTable

def identityNickClaim (table : RouteTable) (nick : Bytes) : Option Claim :=
  (bestRow (table.rowsNamed nick)).map fun member =>
    { toNickClaim := member.claim
      account := if member.accountTrusted then member.account else [] }

def projectedIdentityNickClaim (table : RouteTable) (nick : Bytes) : Option NickClaim :=
  (table.identityNickClaim nick).map Claim.toNickClaim

def rowsOfKey (table : RouteTable) (key : NickKey) : List Member :=
  table.rows.filter fun member => decide (nickKey member.nick = some key)

def scannedBestNickKey (table : RouteTable) (key : NickKey) : Option NickClaim :=
  (bestRow (table.rowsOfKey key)).map Member.claim

def bestMemberForNickKey (table : RouteTable) (key : NickKey) : Option Member :=
  match table.scannedBestNickKey key with
  | none => none
  | some best => (table.rowsOfKey key).find? fun member => decide (member.claim = best)

def noteBestNickClaim (table : RouteTable) (nick : Bytes) (claim : NickClaim) (alloc : Bool) :
    RouteTable :=
  match nickKey nick with
  | none => table
  | some key =>
    if table.claimIndexDirty then table
    else
      match table.bestNickClaims.lookup key with
      | some current =>
        if higherPriority claim current then
          { table with bestNickClaims := table.bestNickClaims.insert key claim }
        else table
      | none =>
        if table.cfg.maxNicks ≤ table.bestNickClaims.count ∨ !alloc then
          { table with claimIndexDirty := true }
        else { table with bestNickClaims := table.bestNickClaims.insert key claim }

def reselectBestNickKey (table : RouteTable) (key : NickKey) (alloc : Bool) : RouteTable :=
  if table.claimIndexDirty then table
  else
    match table.scannedBestNickKey key with
    | some claim =>
      if (table.bestNickClaims.lookup key).isSome then
        { table with bestNickClaims := table.bestNickClaims.insert key claim }
      else if table.cfg.maxNicks ≤ table.bestNickClaims.count ∨ !alloc then
        { table with claimIndexDirty := true }
      else { table with bestNickClaims := table.bestNickClaims.insert key claim }
    | none => { table with bestNickClaims := table.bestNickClaims.erase key }

/-- Reselects the key of a nick that has one. -/
def reselectNick (table : RouteTable) (nick : Bytes) (alloc : Bool) : RouteTable :=
  match nickKey nick with
  | none => table
  | some key => table.reselectBestNickKey key alloc

end RouteTable

/-- One pass over the rows; false when it stops at the bound or for want of memory. -/
def refold (maxNicks : Nat) (alloc : Nat → Bool) :
    List Member → HashMap NickKey NickClaim → Bool × HashMap NickKey NickClaim
  | [], claims => (true, claims)
  | member :: rows, claims =>
    match nickKey member.nick with
    | none => refold maxNicks alloc rows claims
    | some key =>
      match claims.lookup key with
      | some current =>
        if higherPriority member.claim current then
          refold maxNicks alloc rows (claims.insert key member.claim)
        else refold maxNicks alloc rows claims
      | none =>
        if maxNicks ≤ claims.count ∨ !alloc claims.count then (false, claims)
        else refold maxNicks alloc rows (claims.insert key member.claim)

namespace RouteTable

def rebuildAllBestNickClaims (table : RouteTable) (alloc : Nat → Bool) : RouteTable :=
  let (done, claims) := refold table.cfg.maxNicks alloc table.rows ∅
  { table with bestNickClaims := claims, claimIndexDirty := !done }

def bestNickClaim (table : RouteTable) (nick : Bytes) : Option NickClaim :=
  match nickKey nick with
  | none => table.projectedIdentityNickClaim nick
  | some key =>
    if table.claimIndexDirty then table.scannedBestNickKey key else table.bestNickClaims.lookup key

/-! ## Rosters and markers by channel -/

def ensureMemberList (table : RouteTable) (chan : Bytes) (alloc : Bool) :
    Except Error (List Member) × RouteTable :=
  match table.channelMembers.lookup chan with
  | some list => (.ok list, table)
  | none =>
    if !alloc then (.error .outOfMemory, table)
    else (.ok [], { table with channelMembers := table.channelMembers.insert chan [] })

def setRoster (table : RouteTable) (chan : Bytes) (list : List Member) : RouteTable :=
  { table with channelMembers := table.channelMembers.insert chan list }

def pruneIfEmpty (table : RouteTable) (chan : Bytes) : RouteTable :=
  if table.channelMembers.lookup chan = some [] then
    { table with channelMembers := table.channelMembers.erase chan }
  else table

def pruneEmpty (table : RouteTable) : RouteTable :=
  { table with channelMembers := table.channelMembers.keep fun _ list => !list.isEmpty }

def channelMembersOf (table : RouteTable) (chan : Bytes) : List Member :=
  (table.channelMembers.lookup chan).getD []

end RouteTable

def findTomb (list : List PartTombstone) (nick : Bytes) (node : NodeId) : Option Nat :=
  list.findIdx? fun tomb => decide (tomb.node = node ∧ tomb.nick = nick)

/-- The first marker with the oldest stamp. -/
def oldest : Nat → List PartTombstone → Nat → Int → Nat
  | _, [], best, _ => best
  | i, tomb :: rest, best, oldestMs =>
    if tomb.stampedMs < oldestMs then oldest (i + 1) rest i tomb.stampedMs
    else oldest (i + 1) rest best oldestMs

def evictOldest (maxNicks : Nat) (list : List PartTombstone) : List PartTombstone :=
  match list with
  | [] => list
  | first :: _ =>
    if maxNicks ≤ list.length then swapRemove list (oldest 0 list 0 first.stampedMs) else list

namespace RouteTable

/-- `ensure` is the allocation of the channel's list, `alloc` the one of the marker. -/
def notePartTombstone (table : RouteTable) (chan nick : Bytes) (node : NodeId) (hlc : UInt64)
    (nowMs : Int) (ensure alloc : Bool) : Except Error Unit × RouteTable :=
  let known := table.channelPartTombs.lookup chan
  if known.isNone && !ensure then (.error .outOfMemory, table)
  else
    let list := known.getD []
    match (findTomb list nick node).bind fun i => (list[i]?).map (i, ·) with
    | some (i, tomb) =>
      (.ok (), { table with
        channelPartTombs := table.channelPartTombs.insert chan
          (list.set i { tomb with stampedMs := nowMs, hlc := max tomb.hlc hlc }) })
    | none =>
      let list := evictOldest table.cfg.maxNicks list
      if !alloc then
        (.error .outOfMemory,
          { table with channelPartTombs := table.channelPartTombs.insert chan list })
      else
        (.ok (), { table with
          channelPartTombs := table.channelPartTombs.insert chan
            (list ++ [{ nick, node, hlc, stampedMs := nowMs }]) })

def partTombstoneBlocks (table : RouteTable) (chan nick : Bytes) (node : NodeId) (hlc : UInt64) :
    Bool :=
  let list := (table.channelPartTombs.lookup chan).getD []
  ((findTomb list nick node).bind (list[·]?)).any fun tomb => decide (hlc ≤ tomb.hlc)

def clearPartTombstone (table : RouteTable) (chan nick : Bytes) (node : NodeId) : RouteTable :=
  match table.channelPartTombs.lookup chan with
  | none => table
  | some list =>
    match findTomb list nick node with
    | none => table
    | some i =>
      let rest := swapRemove list i
      { table with
        channelPartTombs :=
          if rest.isEmpty then table.channelPartTombs.erase chan
          else table.channelPartTombs.insert chan rest }

end RouteTable

end OnyxServer.Undertow
