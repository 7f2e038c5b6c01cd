import OnyxServer.Undertow.Membership

/-!
# Renames

The four ways a nick moves: a node's own rename, a rename that displaces the incumbent,
the rename of all rows of one session and the reconcile of a session's rows with its
signed projection. What a rename needs is allocated before the first row moves.
-/
namespace OnyxServer.Undertow

open Lib Text

variable (loserUid : NodeId → Bytes → Bytes)

namespace RouteTable

def mapRows (table : RouteTable) (f : List Member → List Member) : RouteTable :=
  { table with channelMembers := HashMap.mapValues (fun _ list => f list) table.channelMembers }

def validateNames (table : RouteTable) : List Bytes → Except Error Unit
  | [] => .ok ()
  | name :: names => do
    table.validateName name
    table.validateNames names

/-- The keys of two nicks are reselected, one key once. -/
def reselectTwo (table : RouteTable) (old new : Bytes) (index indexNew : Bool) : RouteTable :=
  let table := table.reselectNick old index
  if nickKey new = nickKey old then table else table.reselectNick new indexNew

end RouteTable

/-- The row of a roster that a plain rename moves. -/
def planned (old : Bytes) (node : NodeId) (list : List Member) : Option (Nat × Member) :=
  (findRow list old).filter fun (_, member) => decide (member.node = node)

def Member.renamed (member : Member) (new : Bytes) (ident : MemberIdentity) : Member :=
  { member with
    nick := new, username := ident.username, realname := ident.realname, host := ident.host }

def renamePlanned (old new : Bytes) (node : NodeId) (ident : MemberIdentity) (list : List Member) :
    List Member :=
  match planned old node list with
  | some (i, member) => list.set i (member.renamed new ident)
  | none => list

namespace RouteTable

/-- The route moves with the rows; a route the new nick has already is replaced. -/
def moveRoute (table : RouteTable) (old new : Bytes) (node : NodeId) : RouteTable :=
  let left := table.nickToNode.erase old
  { table with
    nickToNode := (left.erase new).insert new node
    nickCount := if (left.lookup new).isSome then table.nickCount - 1 else table.nickCount }

/-- A route of either nick, or a row of the new one, is another node's. -/
def refusesRename (table : RouteTable) (old new : Bytes) (node : NodeId) : Bool :=
  (table.nickNode old).any (· != node) || (table.nickNode new).any (· != node) ||
    table.rows.any fun m => m.node != node && eqlIgnoreCase m.nick new

/-- The node has neither a route nor a row to move. -/
def nothingMoves (table : RouteTable) (old : Bytes) (node : NodeId) : Bool :=
  (table.nickNode old).isNone &&
    !(table.channelMembers.entries.any fun e => (planned old node e.2).isSome)

/-- What a rename does that goes through. -/
def applyRename (table : RouteTable) (old new : Bytes) (node : NodeId) (ident : MemberIdentity) :
    RouteTable :=
  let routed := if (table.nickNode old).isSome then table.moveRoute old new node else table
  (routed.mapRows (renamePlanned old new node ident)).reselectTwo old new true true

/-- `copies` are the allocations of the two names, `plans` all that follow. -/
def renameNick (table : RouteTable) (old new : Bytes) (node : NodeId) (ident : MemberIdentity)
    (copies plans : Bool) : Except Error Bool × RouteTable :=
  match table.validateName new with
  | .error e => (.error e, table)
  | .ok () =>
    if table.refusesRename old new node then (.ok false, table)
    else if !copies then (.error .outOfMemory, table)
    else if table.nothingMoves old node then (.ok false, table)
    else if !plans then (.error .outOfMemory, table)
    else (.ok true, table.applyRename old new node ident)

end RouteTable

/-- The arguments of `renameNickDisplacing`. -/
structure Displacing where
  node : NodeId
  oldNick : Bytes
  newNick : Bytes
  token : Option SessionToken
  ident : MemberIdentity
  incumbentNode : NodeId
  incumbentUid : Bytes

namespace Displacing

variable (d : Displacing)

/-- A session's rows match ignoring case, others exactly. -/
def sameNick (nick wanted : Bytes) : Bool :=
  if d.token.isSome then eqlIgnoreCase nick wanted else decide (nick = wanted)

def isExactOld (m : Member) : Bool := decide (m.node = d.node) && d.sameNick m.nick d.oldNick

def isIncumbent (m : Member) : Bool :=
  decide (m.node = d.incumbentNode) && d.sameNick m.nick d.newNick

/-- The row stands in the way of the transaction. -/
def conflicts (m : Member) : Bool :=
  if d.isExactOld m then d.token.isSome && m.sessionToken.isSome && m.sessionToken != d.token
  else if d.isIncumbent m then false
  else eqlIgnoreCase m.nick d.newNick || eqlIgnoreCase m.nick d.incumbentUid

def moved (m : Member) : Member :=
  if d.isExactOld m then
    let renamed := m.renamed d.newNick d.ident
    if d.token.isSome then
      { renamed with
        sessionToken := d.token
        account := d.ident.account
        accountTrusted := d.ident.accountTrusted }
    else renamed
  else if d.isIncumbent m then { m with nick := d.incumbentUid }
  else m

end Displacing

namespace RouteTable

def validateDisplacing (table : RouteTable) (d : Displacing) : Except Error Unit := do
  table.validateNames [d.newNick, d.incumbentUid]
  validateNode d.node
  validateNode d.incumbentNode

/-- The transaction is refused: a home or a row does not fit. -/
def refusesDisplacing (table : RouteTable) (d : Displacing) : Bool :=
  decide (d.node = d.incumbentNode) || (table.nickNode d.oldNick).any (· != d.node) ||
    decide (table.nickNode d.newNick ≠ some d.incumbentNode) ||
    (table.nickNode d.incumbentUid).any (· != d.incumbentNode) || table.rows.any d.conflicts ||
    !(table.rows.any d.isExactOld || (table.nickNode d.oldNick).isSome)

def projectedCount (table : RouteTable) (d : Displacing) : Nat :=
  table.nickCount - (table.nickNode d.oldNick).isSome.toNat - 1 + 1 +
    (table.nickNode d.incumbentUid).isNone.toNat

def displaceRoutes (table : RouteTable) (d : Displacing) : RouteTable :=
  let left := (table.nickToNode.erase d.oldNick).erase d.newNick
  let taken := left.insert d.newNick d.node
  { table with
    nickToNode :=
      if (table.nickNode d.incumbentUid).isNone then taken.insert d.incumbentUid d.incumbentNode
      else taken
    nickCount := table.projectedCount d }

def applyDisplacing (table : RouteTable) (d : Displacing) : RouteTable :=
  let moved := (table.displaceRoutes d).mapRows (·.map d.moved)
  ((moved.reselectNick d.oldNick true).reselectNick d.newNick true).reselectNick d.incumbentUid true

/-- `staged` are the allocations of the rows, `reserved` those of routes and index. -/
def renameNickDisplacing (table : RouteTable) (d : Displacing) (staged reserved : Bool) :
    Except Error Bool × RouteTable :=
  match table.validateDisplacing d with
  | .error e => (.error e, table)
  | .ok () =>
    if table.refusesDisplacing d then (.ok false, table)
    else if !staged then (.error .outOfMemory, table)
    else if table.cfg.maxNicks < table.projectedCount d then (.error .routeTableFull, table)
    else if !reserved then (.error .outOfMemory, table)
    else (.ok true, table.applyDisplacing d)

end RouteTable

/-- The arguments of `renameSessionTokenRows`. -/
structure SessionRename where
  token : SessionToken
  node : NodeId
  oldNick : Bytes
  newNick : Bytes
  ident : Option MemberIdentity
  bindUntagged : Bool

/-- The allocations of a session rename, and whether it could be announced. -/
structure SessionAllocs where
  copy : Bool
  names : Bool
  route : Bool
  announced : Bool
  index : Bool
  indexNew : Bool

namespace SessionRename

variable (r : SessionRename)

def sameIdentity (m : Member) : Bool :=
  decide (m.node = r.node) && eqlIgnoreCase m.nick r.oldNick

/-- The row moves. -/
def takes (m : Member) : Bool :=
  r.sameIdentity m &&
    (match m.sessionToken with
      | some stored => decide (stored = r.token)
      | none => r.bindUntagged)

/-- A row of the identity carries another token where untagged rows are bound. -/
def contradicts (m : Member) : Bool :=
  r.bindUntagged && r.sameIdentity m && m.sessionToken.any (· != r.token)

/-- A row that moves finds another one under the new nick in its roster. -/
def occupied (list : List Member) : Bool :=
  list.zipIdx.any fun (m, i) => r.takes m && (find list r.newNick).any (· != i)

def moved (m : Member) : Member :=
  if r.takes m then
    let bound := if r.bindUntagged then { m with nick := r.newNick, sessionToken := some r.token }
      else { m with nick := r.newNick }
    match r.ident with
    | none => bound
    | some ident =>
      { bound.renamed r.newNick ident with
        account := ident.account, accountTrusted := ident.accountTrusted }
  else m

end SessionRename

namespace RouteTable

def removesOldRoute (table : RouteTable) (r : SessionRename) : Bool :=
  decide (table.nickNode r.oldNick = some r.node)

def installsNewRoute (table : RouteTable) (r : SessionRename) : Bool :=
  (table.nickNode r.newNick).isNone &&
    (table.removesOldRoute r || decide (table.nickCount < table.cfg.maxNicks))

def sessionRoutes (table : RouteTable) (r : SessionRename) : RouteTable :=
  let left := if table.removesOldRoute r then table.nickToNode.erase r.oldNick else table.nickToNode
  { table with
    nickToNode := if table.installsNewRoute r then left.insert r.newNick r.node else left
    nickCount :=
      if table.removesOldRoute r && !table.installsNewRoute r then table.nickCount - 1
      else if !table.removesOldRoute r && table.installsNewRoute r then table.nickCount + 1
      else table.nickCount }

def applySession (table : RouteTable) (r : SessionRename) (a : SessionAllocs) : RouteTable :=
  ((table.sessionRoutes r).mapRows (·.map r.moved)).reselectTwo r.oldNick r.newNick a.index
    a.indexNew

/-- A row contradicts the rename or has no room for it, or none moves. -/
def refusesSession (table : RouteTable) (r : SessionRename) : Bool :=
  (table.channelMembers.entries.any fun e => e.2.any r.contradicts || r.occupied e.2) ||
    !table.rows.any r.takes

def renameSessionTokenRows (table : RouteTable) (r : SessionRename) (a : SessionAllocs) :
    Except Error Bool × RouteTable :=
  match table.validateName r.newNick with
  | .error e => (.error e, table)
  | .ok () =>
    if !a.copy then (.error .outOfMemory, table)
    else if table.refusesSession r then (.ok false, table)
    else if !a.names then (.error .outOfMemory, table)
    else if (table.nickNode r.newNick).any (· != r.node) then (.ok false, table)
    else if table.installsNewRoute r && !a.route then (.error .outOfMemory, table)
    else if !a.announced then (.error .outOfMemory, table)
    else (.ok true, table.applySession r a)

def renameNickBindingSessionToken (table : RouteTable) (node : NodeId) (old new : Bytes)
    (token : SessionToken) (ident : MemberIdentity) (a : SessionAllocs) :
    Except Error Bool × RouteTable :=
  table.renameSessionTokenRows ⟨token, node, old, new, some ident, true⟩ a

def rebindSessionToken (table : RouteTable) (node : NodeId) (wireNick : Bytes)
    (token : Option SessionToken) : Except Error Nat × RouteTable :=
  match table.validateName wireNick, validateNode node with
  | .error e, _ => (.error e, table)
  | .ok (), .error e => (.error e, table)
  | .ok (), .ok () =>
    let bound := fun m : Member => decide (m.node = node) &&
      (eqlIgnoreCase m.nick wireNick || eqlIgnoreCase m.nick (loserUid node wireNick)) &&
      m.sessionToken != token
    (.ok (table.rows.countP bound),
      table.mapRows (·.map fun m => if bound m then { m with sessionToken := token } else m))

end RouteTable

/-! ## The reconcile of a session -/

/-- What the daemon answers about its own clients. -/
structure LocalNickResolver where
  held : Bytes → Bool
  sessionToken : Bytes → Option SessionToken

def channelInSet (channel : Bytes) (channels : List Bytes) : Bool :=
  channels.any fun candidate => eqlIgnoreCase channel candidate

/-- The arguments of `reconcileSessionTokenObserved`. -/
structure Reconcile where
  token : SessionToken
  desiredNick : Option Bytes
  desiredChannels : List Bytes
  resolver : Option LocalNickResolver

structure ReconcileAllocs where
  rename : Nat → SessionAllocs
  announced : Nat → Bool
  index : Nat → Bool
  route : Nat → Bool

structure ReconcileResult where
  removed : Nat
  renamed : Nat
  deriving DecidableEq

namespace Reconcile

variable (r : Reconcile)

/-- The desired nick is held by this very session on the local side. -/
def localCanonical : Bool :=
  match r.desiredNick, r.resolver with
  | some nick, some resolver => resolver.held nick &&
      decide (resolver.sessionToken nick = some r.token)
  | _, _ => false

/-- A local client that is not this session holds the nick. -/
def heldElsewhere (nick : Bytes) : Bool :=
  match r.resolver with
  | none => false
  | some resolver => resolver.held nick && decide (resolver.sessionToken nick ≠ some r.token)

end Reconcile

namespace RouteTable

def contested (table : RouteTable) (r : Reconcile) (node : NodeId) (nick : Bytes) : Bool :=
  (table.nickNode nick).any (· != node) ||
    table.rows.any (fun m => m.node != node && eqlIgnoreCase m.nick nick) || r.heldElsewhere nick

def reconciledNickTarget (table : RouteTable) (r : Reconcile) (node : NodeId) (nick : Bytes) :
    Bytes :=
  if table.contested r node nick then loserUid node nick else nick

/-- A row of the session under an obsolete nick. -/
def isObsolete (table : RouteTable) (r : Reconcile) (nick : Bytes) (m : Member) : Bool :=
  let uid := loserUid m.node nick
  decide (m.sessionToken = some r.token) && !eqlIgnoreCase m.nick nick &&
    !(eqlIgnoreCase m.nick uid &&
      eqlIgnoreCase (table.reconciledNickTarget loserUid r m.node nick) uid)

def findCandidate (table : RouteTable) (r : Reconcile) (nick : Bytes) : Option Member :=
  (table.channelMembers.entries.filter fun e => channelInSet e.1 r.desiredChannels).findSome?
    fun e => e.2.find? (table.isObsolete loserUid r nick)

/-- The rename pass, one identity after the other. -/
def renamePass (r : Reconcile) (nick : Bytes) (a : Nat → SessionAllocs) :
    Nat → Nat → RouteTable → Except Error Nat × RouteTable
  | 0, renamed, table => (.ok renamed, table)
  | fuel + 1, renamed, table =>
    match table.findCandidate loserUid r nick with
    | none => (.ok renamed, table)
    | some m =>
      match table.renameSessionTokenRows
        ⟨r.token, m.node, m.nick, table.reconciledNickTarget loserUid r m.node nick, none, false⟩
        (a renamed) with
      | (.error e, table) => (.error e, table)
      | (.ok false, table) => (.error .routeTableFull, table)
      | (.ok true, table) => renamePass r nick a fuel (renamed + 1) table

end RouteTable

/-- The row keeps the nick that the session is to have. -/
def Reconcile.nickMatches (r : Reconcile) (list : List Member) (m : Member) : Bool :=
  match r.desiredNick with
  | none => false
  | some nick =>
    !r.localCanonical &&
      (eqlIgnoreCase m.nick nick ||
        (eqlIgnoreCase m.nick (loserUid m.node nick) &&
          !(((find list nick).bind (list[·]?)).any fun canonical =>
            decide (canonical.sessionToken = some r.token))))

def Reconcile.retires (r : Reconcile) (chan : Bytes) (list : List Member) (m : Member) : Bool :=
  decide (m.sessionToken = some r.token) &&
    !(r.nickMatches loserUid list m && channelInSet chan r.desiredChannels)

namespace RouteTable

/-- One row of the session leaves. Its route goes with the last occurrence of the nick or
when it points at the row; then the best row that is left is given the route. -/
def departRetired (a : ReconcileAllocs) (table : RouteTable) (removed : Nat) (chan : Bytes)
    (list : List Member) (i : Nat) (m : Member) : RouteTable :=
  let points := decide (table.nickNode m.nick = some m.node)
  let last := decide (table.memberNickOccurrences m.nick = 1)
  let unrouted := if last || points then (table.removeNick m.nick).2 else table
  let dropped := unrouted.setRoster chan (swapRemove list i)
  match nickKey m.nick with
  | none => dropped
  | some key =>
    let reselected := dropped.reselectBestNickKey key (a.index removed)
    if !last && points then
      match reselected.bestMemberForNickKey key with
      | none => reselected
      | some survivor =>
        (reselected.setNickLocation survivor.nick survivor.node (a.route removed)).2
    else reselected

/-- The rename pass, left out without a desired nick and where the nick is local. -/
def reconcileRenames (table : RouteTable) (r : Reconcile) (a : ReconcileAllocs) :
    Except Error Nat × RouteTable :=
  match r.desiredNick with
  | none => (.ok 0, table)
  | some nick =>
    if r.localCanonical then (.ok 0, table)
    else renamePass loserUid r nick a.rename (table.rows.length + 1) 0 table

def validateDesired (table : RouteTable) (r : Reconcile) : Except Error Unit :=
  match r.desiredNick with
  | none => .ok ()
  | some nick => table.validateName nick

def reconcileSessionTokenObserved (table : RouteTable) (r : Reconcile) (a : ReconcileAllocs) :
    Except Error ReconcileResult × RouteTable :=
  match table.validateDesired r with
  | .error e => (.error e, table)
  | .ok () =>
    match table.reconcileRenames loserUid r a with
    | (.error e, table) => (.error e, table)
    | (.ok renamed, table) =>
      match sweep (r.retires loserUid) a.announced (departRetired a) table.channelMembers.keys 0
        table with
      | (false, _, table) => (.error .outOfMemory, table)
      | (true, removed, table) => (.ok ⟨removed, renamed⟩, table.pruneEmpty)

end RouteTable

end OnyxServer.Undertow
