import OnyxServer.Delta.MemberCompact
import OnyxServer.Lib.Search

/-!
# Member payloads

A member of a channel has its live adds and the causal context that it was seen by. The
payload is the dense delta view, every dot of the context written out, unless that exceeds
a bound of the codec; then it is the compact form.
-/
namespace OnyxServer.Delta

open Lib

/-- A frontier of at most 65 replicas. -/
structure VersionVector where
  entries : List VersionEntry
  bounded : entries.length ≤ 65

def VersionVector.counter (vv : VersionVector) (replica : UInt64) : UInt64 :=
  match vv.entries.find? fun entry => entry.replica == replica with
  | some entry => entry.counter
  | none => 0

structure MemberAdd where
  dot : Dot
  hlc : Hlc
  status : UInt8
  deriving DecidableEq

structure MemberEntry where
  memberId : UInt64
  adds : List MemberAdd
  context : VersionVector

def codecLimits : Limits where
  maxWireBytes := 4096
  maxEntityBytes := 8
  maxValueBytes := 32
  maxContextDots := 512
  maxAdds := 128
  maxAddDots := 128
  maxRemoveDots := 512
  maxDotsPerAdd := 1

/-- The buffer that the summaries and the repairs encode into. -/
def maxMemberPayload : Nat := max codecLimits.maxWireBytes.toNat MemberCompact.maxBytes

def encodeAddValue (add : MemberAdd) : MemberCompact.AddValue :=
  ⟨leBytes 8 add.dot.replica.toNat ++
    (leBytes 8 add.dot.counter.toNat ++ (leBytes 8 add.hlc.toU64.toNat ++ [add.status])),
    by simp⟩

/-- Appends the last `remaining` dots of an entry. -/
def expandEntry (entry : VersionEntry) : Nat → List Dot → Except CodecError (List Dot)
  | 0, context => .ok context
  | remaining + 1, context =>
    if context.length = codecLimits.maxContextDots.toNat then .error .oversize
    else expandEntry entry remaining
      (context ++ [⟨entry.replica, UInt64.ofNat (entry.counter.toNat - remaining)⟩])

def expandEntries : List VersionEntry → List Dot → Except CodecError (List Dot)
  | [], context => .ok context
  | entry :: rest, context => do
    let context' ← expandEntry entry entry.counter.toNat context
    expandEntries rest context'

def sortDots (dots : List Dot) : List Dot := sortByKey id dots

def fillContext (view : DeltaView) (vv : VersionVector) : Except CodecError DeltaView := do
  let context ← expandEntries vv.entries view.context
  pure { view with context := sortDots context }

/-- The adds, their dots and their values, in step. -/
structure AddArrays where
  adds : List Add
  addDots : List Dot
  values : List Bytes

/-- Whether the add at `j` is below the one before it. -/
def AddArrays.less (arrays : AddArrays) (j : Nat) : Bool :=
  match arrays.adds[j]?, arrays.adds[j - 1]? with
  | some add, some before => decide (add.value < before.value)
  | _, _ => false

def AddArrays.swapBack (arrays : AddArrays) (j : Nat) : AddArrays :=
  let adds := swapAt arrays.adds (j - 1) j
  let values := swapAt arrays.values (j - 1) j
  let adds := adds.modify j fun add => { add with value := values.getD j [], dotsStart := j }
  let adds :=
    adds.modify (j - 1) fun add => { add with value := values.getD (j - 1) [], dotsStart := j - 1 }
  ⟨adds, swapAt arrays.addDots (j - 1) j, values⟩

def sinkAdd : Nat → AddArrays → AddArrays
  | 0, arrays => arrays
  | j + 1, arrays => if arrays.less (j + 1) then sinkAdd j (arrays.swapBack (j + 1)) else arrays

def sortAddsLoop : Nat → Nat → AddArrays → AddArrays
  | 0, _, arrays => arrays
  | fuel + 1, i, arrays => sortAddsLoop fuel (i + 1) (sinkAdd i arrays)

def sortAdds (arrays : AddArrays) : AddArrays := sortAddsLoop (arrays.adds.length - 1) 1 arrays

def fillAdds (view : DeltaView) (adds : List MemberAdd) : Except CodecError DeltaView :=
  if codecLimits.maxAdds.toNat < adds.length then .error .oversize
  else
    let arrays :=
      sortAdds ⟨adds.mapIdx fun idx add => ⟨(encodeAddValue add).val, idx, 1⟩, adds.map (·.dot),
      adds.map fun add => (encodeAddValue add).val⟩
    .ok { view with adds := arrays.adds, addDots := arrays.addDots }

def dotEql (a b : Dot) : Bool := a.replica == b.replica && a.counter == b.counter

def liveContains (view : DeltaView) (dot : Dot) : Bool :=
  view.addDots.any fun candidate => dotEql candidate dot

def removesLoop (view : DeltaView) : List Dot → List Dot → Except CodecError (List Dot)
  | [], removes => .ok removes
  | dot :: rest, removes =>
    if liveContains view dot then removesLoop view rest removes
    else if removes.length = codecLimits.maxRemoveDots.toNat then .error .oversize
    else removesLoop view rest (removes ++ [dot])

def fillRemoves (view : DeltaView) : Except CodecError DeltaView := do
  let removes ← removesLoop view view.context []
  pure { view with removes := removes }

variable (capacity : Nat) (hlc : Hlc) (entry : MemberEntry)

def emptyMemberView : DeltaView :=
  ⟨.memberships, leBytes 8 entry.memberId.toNat, hlc, [], [], [], []⟩

def encodeMemberDense : Except CodecError Bytes := do
  let withContext ← fillContext (emptyMemberView hlc entry) entry.context
  let withAdds ← fillAdds withContext entry.adds
  let view ← fillRemoves withAdds
  view.encode codecLimits capacity

def encodeMemberCompact : Except CodecError Bytes := do
  ensure (entry.context.entries.length ≤ MemberCompact.maxContext) .oversize
  ensure (entry.adds.length ≤ MemberCompact.maxAdds) .oversize
  MemberCompact.encode capacity entry.memberId hlc.toU64 entry.context.entries
    (entry.adds.map encodeAddValue)

/-- The dense form, or the compact one when a bound is exceeded. -/
def encodeMemberPayload : Except CodecError Bytes :=
  match encodeMemberDense capacity hlc entry with
  | .ok dense => .ok dense
  | .error .oversize => encodeMemberCompact capacity hlc entry
  | .error e => .error e

end OnyxServer.Delta
