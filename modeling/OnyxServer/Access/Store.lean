import OnyxServer.Access.CloakMatch
import OnyxServer.Access.Fact
import OnyxServer.Lib.Trace

/-!
# The ACCESS store

Rows and delete markers in insertion order, under a hybrid clock. Local writes are
stamped by the clock; facts of peers are merged by rank. An operation that allocates
takes whether its allocations succeed.
-/
namespace OnyxServer.Access

open Lib Text

def computeExpiry (now : UInt64) (duration : Option UInt64) : Option UInt64 :=
  match duration with
  | none => none
  | some d => if d = 0 then none else some (satAdd now d)

/-- The expiry of a timed write, from its stamp alone once the clock runs. -/
def anchoredExpiry (nowS hlc : UInt64) (duration : Option UInt64) : Option UInt64 :=
  match duration with
  | none => none
  | some d =>
    if d = 0 then none
    else if nowS = 0 then computeExpiry nowS (some d)
    else some (satAdd (hlc / 1000) d)

structure AccessStore where
  entries : List Entry
  tombstones : List Tombstone
  maxEntries : Nat
  maxTombstones : Nat
  tombstoneTtlSeconds : UInt64
  nowSeconds : UInt64
  localNode : UInt64
  hlc : UInt64
  deriving DecidableEq

inductive ApplyOutcome where
  | applied
  | deleted
  | stale
  deriving DecidableEq

inductive CopyMode where
  | merge
  | replace
  deriving DecidableEq

structure CopyResult where
  copied : Nat
  removed : Nat
  deriving DecidableEq

/-- The arguments of `upsert`. -/
structure Write where
  channel : Bytes
  level : Level
  mask : Bytes
  setBy : Bytes
  duration : Option UInt64
  hlc : UInt64
  originNode : UInt64
  proof : Option OriginProof

/-- The arguments of `recordTombstone`. -/
structure Mark where
  channel : Bytes
  level : Level
  mask : Bytes
  hlc : UInt64
  originNode : UInt64
  proof : Option OriginProof

def maxFutureHlcSkewMs : UInt64 := 5 * 60 * 1000

namespace AccessStore

def init (maxEntries maxTombstones : Nat) (tombstoneTtlSeconds localNode : UInt64) : AccessStore :=
  { entries := [], tombstones := [], maxEntries, maxTombstones, tombstoneTtlSeconds
    nowSeconds := 0, localNode, hlc := 0 }

def nextHlc (store : AccessStore) : UInt64 × AccessStore :=
  let hlc := max (satAdd store.hlc 1) (satMul store.nowSeconds 1000)
  (hlc, { store with hlc })

def observeHlc (store : AccessStore) (hlcValue : UInt64) : AccessStore :=
  { store with hlc := max store.hlc hlcValue }

/-- The duration to store for a local write, so that its expiry counts from the clock and
not from the stamp. -/
def stampDuration (store : AccessStore) (duration : Option UInt64) (stamp : UInt64) :
    Option UInt64 :=
  match duration with
  | none => none
  | some d =>
    if d = 0 ∨ store.nowSeconds = 0 then duration
    else
      let target := satAdd store.nowSeconds d
      let stampS := stamp / 1000
      some (if stampS < target then target - stampS else 1)

end AccessStore

def isExpiredAt (entry : Entry) (nowSeconds : UInt64) : Bool :=
  match entry.expiresAt with
  | none => false
  | some expiry => decide (expiry ≤ nowSeconds)

namespace AccessStore

def isExpired (store : AccessStore) (entry : Entry) : Bool := isExpiredAt entry store.nowSeconds

def findIndex (store : AccessStore) (channel : Bytes) (level : Level) (mask : Bytes) : Option Nat :=
  store.entries.findIdx? fun entry => entry.names channel level mask

def findTombstone (store : AccessStore) (channel : Bytes) (level : Level) (mask : Bytes) :
    Option Tombstone :=
  store.tombstones.find? fun marker => marker.names channel level mask

/-- A signed write adopts the identity octets it signed. -/
def upsert (store : AccessStore) (w : Write) (alloc : Bool) :
    Except StoreError Unit × AccessStore :=
  match store.findIndex w.channel w.level w.mask with
  | some idx =>
    match store.entries[idx]? with
    | none => (.ok (), store)
    | some row =>
      let adopt := w.proof.isSome && !(row.channel == w.channel && row.mask == w.mask)
      if !alloc then (.error .outOfMemory, store)
      else
        (.ok (), { store with
          entries := store.entries.set idx
            { row with
              channel := if adopt then w.channel else row.channel
              mask := if adopt then w.mask else row.mask
              setBy := w.setBy
              duration := w.duration
              expiresAt := anchoredExpiry store.nowSeconds w.hlc w.duration
              hlc := w.hlc
              originNode := w.originNode
              originProof := w.proof } })
  | none =>
    if store.maxEntries ≤ store.entries.length then (.error .tooManyEntries, store)
    else if !alloc then (.error .outOfMemory, store)
    else
      (.ok (), { store with
        entries := store.entries ++
          [{ channel := w.channel
             level := w.level
             mask := w.mask
             setBy := w.setBy
             duration := w.duration
             expiresAt := anchoredExpiry store.nowSeconds w.hlc w.duration
             hlc := w.hlc
             originNode := w.originNode
             originProof := w.proof }] })

/-- The first marker of the lowest rank. -/
def victim : Nat → List Tombstone → Nat → Tombstone → Nat
  | _, [], best, _ => best
  | idx, marker :: rest, best, lowest =>
    if ranksAbove lowest.hlc lowest.originNode marker.hlc marker.originNode then
      victim (idx + 1) rest idx marker
    else victim (idx + 1) rest best lowest

def evictOldestTombstone (store : AccessStore) : AccessStore :=
  match store.tombstones with
  | [] => store
  | first :: _ =>
    { store with tombstones := store.tombstones.eraseIdx (victim 0 store.tombstones 0 first) }

def recordTombstone (store : AccessStore) (m : Mark) (alloc : Bool) :
    Except StoreError Unit × AccessStore :=
  match store.tombstones.findIdx? fun marker => marker.names m.channel m.level m.mask with
  | some idx =>
    match store.tombstones[idx]? with
    | none => (.ok (), store)
    | some marker =>
      if !ranksAbove m.hlc m.originNode marker.hlc marker.originNode then (.ok (), store)
      else
        let adopt := m.proof.isSome && !(marker.channel == m.channel && marker.mask == m.mask)
        if adopt && !alloc then (.error .outOfMemory, store)
        else
          (.ok (), { store with
            tombstones := store.tombstones.set idx
              { marker with
                channel := if adopt then m.channel else marker.channel
                mask := if adopt then m.mask else marker.mask
                hlc := m.hlc
                originNode := m.originNode
                recordedAt := store.nowSeconds
                originProof := m.proof } })
  | none =>
    if store.maxTombstones = 0 then (.error .tooManyEntries, store)
    else if !alloc then (.error .outOfMemory, store)
    else
      let store :=
        if store.maxTombstones ≤ store.tombstones.length then store.evictOldestTombstone else store
      if store.maxTombstones ≤ store.tombstones.length then (.error .tooManyEntries, store)
      else
        (.ok (), { store with
          tombstones := store.tombstones ++
            [{ channel := m.channel
               level := m.level
               mask := m.mask
               hlc := m.hlc
               originNode := m.originNode
               recordedAt := store.nowSeconds
               originProof := m.proof }] })

def dropTombstone (store : AccessStore) (channel : Bytes) (level : Level) (mask : Bytes) :
    AccessStore :=
  match store.tombstones.findIdx? fun marker => marker.names channel level mask with
  | none => store
  | some idx => { store with tombstones := store.tombstones.eraseIdx idx }

def removeRow (store : AccessStore) (idx : Nat) : AccessStore :=
  { store with entries := store.entries.eraseIdx idx }

/-- The loop of `clear` and of `pruneExpired`: every selected row is removed and leaves the
marker `mark`; a marker that cannot be recorded is given up. The row and its marker lie in
different arrays, so their order does not show. -/
def sweepRows (selects : Entry → Bool) (mark : Entry → Mark) (alloc : Nat → Bool) :
    Nat → Nat → Nat → AccessStore → Nat × AccessStore
  | 0, _, removed, store => (removed, store)
  | fuel + 1, idx, removed, store =>
    match store.entries[idx]? with
    | none => (removed, store)
    | some row =>
      if selects row then
        sweepRows selects mark alloc fuel idx (removed + 1)
          ((store.recordTombstone (mark row) (alloc removed)).2.removeRow idx)
      else sweepRows selects mark alloc fuel (idx + 1) removed store

def pruneTombstones (store : AccessStore) : Nat × AccessStore :=
  if store.nowSeconds = 0 then (0, store)
  else
    let kept := store.tombstones.filter fun marker =>
      !decide (store.tombstoneTtlSeconds ≤ satSub store.nowSeconds marker.recordedAt)
    (store.tombstones.length - kept.length, { store with tombstones := kept })

/-- The marker of a lapsed row carries the row's own stamp. -/
def lapseMark (row : Entry) : Mark :=
  { channel := row.channel, level := row.level, mask := row.mask, hlc := row.hlc
    originNode := row.originNode, proof := none }

def pruneExpired (store : AccessStore) (alloc : Nat → Bool) : Nat × AccessStore :=
  let (removedRows, store) :=
    sweepRows store.isExpired lapseMark alloc store.entries.length 0 0 store
  let (removedMarkers, store) := store.pruneTombstones
  (removedRows + removedMarkers, store)

def localMark (stamp localNode : UInt64) (row : Entry) : Mark :=
  { channel := row.channel, level := row.level, mask := row.mask, hlc := stamp
    originNode := localNode, proof := none }

def validateTarget (channel mask : Bytes) : Except StoreError Unit := do
  validateChannel channel
  validateMask maxMaskBytes mask

def validateAdd (channel mask setBy : Bytes) : Except StoreError Unit := do
  validateTarget channel mask
  validateSetBy setBy

def add (store : AccessStore) (channel : Bytes) (level : Level) (mask setBy : Bytes)
    (duration : Option UInt64) (alloc : Bool) : Except StoreError Unit × AccessStore :=
  match validateAdd channel mask setBy with
  | .error e => (.error e, store)
  | .ok () =>
    let stamp := store.nextHlc.1
    let store := store.nextHlc.2
    match store.upsert
      { channel, level, mask, setBy, duration := store.stampDuration duration stamp, hlc := stamp
        originNode := store.localNode, proof := none } alloc with
    | (.error e, store) => (.error e, store)
    | (.ok (), store) => (.ok (), store.dropTombstone channel level mask)

def remove (store : AccessStore) (channel : Bytes) (level : Level) (mask : Bytes) (alloc : Bool) :
    Except StoreError Bool × AccessStore :=
  match validateTarget channel mask with
  | .error e => (.error e, store)
  | .ok () =>
    let stamp := store.nextHlc.1
    let store := store.nextHlc.2
    let mark : Mark :=
      { channel, level, mask, hlc := stamp, originNode := store.localNode, proof := none }
    match store.findIndex channel level mask with
    | none => (.ok false, (store.recordTombstone mark alloc).2)
    | some idx => (.ok true, (store.recordTombstone mark alloc).2.removeRow idx)

def clear (store : AccessStore) (selector : Selector) (alloc : Nat → Bool) :
    Except StoreError Nat × AccessStore :=
  match validateSelector selector with
  | .error e => (.error e, store)
  | .ok () =>
    let stamp := store.nextHlc.1
    let store := store.nextHlc.2
    let (removed, store) :=
      sweepRows selector.matches (localMark stamp store.localNode) alloc store.entries.length 0 0
        store
    (.ok removed, store)

/-- The fact is refused before its stamp reaches the clock. -/
def tooFarAhead (store : AccessStore) (hlc : UInt64) : Bool :=
  decide (store.nowSeconds ≠ 0) &&
    decide (satAdd (satMul store.nowSeconds 1000) maxFutureHlcSkewMs < hlc)

/-- A timed fact whose lifetime is over already. -/
def originLapsed (store : AccessStore) (fact : RemoteFact) : Bool :=
  decide (store.nowSeconds ≠ 0) && fact.present &&
    (anchoredExpiry store.nowSeconds fact.hlc fact.duration).any (· ≤ store.nowSeconds)

/-- A row reproduces every field of a signed fact that is present. -/
def entryProof (fact : RemoteFact) : Option OriginProof :=
  if fact.present then fact.originProof else none

/-- A marker keeps neither setter nor duration. -/
def markerProof (fact : RemoteFact) : Option OriginProof :=
  if !fact.present && decide (fact.setBy.length = 0) && fact.duration.isNone then fact.originProof
  else none

def factMark (fact : RemoteFact) : Mark :=
  { channel := fact.channel, level := fact.level, mask := fact.mask, hlc := fact.hlc
    originNode := fact.originNode, proof := markerProof fact }

def factWrite (fact : RemoteFact) : Write :=
  { channel := fact.channel, level := fact.level, mask := fact.mask, setBy := fact.setBy
    duration := fact.duration, hlc := fact.hlc, originNode := fact.originNode
    proof := entryProof fact }

def validateFact (fact : RemoteFact) : Except StoreError Unit := do
  validateTarget fact.channel fact.mask
  if fact.present then validateSetBy fact.setBy

/-- The end of a merge that stores the fact. -/
def mergeRow (store : AccessStore) (fact : RemoteFact) (alloc : Bool) :
    Except StoreError ApplyOutcome × AccessStore :=
  match store.upsert (factWrite fact) alloc with
  | (.error e, store) => (.error e, store)
  | (.ok (), store) => (.ok .applied, store.dropTombstone fact.channel fact.level fact.mask)

/-- The end of a merge that leaves a marker and removes the row at `idx`, if there is one. -/
def mergeDelete (store : AccessStore) (fact : RemoteFact) (idx : Option Nat) (alloc : Bool) :
    Except StoreError ApplyOutcome × AccessStore :=
  match store.recordTombstone (factMark fact) alloc with
  | (.error e, store) => (.error e, store)
  | (.ok (), store) =>
    match idx with
    | some idx => (.ok .deleted, store.removeRow idx)
    | none => (.ok .deleted, store)

/-- The merge of an admitted fact, once its stamp is observed. -/
def merge (store : AccessStore) (fact : RemoteFact) (lapsed alloc : Bool) :
    Except StoreError ApplyOutcome × AccessStore :=
  let ranks := ranksAbove fact.hlc fact.originNode
  let idx := store.findIndex fact.channel fact.level fact.mask
  if (store.findTombstone fact.channel fact.level fact.mask).any fun marker =>
      !ranks marker.hlc marker.originNode then (.ok .stale, store)
  else if (idx.bind (store.entries[·]?)).any fun current =>
      !ranks current.hlc current.originNode then (.ok .stale, store)
  else if !fact.present || lapsed then store.mergeDelete fact idx alloc
  else store.mergeRow fact alloc

def applyRemote (store : AccessStore) (fact : RemoteFact) (alloc : Bool) :
    Except StoreError ApplyOutcome × AccessStore :=
  match validateFact fact with
  | .error e => (.error e, store)
  | .ok () =>
    if store.tooFarAhead fact.hlc then (.error .futureHlc, store)
    else (store.observeHlc fact.hlc).merge fact (store.originLapsed fact) alloc

def reanchorTimedExpiries (store : AccessStore) : Nat × AccessStore :=
  if store.nowSeconds = 0 then (0, store)
  else
    let anchored := fun entry : Entry => anchoredExpiry store.nowSeconds entry.hlc entry.duration
    (store.entries.countP fun entry => anchored entry != entry.expiresAt,
      { store with entries :=
        store.entries.map fun entry => { entry with expiresAt := anchored entry } })

/-- What is left of a row's lifetime. -/
def remainingDuration (store : AccessStore) (entry : Entry) : Option UInt64 :=
  match entry.expiresAt with
  | none => none
  | some expiresAt =>
    if store.nowSeconds = 0 then entry.duration
    else if expiresAt ≤ store.nowSeconds then some 1
    else some (expiresAt - store.nowSeconds)

def stagedRow (store : AccessStore) (destination : Bytes) (entry : Entry) : Entry :=
  { channel := destination, level := entry.level, mask := entry.mask, setBy := entry.setBy
    duration := store.remainingDuration entry, expiresAt := entry.expiresAt, hlc := 0
    originNode := 0, originProof := none }

def copyRows (destination : Bytes) (alloc : Nat → Bool) :
    List Entry → Nat → AccessStore → Except StoreError Nat × AccessStore
  | [], copied, store => (.ok copied, store)
  | row :: staged, copied, store =>
    let stamp := store.nextHlc.1
    let store := store.nextHlc.2
    match store.upsert
      { channel := destination, level := row.level, mask := row.mask, setBy := row.setBy
        duration := store.stampDuration row.duration stamp, hlc := stamp
        originNode := store.localNode, proof := none } (alloc copied) with
    | (.error e, store) => (.error e, store)
    | (.ok (), store) =>
      copyRows destination alloc staged (copied + 1)
        (store.dropTombstone destination row.level row.mask)

/-- The rows that a copy takes from the source channel. -/
def template (store : AccessStore) (source : Bytes) : List Entry :=
  store.entries.filter fun entry => !store.isExpired entry && eqlIgnoreCase entry.channel source

/-- The allocations of a copy: for the markers of the clear, for the snapshot and for the rows. -/
structure CopyAllocs where
  clear : Nat → Bool
  stage : Bool
  write : Nat → Bool

def clearFirst (store : AccessStore) (destination : Bytes) (mode : CopyMode) (alloc : Nat → Bool) :
    Except StoreError Nat × AccessStore :=
  match mode with
  | .replace => store.clear ⟨destination, none, none⟩ alloc
  | .merge => (.ok 0, store)

def copyTemplate (store : AccessStore) (destination source : Bytes) (removed : Nat)
    (allocs : CopyAllocs) : Except StoreError CopyResult × AccessStore :=
  let incoming := (store.template source).countP fun entry =>
    (store.findIndex destination entry.level entry.mask).isNone
  if store.maxEntries < store.entries.length + incoming then (.error .tooManyEntries, store)
  else if !allocs.stage && !(store.template source).isEmpty then (.error .outOfMemory, store)
  else
    match copyRows destination allocs.write
      ((store.template source).map (store.stagedRow destination))
      0 store with
    | (.error e, store) => (.error e, store)
    | (.ok copied, store) => (.ok ⟨copied, removed⟩, store)

def validateCopy (destination source : Bytes) : Except StoreError Unit := do
  validateChannel destination
  validateChannel source
  if eqlIgnoreCase destination source then .error .invalidChannel else .ok ()

def copyFrom (store : AccessStore) (destination source : Bytes) (mode : CopyMode)
    (allocs : CopyAllocs) : Except StoreError CopyResult × AccessStore :=
  match validateCopy destination source with
  | .error e => (.error e, store)
  | .ok () =>
    match store.clearFirst destination mode allocs.clear with
    | (.error e, store) => (.error e, store)
    | (.ok removed, store) => store.copyTemplate destination source removed allocs

def signedEntry (nowSeconds : UInt64) (entry : Entry) : Option SignedFact :=
  match entry.originProof with
  | none => none
  | some proof =>
    if isExpiredAt entry nowSeconds then none
    else
      some
        { present := true, channel := entry.channel, level := entry.level, mask := entry.mask
          setBy := entry.setBy, duration := entry.duration, hlc := entry.hlc
          originNode := entry.originNode, proof }

def signedMarker (marker : Tombstone) : Option SignedFact :=
  match marker.originProof with
  | none => none
  | some proof =>
    some
      { present := false, channel := marker.channel, level := marker.level, mask := marker.mask
        setBy := [], duration := none, hlc := marker.hlc, originNode := marker.originNode, proof }

/-- The retained signed facts: live rows first, then markers. -/
def signedFacts (store : AccessStore) (nowSeconds : UInt64) : List SignedFact :=
  store.entries.filterMap (signedEntry nowSeconds) ++ store.tombstones.filterMap signedMarker

/-- The live rows that the selector names. -/
def selectedRows (store : AccessStore) (selector : Selector) : List Entry :=
  store.entries.filter fun entry => !store.isExpired entry && selector.matches entry

/-- `outLen` is the room in the caller's buffer. -/
def listMatching (store : AccessStore) (selector : Selector) (outLen : Nat) :
    Except StoreError (List EntryView) :=
  match validateSelector selector with
  | .error e => .error e
  | .ok () =>
    if outLen < (store.selectedRows selector).length then .error .outputTooSmall
    else .ok ((store.selectedRows selector).map Entry.view)

def list (store : AccessStore) (channel : Bytes) (outLen : Nat) :
    Except StoreError (List EntryView) :=
  store.listMatching ⟨channel, none, none⟩ outLen

/-- The first row of the highest precedence. -/
def bestRow : List Entry → Option Entry → Option Entry
  | [], best => best
  | entry :: rest, best =>
    if best.all fun row => decide (row.level.precedence < entry.level.precedence) then
      bestRow rest (some entry)
    else bestRow rest best

/-- The live rows of the channel whose mask matches. -/
def matchingRows (store : AccessStore) (derive : Derivation) (channel hostmask : Bytes)
    (ctx : Option CloakContext) (nowSeconds : UInt64) : List Entry :=
  store.entries.filter fun entry =>
    !isExpiredAt entry nowSeconds && eqlIgnoreCase entry.channel channel &&
      cloakMatch derive entry.mask hostmask ctx

def matchHostmaskWithCloakAt (store : AccessStore) (derive : Derivation) (channel hostmask : Bytes)
    (ctx : Option CloakContext) (nowSeconds : UInt64) : Except StoreError (Option EntryView) :=
  match validateChannel channel, validateObservedHostmask hostmask with
  | .error e, _ => .error e
  | .ok (), .error e => .error e
  | .ok (), .ok () =>
    .ok ((bestRow (store.matchingRows derive channel hostmask ctx nowSeconds) none).map Entry.view)

end AccessStore

inductive Op where
  | setClock (nowSeconds : UInt64)
  | add (channel : Bytes) (level : Level) (mask setBy : Bytes) (duration : Option UInt64)
      (alloc : Bool)
  | remove (channel : Bytes) (level : Level) (mask : Bytes) (alloc : Bool)
  | clear (selector : Selector) (alloc : Nat → Bool)
  | copyFrom (destination source : Bytes) (mode : CopyMode) (allocs : AccessStore.CopyAllocs)
  | applyRemote (fact : RemoteFact) (alloc : Bool)
  | pruneExpired (alloc : Nat → Bool)
  | reanchorTimedExpiries

inductive Reply where
  | done
  | removed (found : Bool)
  | counted (count : Nat)
  | copied (result : CopyResult)
  | outcome (outcome : ApplyOutcome)
  deriving DecidableEq

abbrev Answer := Except StoreError Reply

def step (store : AccessStore) : Op → Answer × AccessStore
  | .setClock nowSeconds => (.ok .done, { store with nowSeconds })
  | .add channel level mask setBy duration alloc =>
    let (answer, store) := store.add channel level mask setBy duration alloc
    (answer.map fun _ => .done, store)
  | .remove channel level mask alloc =>
    let (answer, store) := store.remove channel level mask alloc
    (answer.map .removed, store)
  | .clear selector alloc =>
    let (answer, store) := store.clear selector alloc
    (answer.map .counted, store)
  | .copyFrom destination source mode allocs =>
    let (answer, store) := store.copyFrom destination source mode allocs
    (answer.map .copied, store)
  | .applyRemote fact alloc =>
    let (answer, store) := store.applyRemote fact alloc
    (answer.map .outcome, store)
  | .pruneExpired alloc =>
    let (count, store) := store.pruneExpired alloc
    (.ok (.counted count), store)
  | .reanchorTimedExpiries =>
    let (count, store) := store.reanchorTimedExpiries
    (.ok (.counted count), store)

/-- The fact that an operation delivers. -/
def Op.delivered : Op → Option RemoteFact
  | .applyRemote fact _ => some fact
  | _ => none

theorem delivered_eq {op : Op} {fact : RemoteFact} (h : op.delivered = some fact) :
    ∃ alloc, op = .applyRemote fact alloc := by
  cases op with
  | applyRemote given alloc =>
    cases h
    exact ⟨alloc, rfl⟩
  | _ => cases h

end OnyxServer.Access
