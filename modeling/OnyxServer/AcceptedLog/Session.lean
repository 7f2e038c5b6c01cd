import OnyxServer.AcceptedLog.Sealed
import OnyxServer.Lib.Trace

/-!
# Runs of the accepted-event log

A session is a log with the token its caller holds, if any. Its operations are the
public calls of the log, each allowed to fail, and a restart through a checkpoint.
Every session reached from an empty log is well formed.
-/
namespace OnyxServer.AcceptedLog

open Lib
open Relay.V2 (RelayId PublicKey Crypto)

structure Session where
  log : EventLog
  pending : Option (Request × Token)
  deriving DecidableEq

inductive Op where
  | prepare (request : Request) (alloc : Allocator)
  | commit
  | abort
  /-- Prepare and commit in one call. -/
  | perform (request : Request) (alloc : Allocator)
  | collect (targetNode : UInt64) (room : Nat) (alloc : Allocator)
  /-- Seal, restore, and go on with the restored log. -/
  | reseal (alloc : Allocator)

inductive Answer where
  | failed (e : Error)
  | conflict
  | ready
  | done (request : Request) (outcome : Outcome)
  | page (targetNode : UInt64) (items : List PageItem)
  | resealed
  | idle
  deriving DecidableEq

/-- The calls that prepare and commit at once. -/
def EventLog.perform (crypto : Crypto) (log : EventLog) (alloc : Allocator) :
    Request → Except Error Outcome × EventLog
  | .accept relayId wire acceptingNode ingressNode requiredNodes =>
    match log.reserveAccepted crypto relayId wire acceptingNode ingressNode requiredNodes alloc with
    | (.error e, log) => (.error e, log)
    | (.ok outcome, log) => (.ok (.reserved outcome), log)
  | .confirm relayId node =>
    match log.confirmAuthenticatedDurableAck relayId node alloc with
    | (.error e, log) => (.error e, log)
    | (.ok outcome, log) => (.ok (.confirmed outcome), log)
  | .retire node =>
    match log.prepareConfiguredNodeRetirement node with
    | (.error e, log) => (.error e, log)
    | (.ok prepared, log) => (.ok (.retired (prepared.commit log).1), (prepared.commit log).2)

section Calls

variable (crypto : Crypto) (session : Session)

def Session.prepare (request : Request) (alloc : Allocator) : Answer × Session :=
  match session.log.prepare crypto alloc request with
  | (.error e, log) => (.failed e, { session with log })
  | (.ok none, log) => (.conflict, { session with log })
  | (.ok (some token), log) => (.ready, { log, pending := some (request, token) })

def Session.commit : Answer × Session :=
  match session.pending with
  | none => (.idle, session)
  | some (request, token) =>
    (.done request (token.commit session.log).1,
      { log := (token.commit session.log).2, pending := none })

def Session.abort : Answer × Session :=
  match session.pending with
  | none => (.idle, session)
  | some _ => (.idle, { log := session.log.abortPrepare, pending := none })

def Session.perform (request : Request) (alloc : Allocator) : Answer × Session :=
  match session.log.perform crypto alloc request with
  | (.error e, log) => (.failed e, { session with log })
  | (.ok outcome, log) => (.done request outcome, { session with log })

def Session.collect (targetNode : UInt64) (room : Nat) (alloc : Allocator) : Answer × Session :=
  match session.log.collectPageForNode targetNode room alloc with
  | (.error e, log) => (.failed e, { session with log })
  | (.ok items, log) => (.page targetNode items, { session with log })

def Session.reseal (alloc : Allocator) : Answer × Session :=
  match session.log.encodeCheckpoint crypto alloc with
  | .error e => (.failed e, session)
  | .ok bytes =>
    match EventLog.decodeCheckpoint crypto session.log.config bytes (fun n => alloc (n + 1)) with
    | .error e => (.failed e, session)
    | .ok log => (.resealed, { session with log })

end Calls

def Op.run (crypto : Crypto) (session : Session) : Op → Answer × Session
  | .prepare request alloc => session.prepare crypto request alloc
  | .commit => session.commit
  | .abort => session.abort
  | .perform request alloc => session.perform crypto request alloc
  | .collect targetNode room alloc => session.collect targetNode room alloc
  | .reseal alloc => session.reseal crypto alloc

/-- The session a run of operations ends in. -/
def runFrom (crypto : Crypto) (session : Session) (ops : List Op) : Session :=
  final (fun session op => op.run crypto session) session ops

/-- The steps of a run, oldest first. -/
def stepsOf (crypto : Crypto) (session : Session) (ops : List Op) :
    List (Visit Session Op Answer) :=
  visits (fun session op => op.run crypto session) session ops

/-- The open preparation, if any, is the one the caller holds, and it still fits. -/
structure Session.Wf (crypto : Crypto) (session : Session) : Prop where
  log : session.log.Wf crypto
  idle : session.pending = none → session.log.preparedActive = false
  open_ : ∀ request token, session.pending = some (request, token) →
    session.log.preparedActive = true ∧ token.Fits crypto session.log request

/-- The answer reports no change of custody and hands out no row. -/
def Answer.Silent : Answer → Prop
  | .done (.accept ..) (.reserved .conflict) => True
  | .done _ _ => False
  | .page _ items => items = []
  | _ => True

/-- What one operation of a well-formed session can do to the tables. -/
inductive Session.Step (crypto : Crypto) (session : Session) : Answer → Session → Prop where
  | quiet {answer : Answer} {session' : Session} (silent : answer.Silent)
    (rows : session'.log.rows = session.log.rows)
    (cursors : session'.log.cursors = session.log.cursors)
    (config : session'.log.config = session.log.config) : Step crypto session answer session'
  | done {request : Request} {outcome : Outcome} {session' : Session}
    (committed : Committed crypto request outcome session.log session'.log) :
    Step crypto session (.done request outcome) session'
  | page {targetNode : UInt64} {room : Nat} {start : PublicKey} {visited : List Row}
    {session' : Session}
    (collected : Collected crypto targetNode room start visited session.log session'.log) :
    Step crypto session (.page targetNode (pageOf targetNode visited)) session'

section Step

variable {crypto : Crypto} {session : Session}

theorem Token.Fits.activate {log : EventLog} {request : Request} {token : Token} {active : Bool}
    (h : token.Fits crypto log request) :
    token.Fits crypto { log with preparedActive := active } request := by
  cases h with
  | duplicate => exact .duplicate
  | exclude hrows hout hnot room => exact .exclude hrows hout hnot ⟨room.aggregate, room.body⟩
  | insert wf hwire hrequired hconfirmed habsent hfresh hslot room =>
    exact .insert wf hwire hrequired hconfirmed habsent hfresh hslot ⟨room.aggregate, room.body⟩
  | confirmed hmem hid hconf => exact .confirmed hmem hid hconf
  | confirm hrows hout hmore room =>
    exact .confirm hrows hout hmore fun hex => ⟨(room hex).aggregate, (room hex).body⟩
  | last hrows hout => exact .last hrows hout
  | retire => exact .retire

theorem Committed.activate {request : Request} {outcome : Outcome} {log log' : EventLog}
    {active : Bool}
    (h : Committed crypto request outcome { log with preparedActive := active } log') :
    Committed crypto request outcome log log' :=
  ⟨h.wf, h.idle, h.config, h.effect, h.cursors⟩

/-- A call that prepares and commits is its preparation followed by its commit. -/
theorem perform_eq (log : EventLog) (alloc : Allocator) (request : Request) :
    log.perform crypto alloc request =
      match log.prepare crypto alloc request with
      | (.error e, log) => (.error e, log)
      | (.ok none, log) => (.ok (.reserved .conflict), log)
      | (.ok (some token), log) => (.ok (token.commit log).1, (token.commit log).2) := by
  cases request with
  | accept relayId wire acceptingNode ingressNode requiredNodes =>
    simp only [EventLog.perform, EventLog.prepare, EventLog.reserveAccepted]
    rcases log.prepareAccepted crypto relayId wire acceptingNode ingressNode requiredNodes
      alloc with
      ⟨_ | (prepared | _), log'⟩ <;> rfl
  | confirm relayId node =>
    simp only [EventLog.perform, EventLog.prepare, EventLog.confirmAuthenticatedDurableAck]
    rcases log.prepareAuthenticatedDurableAck relayId node alloc with ⟨_ | prepared, log'⟩ <;> rfl
  | retire node =>
    simp only [EventLog.perform, EventLog.prepare]
    rcases log.prepareConfiguredNodeRetirement node with ⟨_ | prepared, log'⟩ <;> rfl

section

variable (h : session.Wf crypto)
include h

theorem run_prepare (request : Request) (alloc : Allocator) :
    (session.prepare crypto request alloc).2.Wf crypto ∧
      session.Step crypto (session.prepare crypto request alloc).1
        (session.prepare crypto request alloc).2 := by
  unfold Session.prepare
  rcases prepare_cases h.log request alloc with
    ⟨token, hprep, hactive, hfits⟩ | ⟨e, hprep⟩ | ⟨-, hprep⟩
  · rw [hprep]
    refine ⟨⟨h.log.flags _ _, nofun, ?_⟩, .quiet trivial rfl rfl rfl⟩
    rintro request' token' ⟨⟩
    exact ⟨rfl, hfits.activate⟩
  · rw [hprep]
    exact ⟨h, .quiet trivial rfl rfl rfl⟩
  · rw [hprep]
    exact ⟨h, .quiet trivial rfl rfl rfl⟩

theorem run_commit :
    session.commit.2.Wf crypto ∧ session.Step crypto session.commit.1 session.commit.2 := by
  unfold Session.commit
  cases hpending : session.pending with
  | none => exact ⟨h, .quiet trivial rfl rfl rfl⟩
  | some held =>
    obtain ⟨request, token⟩ := held
    have hcommitted := (h.open_ request token hpending).2.commit h.log
    exact ⟨⟨hcommitted.wf, fun _ => hcommitted.idle, nofun⟩, .done hcommitted⟩

theorem run_abort :
    session.abort.2.Wf crypto ∧ session.Step crypto session.abort.1 session.abort.2 := by
  unfold Session.abort
  cases hpending : session.pending with
  | none => exact ⟨h, .quiet trivial rfl rfl rfl⟩
  | some held => exact ⟨⟨h.log.flags _ _, fun _ => rfl, nofun⟩, .quiet trivial rfl rfl rfl⟩

theorem run_perform (request : Request) (alloc : Allocator) :
    (session.perform crypto request alloc).2.Wf crypto ∧
      session.Step crypto (session.perform crypto request alloc).1
        (session.perform crypto request alloc).2 := by
  unfold Session.perform
  rw [perform_eq]
  rcases prepare_cases h.log request alloc with
    ⟨token, hprep, hactive, hfits⟩ | ⟨e, hprep⟩ | ⟨⟨_, _, _, _, _, rfl⟩, hprep⟩
  · rw [hprep]
    have hopen : EventLog.Wf crypto { session.log with preparedActive := true } :=
      h.log.flags session.log.mutationEpoch true
    have hcommitted := hfits.activate.commit hopen
    refine ⟨⟨hcommitted.wf, fun _ => hcommitted.idle, fun request' token' hpending => ?_⟩,
      .done hcommitted.activate⟩
    rw [(h.open_ request' token' hpending).1] at hactive
    cases hactive
  · rw [hprep]
    exact ⟨h, .quiet trivial rfl rfl rfl⟩
  · rw [hprep]
    exact ⟨h, .quiet trivial rfl rfl rfl⟩

theorem run_collect (targetNode : UInt64) (room : Nat) (alloc : Allocator) :
    (session.collect targetNode room alloc).2.Wf crypto ∧
      session.Step crypto (session.collect targetNode room alloc).1
        (session.collect targetNode room alloc).2 := by
  unfold Session.collect
  cases hactive : session.log.preparedActive with
  | true =>
    -- The open preparation is reported before anything is swept.
    have hfail : ∃ e, session.log.collectPageForNode targetNode room alloc =
        (.error e, session.log) := by
      unfold EventLog.collectPageForNode
      rw [validateLiveConfig_ok h.log, hactive]
      split
      · exact ⟨_, rfl⟩
      · exact ⟨_, rfl⟩
    obtain ⟨e, hfail⟩ := hfail
    rw [hfail]
    exact ⟨h, .quiet trivial rfl rfl rfl⟩
  | false =>
    rcases collect_cases h.log targetNode room alloc with
      ⟨e, hpage⟩ | hpage | ⟨start, visited, log', hpage, hcollected⟩
    · rw [hpage]
      exact ⟨h, .quiet trivial rfl rfl rfl⟩
    · rw [hpage]
      exact ⟨h, .quiet rfl rfl rfl rfl⟩
    · rw [hpage]
      refine ⟨⟨hcollected.wf, fun _ => hcollected.active.trans hactive, ?_⟩, .page hcollected⟩
      intro request token hpending
      rw [(h.open_ request token hpending).1] at hactive
      cases hactive

theorem run_reseal (alloc : Allocator) :
    (session.reseal crypto alloc).2.Wf crypto ∧
      session.Step crypto (session.reseal crypto alloc).1 (session.reseal crypto alloc).2 := by
  unfold Session.reseal
  cases hactive : session.log.preparedActive with
  | true =>
    have hfail : session.log.encodeCheckpoint crypto alloc = .error .preparedMutationActive := by
      rw [EventLog.encodeCheckpoint, validateLiveConfig_ok h.log, hactive]
      rfl
    rw [hfail]
    exact ⟨h, .quiet trivial rfl rfl rfl⟩
  | false =>
    rw [encodeCheckpoint_eq h.log hactive]
    cases alloc 0 with
    | false => exact ⟨h, .quiet trivial rfl rfl rfl⟩
    | true =>
      simp only [↓reduceIte]
      rcases decodeCheckpoint_sealed h.log hactive (fun n => alloc (n + 1)) with hok | ⟨-, herror⟩
      · rw [hok]
        refine ⟨⟨h.log.flags _ _, fun _ => hactive, ?_⟩, .quiet trivial rfl rfl rfl⟩
        intro request token hpending
        rw [(h.open_ request token hpending).1] at hactive
        cases hactive
      · rw [herror]
        exact ⟨h, .quiet trivial rfl rfl rfl⟩

theorem Op.run_step (op : Op) :
    (op.run crypto session).2.Wf crypto ∧
      session.Step crypto (op.run crypto session).1 (op.run crypto session).2 := by
  cases op with
  | prepare request alloc => exact run_prepare h request alloc
  | commit => exact run_commit h
  | abort => exact run_abort h
  | perform request alloc => exact run_perform h request alloc
  | collect targetNode room alloc => exact run_collect h targetNode room alloc
  | reseal alloc => exact run_reseal h alloc

end

theorem Session.Step.config {answer : Answer} {session' : Session}
    (h : session.Step crypto answer session') : session'.log.config = session.log.config := by
  cases h with
  | quiet _ _ _ config => exact config
  | done committed => exact committed.config
  | page collected => exact collected.config

theorem runFrom_wf (h : session.Wf crypto) (ops : List Op) :
    (runFrom crypto session ops).Wf crypto :=
  final_invariant (P := Session.Wf crypto) (fun _ op hs => (op.run_step hs).1) h ops

theorem runFrom_config (h : session.Wf crypto) (ops : List Op) :
    (runFrom crypto session ops).log.config = session.log.config := by
  have hrun : ∀ later : Session, later.Wf crypto ∧ later.log.config = session.log.config →
      ∀ op : Op, (op.run crypto later).2.Wf crypto ∧
        (op.run crypto later).2.log.config = session.log.config := by
    rintro later ⟨hlater, hconfig⟩ op
    obtain ⟨hwf, hstep⟩ := op.run_step hlater
    exact ⟨hwf, hstep.config.trans hconfig⟩
  exact (final_invariant (P := fun later => later.Wf crypto ∧ later.log.config = session.log.config)
    (fun later op hs => hrun later hs op) ⟨h, rfl⟩ ops).2

end Step

/-- A new log with no open preparation. -/
def Session.start (log : EventLog) : Session := ⟨log, none⟩

theorem Session.start_wf {crypto : Crypto} {config : Config} {log : EventLog}
    (h : EventLog.init config = some log) : (Session.start log).Wf crypto := by
  obtain ⟨hwf, hidle⟩ := @EventLog.init_wf crypto config log h
  exact ⟨hwf, fun _ => hidle, nofun⟩

theorem EventLog.init_config {config : Config} {log : EventLog}
    (h : EventLog.init config = some log) :
    log.config = config := by
  unfold EventLog.init at h
  split at h
  · rw [← Option.some.inj h]
  · cases h

/-- The node sets of a row in the words of the checkpoint's own checks. -/
structure Row.Consistent (row : Row) : Prop where
  confirmedSorted : row.confirmedNodes.Pairwise (· < ·)
  excludedSorted : row.excludedOnceNodes.Pairwise (· < ·)
  disjoint : row.confirmedNodes.Disjoint row.excludedOnceNodes
  excludedSub : row.excludedOnceNodes ⊆ row.requiredNodes
  confirmedSub : row.confirmedNodes ⊆ row.requiredNodes
  proper : ¬ row.requiredNodes ⊆ row.confirmedNodes

/-- Tables and counters of a log that a checkpoint accepts. -/
structure EventLog.Consistent (log : EventLog) : Prop where
  rowsSorted : log.rows.Pairwise fun a b => a.relayId < b.relayId
  eventsDistinct : log.rows.Pairwise fun a b => ¬ (a.originPubkey = b.originPubkey ∧ a.hlc = b.hlc)
  rows : ∀ row ∈ log.rows, row.Consistent
  cursorsSorted : log.cursors.Pairwise fun a b => a.node < b.node
  cursorsPresent : ∀ cursor ∈ log.cursors, ∃ row ∈ log.rows,
    row.originPubkey = cursor.afterOriginPubkey
  aggregate : log.aggregateBytes = recomputeAggregateBytes log.rows log.cursors
  body : log.checkpointBodyBytes = recomputeBodyBytes log.rows log.cursors
  aggregateLimit : log.aggregateBytes ≤ log.config.maxAggregateBytes
  bodyLimit : checkpointHeaderLen + log.checkpointBodyBytes + checksumLen ≤ hardMaxCheckpointBytes
  rowsLimit : log.rows.length ≤ log.config.maxRows
  cursorsLimit : log.cursors.length ≤ log.config.maxCursorNodes

theorem Row.Wf.consistent {crypto : Crypto} {config : Config} {row : Row}
    (h : row.Wf crypto config) :
    row.Consistent where
  confirmedSorted := h.confirmed
  excludedSorted := h.excluded
  disjoint := fun node hnode hex => h.disjoint node hnode hex
  excludedSub := fun node hnode => h.excludedSub node hnode
  confirmedSub := fun node hnode => h.confirmedSub node hnode
  proper := by
    obtain ⟨node, hreq, hconf⟩ := h.pending
    exact fun hsub => hconf (hsub hreq)

theorem EventLog.Wf.consistent {crypto : Crypto} {log : EventLog} (h : log.Wf crypto) :
    log.Consistent where
  rowsSorted := h.ascending
  eventsDistinct := by
    refine (List.pairwise_map.mp h.distinct).imp ?_
    rintro a b hne ⟨horigin, hhlc⟩
    exact hne (Prod.ext horigin hhlc)
  rows := fun row hrow => (h.rows row hrow).consistent
  cursorsSorted := h.cursorsAscending
  cursorsPresent := fun cursor hcursor => List.mem_map.mp (h.cursorTarget cursor hcursor)
  aggregate := h.aggregate.trans (recomputeAggregateBytes_eq _ _).symm
  body := h.body.trans (recomputeBodyBytes_eq _ _).symm
  aggregateLimit := h.aggregateBound
  bodyLimit := by
    have hbound := h.bodyBound
    simp only [hardMaxCheckpointBytes, checkpointHeaderLen, checksumLen] at hbound ⊢
    omega
  rowsLimit := h.rowsBound
  cursorsLimit := h.cursorsBound

/-- After any run that leaves no preparation open the log is consistent. Its
checkpoint is refused only for lack of memory, and restores under the same
configuration to the same log with its preparation counter restarted. -/
theorem reachable_seals_and_restores (crypto : Crypto) {config : Config} {log : EventLog}
    (hinit : EventLog.init config = some log) (ops : List Op)
    (hidle : (runFrom crypto (Session.start log) ops).pending = none) :
    let reached := (runFrom crypto (Session.start log) ops).log
    reached.Consistent ∧
    ∃ bytes,
      (∀ alloc, reached.encodeCheckpoint crypto alloc =
        if alloc 0 then .ok bytes else .error .outOfMemory) ∧
      EventLog.decodeCheckpoint crypto config bytes (fun _ => true) =
        .ok { reached with mutationEpoch := 0 } := by
  intro reached
  have hstart := @Session.start_wf crypto config log hinit
  have hwf := runFrom_wf hstart ops
  have hconfig : reached.config = config :=
    (runFrom_config hstart ops).trans (EventLog.init_config hinit)
  refine ⟨hwf.log.consistent, reached.sealedBytes crypto,
    encodeCheckpoint_eq hwf.log (hwf.idle hidle), ?_⟩
  rcases decodeCheckpoint_sealed hwf.log (hwf.idle hidle) (fun _ => true) with hok | ⟨⟨n, hn⟩, -⟩
  · rw [← hconfig]
    exact hok
  · cases hn

/-- Every signature passes and the hash reads its input backwards. -/
def sampleCrypto : Crypto where
  blake3 bytes := FixedBytes.ofSlice 32 bytes.reverse
  verifyCtx _ _ _ _ := true

def sampleConfig : Config where
  maxRows := 8
  maxConfirmedNodesPerRow := 4
  maxCursorNodes := 4
  maxWireBytes := 1024
  maxAggregateBytes := 8192

def sampleMessage (origin : UInt8) (hlc : UInt64) (text : String) : Relay.V2.RelayMessage :=
  { Relay.V2.blank with
    target := Relay.V2.ascii "#a", sourcePrefix := Relay.V2.ascii "a!b@c", text :=
      Relay.V2.ascii text, hlc
    originPubkey := List.replicate 32 origin, originSig := List.replicate 64 1
    originNode := Relay.V2.originShortId sampleCrypto (FixedBytes.splat 32 origin) }

def sampleWire (origin : UInt8) (hlc : UInt64) (text : String) : Bytes :=
  (Relay.V2.encode (sampleMessage origin hlc text)).toOption.getD []

def sampleId (origin : UInt8) (hlc : UInt64) (text : String) : RelayId :=
  match Relay.V2.verifyAndRelayId sampleCrypto (sampleMessage origin hlc text) with
  | .verified relayId => relayId
  | _ => FixedBytes.splat 16 0

def sampleAccept (origin : UInt8) (hlc : UInt64) (text : String) (acceptingNode : UInt64)
    (ingressNode : Option UInt64) (requiredNodes : List UInt64) : Op :=
  .perform
    (.accept (sampleId origin hlc text) (sampleWire origin hlc text) acceptingNode ingressNode
    requiredNodes) fun _ => true

def sampleLog : EventLog where
  config := sampleConfig
  frozenConfig := sampleConfig
  rows := []
  cursors := []
  aggregateBytes := 0
  checkpointBodyBytes := 0
  mutationEpoch := 0
  preparedActive := false

/-- An accepted event, a page, an aborted confirmation and a committed one: the
event is still in the log, and the log seals and restores. -/
theorem reachable_seals_and_restores_sample :
    let reached := (runFrom sampleCrypto (Session.start sampleLog)
      [sampleAccept 1 5 "x" 10 none [10, 20, 30], .collect 20 4 fun _ => true,
        .prepare (.confirm (sampleId 1 5 "x") 20) fun _ => true, .abort,
        .prepare (.confirm (sampleId 1 5 "x") 20) fun _ => true, .commit]).log
    reached.rows.length = 1 ∧ reached.Consistent ∧
    ∃ bytes,
      (∀ alloc, reached.encodeCheckpoint sampleCrypto alloc =
        if alloc 0 then .ok bytes else .error .outOfMemory) ∧
      EventLog.decodeCheckpoint sampleCrypto sampleConfig bytes (fun _ => true) =
        .ok { reached with mutationEpoch := 0 } := by
  intro reached
  refine ⟨by decide +kernel, reachable_seals_and_restores sampleCrypto ?_ _ ?_⟩
  · decide +kernel
  · decide +kernel

end OnyxServer.AcceptedLog
