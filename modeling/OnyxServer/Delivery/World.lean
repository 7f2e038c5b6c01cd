import OnyxServer.AcceptedLog.Custody
import OnyxServer.ReplayGuard.Window

/-!
# A sender, a receiver and a lossy channel

The sender's accepted-event log hands out pages for one target, the receiver's
replay guard admits what arrives, and an admitted or repeated event is acknowledged.
The channel keeps every frame it was ever given: a frame may arrive at any later
time, any number of times or never.
-/
namespace OnyxServer.Delivery

open Lib List
open AcceptedLog (Session Answer Row Head Effect Collected)
open ReplayGuard (Guard Decision AllocError)
open Relay.V2 (RelayId PublicKey Crypto)

/-- What a receiver learns of an event from its wire. -/
structure EventId where
  relayId : RelayId
  originPubkey : PublicKey
  hlc : UInt64
  deriving DecidableEq

def identify (crypto : Crypto) (wire : Bytes) : Option EventId :=
  match Relay.V2.decode wire with
  | .error _ => none
  | .ok msg =>
    match Relay.V2.verifyAndRelayId crypto msg with
    | .verified relayId => some ⟨relayId, FixedBytes.ofSlice 32 msg.originPubkey, msg.hlc⟩
    | _ => none

/-- What has happened so far. -/
structure History where
  /-- The wires of the rows the sender has inserted, newest first. -/
  reserved : List Bytes
  /-- The wires the sender has handed to the channel. -/
  sent : List Bytes
  /-- The wires the receiver has accepted. -/
  accepted : List Bytes
  /-- The acknowledgements the receiver has handed to the channel. -/
  acks : List RelayId
  deriving DecidableEq

structure World where
  sender : Session
  receiver : Guard
  history : History

inductive Act where
  | sender (op : AcceptedLog.Op)
  | arrive (wire : Bytes) (alloc : Allocator)

inductive Report where
  | sender (answer : Answer)
  | arrived (wire : Bytes) (verdict : Except AllocError Decision)
  /-- A frame that no sender of this protocol produced. -/
  | rejected (wire : Bytes)
  deriving DecidableEq

def History.reserve (history : History) : Answer → History
  | .done (.accept _ wire _ _ _) (.reserved .inserted) =>
    { history with reserved := wire :: history.reserved }
  | _ => history

def History.send (target : UInt64) (history : History) : Answer → History
  | .page node items =>
    if node = target then { history with sent := items.map (·.wire) ++ history.sent } else history
  | _ => history

def History.arrive (history : History) (wire : Bytes) (relayId : RelayId) :
    Except AllocError Decision → History
  | .ok .accepted =>
    { history with accepted := wire :: history.accepted, acks := relayId :: history.acks }
  | .ok .duplicate => { history with acks := relayId :: history.acks }
  | _ => history

def World.send (crypto : Crypto) (target : UInt64) (world : World) (op : AcceptedLog.Op) :
    Report × World :=
  let done := op.run crypto world.sender
  (.sender done.1, { world with
    sender := done.2, history := (world.history.reserve done.1).send target done.1 })

def World.arrive (crypto : Crypto) (world : World) (wire : Bytes) (alloc : Allocator) :
    Report × World :=
  match identify crypto wire with
  | none => (.rejected wire, world)
  | some event =>
    let admitted := Guard.admit world.receiver event.originPubkey event.hlc event.relayId alloc
    (.arrived wire admitted.1, { world with
      receiver := admitted.2, history := world.history.arrive wire event.relayId admitted.1 })

def World.step (crypto : Crypto) (target : UInt64) (world : World) : Act → Report × World
  | .sender op => world.send crypto target op
  | .arrive wire alloc => world.arrive crypto wire alloc

/-- `newer` may be reserved after `older`: it has an id of its own, and within one
origin a greater HLC. -/
def Follows (crypto : Crypto) (older newer : Bytes) : Prop :=
  ∀ a ∈ identify crypto older, ∀ b ∈ identify crypto newer,
    a.relayId ≠ b.relayId ∧ (a.originPubkey = b.originPubkey → a.hlc < b.hlc)

instance (crypto : Crypto) (older newer : Bytes) : Decidable (Follows crypto older newer) :=
  inferInstanceAs (Decidable (∀ a ∈ identify crypto older, ∀ b ∈ identify crypto newer,
    a.relayId ≠ b.relayId ∧ (a.originPubkey = b.originPubkey → a.hlc < b.hlc)))

/-- A step of the protocol. Only frames that were sent arrive. The sender accepts
events on its own behalf, in ascending HLC order within each origin; it records a
confirmation of the target only on an acknowledgement; it does not retire the target. -/
def Allowed (crypto : Crypto) (target : UInt64) (history : History) : Act → Report → Prop
  | .arrive wire _, _ => wire ∈ history.sent
  | .sender _, .sender (.done (.accept _ wire acceptingNode _ _) (.reserved .inserted)) =>
    acceptingNode ≠ target ∧ ∀ older ∈ history.reserved, Follows crypto older wire
  | .sender _, .sender (.done (.confirm relayId node) _) => node = target → relayId ∈ history.acks
  | .sender _, .sender (.done (.retire node) _) => node ≠ target
  | _, _ => True

instance (crypto : Crypto) (target : UInt64) (history : History) (act : Act) (report : Report) :
    Decidable (Allowed crypto target history act report) := by
  unfold Allowed
  split <;> infer_instance

/-! ## The sender's side -/

def eventOf (row : Row) : EventId := ⟨row.relayId, row.originPubkey, row.hlc⟩

/-- What the rows of the sender and the history have to do with each other. -/
structure Outgoing (crypto : Crypto) (target : UInt64) (rows : List Row) (history : History) :
    Prop where
  ordered : history.reserved.Pairwise fun newer older => Follows crypto older newer
  stored : ∀ row ∈ rows, row.wire ∈ history.reserved ∧ identify crypto row.wire = some (eventOf row)
  readable : ∀ wire ∈ history.reserved, ∃ event, identify crypto wire = some event
  sent : ∀ wire ∈ history.sent, wire ∈ history.reserved
  /-- What was sent is still owed, unless it was accepted. -/
  held : ∀ wire ∈ history.sent,
    wire ∈ history.accepted ∨ ∃ row ∈ rows, row.wire = wire ∧ row.Outstanding target
  /-- Nothing that is owed comes before something sent. -/
  ahead : ∀ wire ∈ history.sent, ∀ event, identify crypto wire = some event →
    ∀ row ∈ rows, row.Outstanding target → row.originPubkey = event.originPubkey →
      event.hlc ≤ row.hlc
  accepted : ∀ wire ∈ history.accepted, wire ∈ history.sent
  acked : ∀ relayId ∈ history.acks, ∃ wire ∈ history.accepted, ∃ event,
    identify crypto wire = some event ∧ event.relayId = relayId
  confirmed : ∀ row ∈ rows, target ∈ row.confirmedNodes → row.wire ∈ history.accepted

section Sender

variable {crypto : Crypto} {target : UInt64} {rows rows' : List Row} {history : History}
  {answer : Answer}

/-- A wire the log has validated identifies its row. -/
theorem identify_of_wf {config : AcceptedLog.Config} {row : Row} (h : row.Wf crypto config) :
    identify crypto row.wire = some (eventOf row) := by
  obtain ⟨-, -, msg, hmsg, hver, -, hmeta⟩ := AcceptedLog.validateWireAndId_ok h.authentic
  obtain ⟨horigin, -, hhlc⟩ := AcceptedLog.WireMeta.mk.inj hmeta
  unfold identify
  simp only [hmsg, hver]
  rw [eventOf, horigin, hhlc]

/-- Two reserved wires with one id, or one place in an origin, are one wire. -/
theorem Outgoing.unique (h : Outgoing crypto target rows history) {a b : Bytes} {x y : EventId}
    (ha : a ∈ history.reserved) (hb : b ∈ history.reserved)
    (hx : identify crypto a = some x) (hy : identify crypto b = some y)
    (hxy : x.relayId = y.relayId ∨ (x.originPubkey = y.originPubkey ∧ x.hlc = y.hlc)) : a = b := by
  have hapart : ∀ {u v : Bytes} {s t : EventId}, Follows crypto u v → identify crypto u = some s →
      identify crypto v = some t →
      ¬ (s.relayId = t.relayId ∨ (s.originPubkey = t.originPubkey ∧ s.hlc = t.hlc)) := by
    intro u v s t hfollows hs ht
    obtain ⟨hids, hlt⟩ := hfollows s hs t ht
    rintro (hid | ⟨horigin, hhlc⟩)
    · exact hids hid
    · exact (hlt horigin).ne hhlc
  by_contra hne
  have : Std.Symm fun u v => Follows crypto v u ∨ Follows crypto u v := ⟨fun _ _ => Or.symm⟩
  have hordered := h.ordered.imp (S := fun u v => Follows crypto v u ∨ Follows crypto u v) Or.inl
  rcases hordered.forall ha hb hne with hba | hab
  · refine hapart hba hy hx ?_
    rcases hxy with hid | ⟨horigin, hhlc⟩
    · exact Or.inl hid.symm
    · exact Or.inr ⟨horigin.symm, hhlc.symm⟩
  · exact hapart hab hx hy hxy

/-- An acknowledged row was accepted. -/
theorem Outgoing.accepted_of_ack (h : Outgoing crypto target rows history) {row : Row}
    (hrow : row ∈ rows) (hack : row.relayId ∈ history.acks) : row.wire ∈ history.accepted := by
  obtain ⟨wire, hwire, event, hevent, hid⟩ := h.acked _ hack
  obtain ⟨hreserved, hidentify⟩ := h.stored row hrow
  have heq := h.unique (h.sent wire (h.accepted wire hwire)) hreserved hevent hidentify (Or.inl hid)
  rw [← heq]
  exact hwire

theorem reserve_cases (history : History) (answer : Answer) :
    (history.reserve answer = history ∧ ∀ row, ¬ AcceptedLog.Inserts answer.change row) ∨
    ∃ relayId wire acceptingNode ingressNode requiredNodes,
      answer = .done (.accept relayId wire acceptingNode ingressNode requiredNodes)
        (.reserved .inserted) ∧
      history.reserve answer = { history with reserved := wire :: history.reserved } := by
  unfold History.reserve
  split
  · exact Or.inr ⟨_, _, _, _, _, rfl, rfl⟩
  rename_i hother
  refine Or.inl ⟨rfl, fun row hinserts => ?_⟩
  obtain ⟨_, _, _, _, heq⟩ := hinserts.accepts rfl
  exact hother _ _ _ _ _ heq

variable {relayId : RelayId}

/-- The target settles an event only by an acknowledgement. -/
theorem acked_of_settles {op : AcceptedLog.Op}
    (hallowed : Allowed crypto target history (.sender op) (.sender answer))
    (h : AcceptedLog.settles answer.change relayId target) : relayId ∈ history.acks := by
  cases answer with
  | done request outcome =>
    cases request with
    | accept => cases h
    | confirm id node =>
      obtain ⟨rfl, rfl⟩ := h
      exact hallowed rfl
    | retire node => exact absurd h.symm hallowed
  | _ => cases h

theorem confirms_settles {done : Option (AcceptedLog.Request × AcceptedLog.Outcome)}
    {node : UInt64} (h : AcceptedLog.confirms done relayId node) :
    AcceptedLog.settles done relayId node := by
  unfold AcceptedLog.confirms at h
  split at h
  · exact h
  · cases h

section

variable (h : Outgoing crypto target rows history)
include h

theorem Outgoing.keep (heffect : Effect answer.change rows rows')
    (hauthentic : ∀ row ∈ rows', identify crypto row.wire = some (eventOf row))
    (hnone : ∀ row, ¬ AcceptedLog.Inserts answer.change row)
    (hacks : ∀ relayId, AcceptedLog.settles answer.change relayId target → relayId ∈ history.acks) :
    Outgoing crypto target rows' history := by
  have hsource : ∀ row' ∈ rows', ∃ row ∈ rows, AcceptedLog.Succeeds answer.change row row' :=
    fun row' hrow' => (heffect.source row' hrow').resolve_right fun hins => hnone row' hins.1
  refine { h with stored := ?_, held := ?_, ahead := ?_, confirmed := ?_ }
  · intro row' hrow'
    obtain ⟨row, hrow, hsucc⟩ := hsource row' hrow'
    refine ⟨?_, hauthentic row' hrow'⟩
    rw [hsucc.wire]
    exact (h.stored row hrow).1
  · intro wire hwire
    rcases h.held wire hwire with haccepted | ⟨row, hrow, rfl, hout⟩
    · exact Or.inl haccepted
    by_cases hsettles : AcceptedLog.settles answer.change row.relayId target
    · exact Or.inl (h.accepted_of_ack hrow (hacks _ hsettles))
    · obtain ⟨row', hrow', hsucc⟩ := heffect.kept row hrow ⟨target, hout, hsettles⟩
      exact Or.inr ⟨row', hrow', hsucc.wire, (hsucc.outstanding target).mpr ⟨hout, hsettles⟩⟩
  · intro wire hwire event hevent row' hrow' hout horigin
    obtain ⟨row, hrow, hsucc⟩ := hsource row' hrow'
    obtain ⟨hpubkey, hhlc⟩ := Prod.mk.inj hsucc.key
    rw [hhlc]
    exact h.ahead wire hwire event hevent row hrow ((hsucc.outstanding target).mp hout).1
      (hpubkey.symm.trans horigin)
  · intro row' hrow' hconfirmed
    obtain ⟨row, hrow, hsucc⟩ := hsource row' hrow'
    rw [hsucc.wire]
    rcases hsucc.confirmed target hconfirmed with hold | hnew
    · exact h.confirmed row hrow hold
    · exact h.accepted_of_ack hrow (hacks _ (confirms_settles hnew))

/-- A new row goes behind everything its origin has reserved. -/
theorem Outgoing.insert {wire : Bytes}
    {acceptingNode : UInt64} {ingressNode : Option UInt64} {requiredNodes : List UInt64}
    (heffect : Effect (some (.accept relayId wire acceptingNode ingressNode requiredNodes,
      .reserved .inserted)) rows rows')
    (hauthentic : ∀ row ∈ rows', identify crypto row.wire = some (eventOf row))
    (hself : acceptingNode ≠ target)
    (hfollows : ∀ older ∈ history.reserved, Follows crypto older wire) :
    Outgoing crypto target rows' { history with reserved := wire :: history.reserved } := by
  obtain ⟨new, hnew, -, rfl, -⟩ := heffect.inserted _ rfl
  refine {
    ordered := pairwise_cons.mpr ⟨hfollows, h.ordered⟩
    stored := ?_, readable := ?_, sent := fun sent hsent => mem_cons_of_mem _ (h.sent sent hsent)
    held := ?_, ahead := ?_, accepted := h.accepted, acked := h.acked, confirmed := ?_ }
  · intro row' hrow'
    refine ⟨?_, hauthentic row' hrow'⟩
    rcases heffect.source row' hrow' with ⟨row, hrow, hsucc⟩ | ⟨⟨-, hwire, -⟩, -⟩
    · rw [hsucc.wire]
      exact mem_cons_of_mem _ (h.stored row hrow).1
    · rw [hwire]
      exact mem_cons_self
  · intro other hother
    rcases mem_cons.mp hother with rfl | hother
    · exact ⟨_, hauthentic new hnew⟩
    · exact h.readable other hother
  · intro sent hsent
    rcases h.held sent hsent with haccepted | ⟨row, hrow, rfl, hout⟩
    · exact Or.inl haccepted
    · obtain ⟨row', hrow', hsucc⟩ := heffect.kept row hrow ⟨target, hout, id⟩
      exact Or.inr ⟨row', hrow', hsucc.wire, (hsucc.outstanding target).mpr ⟨hout, id⟩⟩
  · intro sent hsent event hevent row' hrow' hout horigin
    rcases heffect.source row' hrow' with ⟨row, hrow, hsucc⟩ | ⟨⟨-, hwire, -⟩, -⟩
    · obtain ⟨hpubkey, hhlc⟩ := Prod.mk.inj hsucc.key
      rw [hhlc]
      exact h.ahead sent hsent event hevent row hrow ((hsucc.outstanding target).mp hout).1
        (hpubkey.symm.trans horigin)
    · have hbehind := hfollows sent (h.sent sent hsent)
      rw [← hwire] at hbehind
      exact ((hbehind event hevent (eventOf row') (hauthentic row' hrow')).2 horigin.symm).le
  · intro row' hrow' hconfirmed
    rcases heffect.source row' hrow' with ⟨row, hrow, hsucc⟩ | ⟨⟨-, -, -, hnodes⟩, -⟩
    · rw [hsucc.wire]
      exact h.confirmed row hrow ((hsucc.confirmed target hconfirmed).resolve_right id)
    · rw [hnodes] at hconfirmed
      exact absurd (mem_singleton.mp hconfirmed).symm hself

theorem Outgoing.page {visited : List Row}
    (hheads : ∀ row ∈ visited, Head rows target row) :
    Outgoing crypto target rows { history with
      sent := (AcceptedLog.pageOf target visited).map (·.wire) ++ history.sent } := by
  have hpage : ∀ wire ∈ (AcceptedLog.pageOf target visited).map (·.wire),
      ∃ row ∈ visited, row.wire = wire := by
    intro wire hwire
    obtain ⟨item, hitem, rfl⟩ := mem_map.mp hwire
    obtain ⟨row, hrow, rfl⟩ := mem_map.mp hitem
    exact ⟨row, (mem_filter.mp hrow).1, rfl⟩
  refine { h with sent := ?_, held := ?_, ahead := ?_, accepted := ?_ }
  · intro wire hwire
    rcases mem_append.mp hwire with hwire | hwire
    · obtain ⟨row, hrow, rfl⟩ := hpage wire hwire
      exact (h.stored row (hheads row hrow).mem).1
    · exact h.sent wire hwire
  · intro wire hwire
    rcases mem_append.mp hwire with hwire | hwire
    · obtain ⟨row, hrow, rfl⟩ := hpage wire hwire
      exact Or.inr ⟨row, (hheads row hrow).mem, rfl, (hheads row hrow).outstanding⟩
    · exact h.held wire hwire
  · intro wire hwire event hevent row hrow hout horigin
    rcases mem_append.mp hwire with hwire | hwire
    · obtain ⟨head, hhead, rfl⟩ := hpage wire hwire
      have hfirst := hheads head hhead
      rw [(h.stored head hfirst.mem).2] at hevent
      cases hevent
      exact hfirst.least row hrow hout horigin
    · exact h.ahead wire hwire event hevent row hrow hout horigin
  · intro wire hwire
    exact mem_append_right _ (h.accepted wire hwire)

end

theorem Outgoing.step {session session' : Session} {op : AcceptedLog.Op}
    (h : Outgoing crypto target session.log.rows history) (hwf : session'.Wf crypto)
    (hstep : session.Step crypto answer session')
    (hallowed : Allowed crypto target history (.sender op) (.sender answer)) :
    Outgoing crypto target session'.log.rows ((history.reserve answer).send target answer) := by
  have hauthentic : ∀ row ∈ session'.log.rows, identify crypto row.wire = some (eventOf row) :=
    fun row hrow => identify_of_wf (hwf.log.rows row hrow)
  have heffect := hstep.effect
  rcases reserve_cases history answer with ⟨hsame, hnone⟩ | ⟨_, wire, _, _, _, rfl, hnew⟩
  · rw [hsame]
    have hkeep : ∀ now : History, now.acks = history.acks →
        Outgoing crypto target session.log.rows now →
          Outgoing crypto target session'.log.rows now :=
      fun now hacks hnow => hnow.keep heffect hauthentic hnone fun relayId hsettles => by
        rw [hacks]
        exact acked_of_settles hallowed hsettles
    cases answer with
    | page node items =>
      unfold History.send
      by_cases hnode : node = target
      · subst hnode
        simp only [↓reduceIte]
        apply hkeep
        · rfl
        · cases hstep with
          | quiet silent =>
            obtain rfl : items = [] := silent
            exact h
          | page collected => exact h.page collected.heads
      · simp only [if_neg hnode]
        exact hkeep history rfl h
    | _ => exact hkeep history rfl h
  · rw [hnew]
    exact h.insert heffect hauthentic hallowed.1 hallowed.2

end Sender

/-- The window and the watermark of an origin come from accepted events. -/
structure Backed (crypto : Crypto) (accepted : List Bytes) (origin : PublicKey)
    (state : ReplayGuard.OriginState) : Prop where
  entries : ∀ entry ∈ state.entries, ∃ wire ∈ accepted,
    identify crypto wire = some ⟨entry.relayId, origin, entry.hlc⟩
  watermark : ∀ hlc, state.retiredThroughHlc = some hlc → ∃ wire ∈ accepted, ∃ relayId,
    identify crypto wire = some ⟨relayId, origin, hlc⟩

structure Incoming (crypto : Crypto) (guard : Guard) (accepted : List Bytes) : Prop where
  wf : guard.Wf
  backed : ∀ origin state, guard.origins.lookup origin = some state →
    Backed crypto accepted origin state

/-- Every accepted event of the same origin is older. -/
def Newest (crypto : Crypto) (accepted : List Bytes) (event : EventId) : Prop :=
  ∀ wire ∈ accepted, ∀ old, identify crypto wire = some old →
    old.originPubkey = event.originPubkey → old.hlc < event.hlc

section Receiver

variable {crypto : Crypto} {history : History} {wire : Bytes} {event : EventId}
  {verdict : Except AllocError Decision}

theorem arrive_accepted (history : History) (wire : Bytes) (relayId : RelayId)
    (verdict : Except AllocError Decision) :
    (history.arrive wire relayId verdict).accepted =
      if verdict = .ok .accepted then wire :: history.accepted else history.accepted := by
  unfold History.arrive
  split
  · rfl
  · rfl
  · rename_i hother _
    rw [if_neg hother]

theorem mem_arrive_acks {relayId other : RelayId}
    (h : other ∈ (history.arrive wire relayId verdict).acks) :
    other ∈ history.acks ∨
      (other = relayId ∧ (verdict = .ok .accepted ∨ verdict = .ok .duplicate)) := by
  unfold History.arrive at h
  split at h
  · exact (mem_cons.mp h).symm.imp_right fun heq => ⟨heq, Or.inl rfl⟩
  · exact (mem_cons.mp h).symm.imp_right fun heq => ⟨heq, Or.inr rfl⟩
  · exact Or.inl h

theorem accepted_subset (history : History) (wire : Bytes) (relayId : RelayId)
    (verdict : Except AllocError Decision) :
    history.accepted ⊆ (history.arrive wire relayId verdict).accepted := by
  rw [arrive_accepted]
  split
  · exact subset_cons_self _ _
  · exact List.Subset.refl _

theorem Backed.mono {accepted accepted' : List Bytes} {origin : PublicKey}
    {state : ReplayGuard.OriginState} (h : Backed crypto accepted origin state)
    (hsub : accepted ⊆ accepted') : Backed crypto accepted' origin state where
  entries entry hentry := by
    obtain ⟨wire, hwire, hid⟩ := h.entries entry hentry
    exact ⟨wire, hsub hwire, hid⟩
  watermark hlc hhlc := by
    obtain ⟨wire, hwire, hid⟩ := h.watermark hlc hhlc
    exact ⟨wire, hsub hwire, hid⟩

variable {state next : ReplayGuard.OriginState}

/-- An event newer than all accepted ones is accepted, memory permitting. -/
theorem accepted_of_newest {windowSize : Nat}
    (hwf : state.Wf windowSize) (hbacked : Backed crypto history.accepted event.originPubkey state)
    (hnewest : Newest crypto history.accepted event)
    (hs : ReplayGuard.KnownStep windowSize state event.hlc event.relayId verdict next) :
    verdict = .ok .accepted ∨ verdict = .error .outOfMemory := by
  have hentries : ∀ entry ∈ state.entries, entry.hlc < event.hlc := by
    intro entry hentry
    obtain ⟨old, hold, hid⟩ := hbacked.entries entry hentry
    exact hnewest old hold _ hid rfl
  cases hs with
  | below hnot =>
    refine absurd (fun w hw => ?_) hnot
    obtain ⟨old, hold, _, hid⟩ := hbacked.watermark w hw
    exact hnewest old hold _ hid rfl
  | retained entry hmem hhlc => exact absurd hhlc (hentries entry hmem).ne
  | noMemory => exact Or.inr rfl
  | grow => exact Or.inl rfl
  | tooOld _ _ hall =>
    obtain ⟨entry, hentry⟩ := exists_mem_of_length_pos hwf.nonempty
    exact absurd (hall entry hentry) (hentries entry hentry).not_gt
  | evict => exact Or.inl rfl

theorem Backed.step {windowSize : Nat}
    (hwf : state.Wf windowSize) (h : Backed crypto history.accepted event.originPubkey state)
    (hid : identify crypto wire = some event)
    (hnew : wire ∈ history.accepted ∨ Newest crypto history.accepted event)
    (hs : ReplayGuard.KnownStep windowSize state event.hlc event.relayId verdict next) :
    Backed crypto (history.arrive wire event.relayId verdict).accepted event.originPubkey next := by
  have hsub := accepted_subset history wire event.relayId verdict
  have hgrown : ∀ {l r : List ReplayGuard.Entry}, (∀ entry ∈ l ++ r, entry ∈ state.entries) →
      ∀ entry ∈ l ++ ⟨event.hlc, event.relayId⟩ :: r, ∃ old ∈ wire :: history.accepted,
        identify crypto old = some ⟨entry.relayId, event.originPubkey, entry.hlc⟩ := by
    intro l r hold entry hentry
    have hcases : entry ∈ l ++ r ∨ entry = ⟨event.hlc, event.relayId⟩ := by
      simp only [mem_append, mem_cons] at hentry ⊢
      tauto
    rcases hcases with hentry | rfl
    · obtain ⟨old, hmem, heq⟩ := h.entries entry (hold entry hentry)
      exact ⟨old, mem_cons_of_mem _ hmem, heq⟩
    · exact ⟨wire, mem_cons_self, hid⟩
  cases hs with
  | below => exact h.mono hsub
  | retained => exact h.mono hsub
  | noMemory => exact h.mono hsub
  | grow l r hsplit =>
    refine ⟨hgrown fun entry hentry => by rw [hsplit]; exact hentry, fun hlc hhlc => ?_⟩
    exact (h.mono hsub).watermark hlc hhlc
  | tooOld hfull habove hall =>
    refine ⟨(h.mono hsub).entries, ?_⟩
    rintro _ ⟨⟩
    rcases hnew with hold | hnewest
    · exact ⟨wire, hsub hold, event.relayId, hid⟩
    · rcases accepted_of_newest hwf h hnewest (.tooOld hfull habove hall) with
        heq | heq <;> cases heq
  | evict oldest l r hsplit =>
    refine ⟨hgrown fun entry hentry => by rw [hsplit]; exact mem_cons_of_mem _ hentry, ?_⟩
    rintro _ ⟨⟩
    obtain ⟨old, hold, heq⟩ := (h.mono hsub).entries oldest (by rw [hsplit]; exact mem_cons_self)
    exact ⟨old, hold, oldest.relayId, heq⟩

end Receiver

end OnyxServer.Delivery
