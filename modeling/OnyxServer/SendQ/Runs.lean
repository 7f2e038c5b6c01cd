import OnyxServer.SendQ.Model
import OnyxServer.Lib.Trace

/-!
# What preparing and committing do to the queue

A preparation moves storage only. A committed append extends what is sendable by exactly its
bytes, and never touches what lies below `send_len` while a send is armed.
-/
namespace OnyxServer.SendQ

section

open Lib

variable {conn conn' : Connection} {bytes : Bytes}

theorem orTooSmall_ok {α : Type} {x : Option α} {a : α} (h : orTooSmall x = .ok a) :
    x = some a := by
  cases x with
  | none => cases h
  | some b => rw [Except.ok.inj h]

theorem refuseIf_ok {condition : Prop} [Decidable condition] {u : Unit}
    (h : refuseIf condition = .ok u) :
    ¬condition := by
  unfold refuseIf at h
  split_ifs at h
  · assumption

/-- The bytes that the cap counts. -/
def charge (conn : Connection) : Nat :=
  conn.wire.length + conn.tlsDeferredCharge + conn.tlsControlCharge

structure Bounded (conn : Connection) : Prop where
  offset_le : conn.sendOffset ≤ conn.sendLen
  len_le : conn.sendLen ≤ conn.sendBuf.length

/-- The queue is well formed and within its cap. -/
structure Fits (conn : Connection) : Prop extends Bounded conn where
  stored_le : conn.tlsDeferredPlain.length ≤ conn.tlsDeferredCharge
  uncharged : conn.tlsDeferredPlain = [] → conn.tlsDeferredCharge = 0
  charge_le : charge conn ≤ conn.sendqCap
  cap_lt : conn.sendqCap < usizeLimit

theorem Bounded.window_length (h : Bounded conn) :
    conn.window.length = conn.sendLen - conn.sendOffset :=
  length_slice h.len_le

theorem Bounded.wire_length (h : Bounded conn) :
    conn.wire.length = conn.sendLen - conn.sendOffset + conn.sendOverflow.length := by
  rw [Connection.wire, List.length_append, h.window_length]

theorem backlog_toNat (h : Fits conn) : (backlog conn).toNat = charge conn := by
  have hcharge := h.charge_le
  have hcap := h.cap_lt
  rw [charge, h.wire_length] at hcharge ⊢
  simp only [usizeLimit] at hcap
  simp only [backlog, wireBacklog, satAdd_toNat, clampU64_toNat, maxU64]
  omega

theorem checkedTotal_ok {tail control total : Nat}
    (h : checkedTotal conn tail control = .ok total) :
    Bounded conn ∧ conn.tlsDeferredPlain.length ≤ conn.tlsDeferredCharge ∧
      total = conn.wire.length + tail + control := by
  obtain ⟨_, hbounds, h⟩ := bind_ok h
  obtain ⟨_, hstored, h⟩ := bind_ok h
  obtain ⟨wire, hwire, h⟩ := bind_ok h
  obtain ⟨subtotal, hsubtotal, h⟩ := bind_ok h
  have hbounded : Bounded conn := by
    have := refuseIf_ok hbounds
    exact ⟨by omega, by omega⟩
  refine ⟨hbounded, ?_, ?_⟩
  · have := refuseIf_ok hstored
    omega
  · rw [hbounded.wire_length, checkedAdd_eq (orTooSmall_ok h),
      checkedAdd_eq (orTooSmall_ok hsubtotal), checkedAdd_eq (orTooSmall_ok hwire)]

theorem ensureUnusedOverflow_contents {additional : Nat} {growth : Growth}
    (h : ensureUnusedOverflow conn additional growth = .ok conn') :
    conn'.contents = conn.contents := by
  obtain ⟨needed, -, h⟩ := bind_ok h
  obtain ⟨capacity, -, h⟩ := bind_ok h
  rw [← Except.ok.inj h]
  rfl

/-- What a successful wire preparation has checked. -/
structure Prepared (conn : Connection) (n retainedDeferred retainedControl : Nat)
    (prepared : PreparedAppend) (conn' : Connection) : Prop where
  bounded : Bounded conn
  len_eq : prepared.len = n
  old_eq : prepared.old = QueueState.capture conn
  mode_eq : prepared.mode = appendMode conn n
  room : conn.wire.length + retainedDeferred + retainedControl + n ≤ conn.sendqCap
  contents : conn'.contents = conn.contents

theorem prepareWire_ok {n retainedDeferred retainedControl : Nat} {growth : Growth}
    {prepared : PreparedAppend}
    (h : prepareWire conn n retainedDeferred retainedControl growth = .ok (prepared, conn')) :
    Prepared conn n retainedDeferred retainedControl prepared conn' := by
  obtain ⟨queued, hqueued, h⟩ := bind_ok h
  obtain ⟨_, hroom, h⟩ := bind_ok h
  obtain ⟨hbounded, -, hsum⟩ := checkedTotal_ok hqueued
  have hroom := refuseIf_ok hroom
  simp only at h
  split at h
  · obtain ⟨grown, hgrown, h⟩ := bind_ok h
    cases h
    exact ⟨hbounded, rfl, rfl, rfl, by omega, ensureUnusedOverflow_contents hgrown⟩
  · cases h
    exact ⟨hbounded, rfl, rfl, rfl, by omega, rfl⟩

/-- `conn'` is `conn` with the bytes behind everything sendable. -/
structure Extends (conn : Connection) (bytes : Bytes) (conn' : Connection) : Prop where
  bounded : Bounded conn'
  wire_eq : conn'.wire = conn.wire ++ bytes
  size_eq : conn'.sendBuf.length = conn.sendBuf.length
  armed_eq : conn'.sendArmed = conn.sendArmed
  cap_eq : conn'.sendqCap = conn.sendqCap
  /-- Below `send_len` an armed buffer keeps its bytes and its offset. -/
  still : conn.sendArmed = true →
    conn'.sendOffset = conn.sendOffset ∧ conn.sendLen ≤ conn'.sendLen ∧
      conn'.sendBuf.take conn.sendLen = conn.sendBuf.take conn.sendLen

/-- A queue whose overflow is empty appends inline when there is room behind the window. -/
theorem publish_inlineTail (hbounded : Bounded conn) (hempty : conn.sendOverflow = [])
    (hroom : conn.sendLen + bytes.length ≤ conn.sendBuf.length) :
    Extends conn bytes (publish conn .inlineTail bytes) where
  bounded := ⟨by have := hbounded.offset_le; simp only [publish]; omega, by
    simp only [publish]; rwa [length_splice hroom]⟩
  wire_eq := by
    simp only [Connection.wire, Connection.window, publish]
    rw [hempty, List.append_nil, List.append_nil,
      slice_splice_through hbounded.offset_le hbounded.len_le]
  size_eq := length_splice hroom
  armed_eq := rfl
  cap_eq := rfl
  still _ := ⟨rfl, Nat.le_add_right _ _, take_splice hbounded.len_le⟩

/-- The compaction keeps the window, and the append follows it. -/
theorem publish_compact (hbounded : Bounded conn) (hempty : conn.sendOverflow = [])
    (hidle : conn.sendArmed = false)
    (hroom : conn.sendLen - conn.sendOffset + bytes.length ≤ conn.sendBuf.length) :
    Extends conn bytes (publish conn .compact bytes) := by
  have hwindow := hbounded.window_length
  have hlen := hbounded.len_le
  have hmoved : (splice conn.sendBuf 0 conn.window).length = conn.sendBuf.length :=
    length_splice (by omega)
  have hsize : (publish conn .compact bytes).sendBuf.length = conn.sendBuf.length := by
    simp only [publish]
    rw [length_splice (by omega), hmoved]
  have hfront : slice (splice conn.sendBuf 0 conn.window) 0 (conn.sendLen - conn.sendOffset) =
      conn.window := by
    rw [← hwindow, slice_splice_front]
  refine ⟨⟨Nat.zero_le _, ?_⟩, ?_, hsize, rfl, rfl, fun harmed => ?_⟩
  · rw [hsize]
    exact hroom
  · simp only [Connection.wire, publish]
    rw [hempty, List.append_nil, List.append_nil]
    conv_lhs => rw [Connection.window]
    rw [slice_splice_through (Nat.zero_le _) (by omega), hfront]
  · rw [hidle] at harmed
    cases harmed

theorem publish_overflow (hbounded : Bounded conn) :
    Extends conn bytes (publish conn .overflow bytes) where
  bounded := ⟨hbounded.offset_le, hbounded.len_le⟩
  wire_eq := (List.append_assoc _ _ _).symm
  size_eq := rfl
  armed_eq := rfl
  cap_eq := rfl
  still _ := ⟨rfl, Nat.le_refl _, rfl⟩

/-- Whatever way an append is published, it extends the queue by its bytes. -/
theorem publish_extends (hbounded : Bounded conn) :
    Extends conn bytes (publish conn (appendMode conn bytes.length) bytes) := by
  have hoffset := hbounded.offset_le
  have hlen := hbounded.len_le
  unfold appendMode
  split
  · next hinline =>
    exact publish_inlineTail hbounded (List.eq_nil_of_length_eq_zero hinline.1) (by omega)
  split
  · next hcompact =>
    exact publish_compact hbounded (List.eq_nil_of_length_eq_zero hcompact.1) hcompact.2.1
      (by omega)
  · exact publish_overflow hbounded

/-- The tail and the charges that a wire append leaves alone. -/
theorem publish_deferred (conn : Connection) (bytes : Bytes) (mode : Mode) :
    (publish conn mode bytes).tlsDeferredPlain = conn.tlsDeferredPlain ∧
      (publish conn mode bytes).tlsDeferredCharge = conn.tlsDeferredCharge ∧
      (publish conn mode bytes).tlsControlCharge = conn.tlsControlCharge := by
  cases mode <;> exact ⟨rfl, rfl, rfl⟩

end

/-!
## The deferred tail

The tail is a list of chunks, each behind its length. The loop of the preparation measures
exactly what the commit writes, and the iterator gives the chunks back in order.
-/
section

open Lib

variable {conn conn' : Connection} {chunk : Bytes} {chunks : List Bytes}

/-- A chunk that the tail can hold: not empty, and its length fits its prefix. -/
def Storable (chunk : Bytes) : Prop := chunk ≠ [] ∧ chunk.length ≤ maxU32

theorem chunkBytes_length (chunk : Bytes) : (chunkBytes chunk).length = 4 + chunk.length := by
  rw [chunkBytes, List.length_append, leBytes_length]

theorem length_le_serialized (chunks : List Bytes) :
    chunks.length ≤ (chunks.flatMap chunkBytes).length := by
  induction chunks with
  | nil => exact Nat.le_refl 0
  | cons chunk rest ih =>
    rw [List.flatMap_cons, List.length_append, chunkBytes_length, List.length_cons]
    omega

theorem countedChunks_cons_empty {item : Slice} {rest : List Slice} (h : item.bytes.length = 0) :
    countedChunks (item :: rest) = countedChunks rest := by
  rw [countedChunks, List.map_cons, List.filter_cons_of_neg (by simp only [h]; decide)]
  rfl

theorem countedChunks_cons {item : Slice} {rest : List Slice} (h : item.bytes.length ≠ 0) :
    countedChunks (item :: rest) = item.bytes :: countedChunks rest := by
  rw [countedChunks, List.map_cons, List.filter_cons_of_pos (by simpa using h)]
  rfl

/-- The loop counts the chunks, adds up what they take in the tail, and lets only storable
ones through. -/
theorem measure_ok {items : List Slice} {count serialized total size : Nat}
    (h : measure conn items count serialized = .ok (total, size)) :
    total = count + (countedChunks items).length ∧
      size = serialized + ((countedChunks items).flatMap chunkBytes).length ∧
      ∀ chunk ∈ countedChunks items, Storable chunk := by
  induction items generalizing count serialized with
  | nil =>
    cases h
    exact ⟨rfl, rfl, by simp [countedChunks]⟩
  | cons item rest ih =>
    unfold measure at h
    split at h
    · next hempty =>
      rw [countedChunks_cons_empty hempty]
      exact ih h
    rename_i hfull
    obtain ⟨-, -, h⟩ := bind_ok h
    obtain ⟨_, hwide, h⟩ := bind_ok h
    obtain ⟨next, hnext, h⟩ := bind_ok h
    obtain ⟨headed, hheaded, h⟩ := bind_ok h
    obtain ⟨sized, hsized, h⟩ := bind_ok h
    obtain ⟨htotal, hsize, hrest⟩ := ih h
    have hnext := checkedAdd_eq (orTooSmall_ok hnext)
    have hheaded := checkedAdd_eq (orTooSmall_ok hheaded)
    have hsized := checkedAdd_eq (orTooSmall_ok hsized)
    have hwide := refuseIf_ok hwide
    rw [countedChunks_cons hfull]
    refine ⟨?_, ?_, List.forall_mem_cons.mpr ⟨⟨fun hnil => hfull (by rw [hnil]; rfl), by
      omega⟩, hrest⟩⟩
    · rw [List.length_cons]
      omega
    · rw [List.flatMap_cons, List.length_append, chunkBytes_length]
      omega

/-- What a successful preparation of a deferred append has checked. -/
structure DeferredPrepared (conn : Connection) (wireCharge : Nat) (prepared : PreparedDeferred)
    (conn' : Connection) (shape : List Bytes) : Prop where
  old_eq : prepared.old = QueueState.capture conn
  charge_eq : prepared.charge = wireCharge
  lengths_eq : prepared.lengths = shape.map List.length
  serialized_eq : prepared.serialized = (shape.flatMap chunkBytes).length
  storable : ∀ chunk ∈ shape, Storable chunk
  covered : prepared.serialized ≤ wireCharge
  uncharged : shape = [] → wireCharge = 0
  room : charge conn + wireCharge ≤ conn.sendqCap
  storage : conn.tlsDeferredPlain.length + prepared.serialized ≤ conn'.deferredCapacity
  contents : conn'.contents = conn.contents

theorem ensureCapacity_le {capacity needed grown : Nat} {growth : Growth}
    (h : ensureCapacity capacity needed growth = some grown) : needed ≤ grown := by
  unfold ensureCapacity at h
  split at h
  · rwa [← Option.some.inj h]
  · obtain ⟨extra, -, rfl⟩ := Option.map_eq_some_iff.mp h
    exact Nat.le_add_right _ _

variable {prepared : PreparedDeferred}

theorem prepareDeferredAppend_ok {slices : Slices} {wireCharge : Nat} {granted growth : Bool}
    (h : prepareDeferredAppend conn slices wireCharge granted growth = .ok (prepared, conn')) :
    DeferredPrepared conn wireCharge prepared conn' slices.shape := by
  obtain ⟨_, -, h⟩ := bind_ok h
  obtain ⟨-, -, h⟩ := bind_ok h
  obtain ⟨⟨count, serialized⟩, hmeasure, h⟩ := bind_ok h
  obtain ⟨_, hlimits, h⟩ := bind_ok h
  obtain ⟨-, -, h⟩ := bind_ok h
  obtain ⟨total, htotal, h⟩ := bind_ok h
  obtain ⟨_, hroom, h⟩ := bind_ok h
  obtain ⟨finalLen, hfinal, h⟩ := bind_ok h
  obtain ⟨-, -, h⟩ := bind_ok h
  obtain ⟨_, -, h⟩ := bind_ok h
  obtain ⟨-, -, h⟩ := bind_ok h
  obtain ⟨-, -, h⟩ := bind_ok h
  obtain ⟨capacity, hcapacity, h⟩ := bind_ok h
  obtain ⟨hprepared, hconn⟩ := Prod.mk.inj (Except.ok.inj h)
  obtain ⟨hcount, hserialized, hstorable⟩ := measure_ok hmeasure
  obtain ⟨-, -, hsum⟩ := checkedTotal_ok htotal
  have hlimits := refuseIf_ok hlimits
  have hroom := refuseIf_ok hroom
  have hgrown := ensureCapacity_le (orTooSmall_ok hcapacity)
  rw [checkedAdd_eq (orTooSmall_ok hfinal)] at hgrown
  subst hprepared hconn
  refine ⟨rfl, rfl, rfl, ?_, hstorable, by
    simp only; omega, fun hnone => ?_, by rw [charge]; omega, hgrown, rfl⟩
  · simp only [hserialized, Nat.zero_add]
    rfl
  · have hlength : (countedChunks slices.items).length = 0 := congrArg List.length hnone
    omega

/-- The assertions of the commit give it the shape of what was prepared. -/
theorem PreparedDeferred.commit_some {slices : Slices}
    (h : prepared.commit conn slices = some conn') :
    slices.shape.map List.length = prepared.lengths ∧
      conn' = { conn with
        tlsDeferredPlain := conn.tlsDeferredPlain ++ slices.shape.flatMap chunkBytes
        tlsDeferredCharge := conn.tlsDeferredCharge + prepared.charge } := by
  unfold PreparedDeferred.commit at h
  split at h
  · next hchecks => exact ⟨hchecks.2.2.2, (Option.some.inj h).symm⟩
  · cases h

/-- Chunks of the same lengths take the same room. -/
theorem serialized_of_lengths {shape other : List Bytes}
    (h : shape.map List.length = other.map List.length) :
    (shape.flatMap chunkBytes).length = (other.flatMap chunkBytes).length := by
  have hsum (chunks : List Bytes) :
      (chunks.flatMap chunkBytes).length = ((chunks.map List.length).map (4 + ·)).sum := by
    rw [List.length_flatMap, List.map_map]
    congr 1
    exact List.map_congr_left fun chunk _ => chunkBytes_length chunk
  rw [hsum, hsum, h]

theorem storable_of_lengths {shape other : List Bytes}
    (h : shape.map List.length = other.map List.length)
    (hother : ∀ chunk ∈ other, Storable chunk) : ∀ chunk ∈ shape, Storable chunk := by
  intro chunk hchunk
  have hlength : chunk.length ∈ other.map List.length := h ▸ List.mem_map_of_mem hchunk
  obtain ⟨twin, htwin, hsame⟩ := List.mem_map.mp hlength
  obtain ⟨hfull, hwide⟩ := hother twin htwin
  refine ⟨fun hnil => hfull (List.eq_nil_of_length_eq_zero ?_), by omega⟩
  rw [hsame, hnil, List.length_nil]

theorem maxU32_eq : maxU32 = 4294967295 := rfl

theorem next_chunk (before after : Bytes) (h : Storable chunk) :
    DeferredIterator.next ⟨before ++ (chunkBytes chunk ++ after), before.length⟩ =
      .ok (some
        (chunk, ⟨before ++ (chunkBytes chunk ++ after), before.length + (4 + chunk.length)⟩)) := by
  obtain ⟨hfull, hwide⟩ := h
  have hpos := List.length_pos_iff.mpr hfull
  rw [maxU32_eq] at hwide
  have hlen :
      leNat (slice (before ++ (chunkBytes chunk ++ after)) before.length (before.length + 4)) =
      chunk.length := by
    have hfield : slice (before ++ (chunkBytes chunk ++ after)) before.length (before.length + 4) =
        leBytes 4 chunk.length :=
      slice_field (r := chunk ++ after) (by rw [chunkBytes, List.append_assoc]) rfl
        (by rw [leBytes_length])
    rw [hfield, leNat_leBytes (by omega)]
  have hbody : slice (before ++ (chunkBytes chunk ++ after)) (before.length + 4)
      (before.length + 4 + chunk.length) = chunk :=
    slice_field (l := before ++ leBytes 4 chunk.length) (r := after)
      (by rw [chunkBytes, List.append_assoc, List.append_assoc])
      (by rw [List.length_append, leBytes_length]) rfl
  have hsize : (before ++ (chunkBytes chunk ++ after)).length =
      before.length + (4 + chunk.length + after.length) := by
    rw [List.length_append, List.length_append, chunkBytes_length]
  simp only [DeferredIterator.next, hlen, hbody, hsize]
  rw [if_neg (by omega), if_neg (by omega), if_neg (by omega), if_neg (by omega), Nat.add_assoc]

theorem collect_chunks (before : Bytes) (hchunks : ∀ chunk ∈ chunks, Storable chunk) {rounds : Nat}
    (hrounds : chunks.length < rounds) :
    DeferredIterator.collect rounds ⟨before ++ chunks.flatMap chunkBytes, before.length⟩ =
      .ok chunks := by
  induction chunks generalizing before rounds with
  | nil =>
    obtain ⟨rounds, rfl⟩ : ∃ n, rounds = n + 1 := ⟨rounds - 1, by omega⟩
    simp [DeferredIterator.collect, DeferredIterator.next]
  | cons chunk rest ih =>
    obtain ⟨rounds, rfl⟩ : ∃ n, rounds = n + 1 := ⟨rounds - 1, by omega⟩
    obtain ⟨hchunk, hrest⟩ := List.forall_mem_cons.mp hchunks
    have hfewer : rest.length < rounds := by simpa using hrounds
    have hlater := ih (before ++ chunkBytes chunk) hrest hfewer
    rw [List.length_append, chunkBytes_length, List.append_assoc] at hlater
    simp only [DeferredIterator.collect, List.flatMap_cons,
      next_chunk before (rest.flatMap chunkBytes) hchunk, hlater]
    rfl

end

/-!
## Runs of the send queue

The owner of a connection prepares appends and commits or aborts them, arms sends, takes
completions and refills the inline buffer. What the queue holds is what was committed and
not handed to the kernel yet.
-/
section

open Lib

/-- A connection and the range of the send in flight. -/
structure Owner where
  conn : Connection
  submittedLen : Nat
  submittedOffset : Nat
  deriving DecidableEq

def Owner.init (sendBuf : Bytes) (sendqCap : Nat) : Owner :=
  ⟨Connection.empty sendBuf sendqCap, 0, 0⟩

/-- What the owner does with a preparation. -/
inductive Outcome (α : Type) where
  | commit (input : α)
  | abort
  deriving DecidableEq

inductive Call where
  | rawAppend (bytes : Bytes) (growth : Growth)
  | reserve (bytesLen : Nat) (growth : Growth)
  | append (bytesLen : Nat) (growth : Growth) (outcome : Outcome Bytes)
  | controlReservation (bytes : Nat) (outcome : Outcome Unit)
  | consumeControl (accepted : Nat)
  | cancelControl
  | reservedControlAppend (bytesLen : Nat) (growth : Growth) (outcome : Outcome Bytes)
  | deferredAppend (chunks : Slices) (wireCharge : Nat) (granted growth : Bool)
      (outcome : Outcome Slices)
  | deferredReplacement (ciphertextLen : Nat) (growth : Growth) (outcome : Outcome Bytes)
  | arm (submitted : Nat)
  | complete (accepted : Nat) (hold : Bool)
  | release
  | reset
  | refill
  deriving DecidableEq

/-- What a call did. `misuse` is a caller that broke the contract of the queue. -/
inductive Answer where
  | appended (bytes : Bytes)
  | replaced (bytes : Bytes)
  | deferred (chunks : List Bytes)
  | accepted (bytes : Bytes)
  | done
  | aborted
  | failed (error : SendError)
  | misuse
  deriving DecidableEq

/-- Commit or abort a wire preparation. -/
def settle (owner : Owner) (preparation : Except SendError (PreparedAppend × Connection))
    (commit : PreparedAppend → Connection → Bytes → Option Connection) (answer : Bytes → Answer)
    (outcome : Outcome Bytes) : Answer × Owner :=
  match preparation with
  | .error e => (.failed e, owner)
  | .ok (prepared, conn) =>
    match outcome with
    | .abort => (.aborted, { owner with conn := conn })
    | .commit bytes =>
      match commit prepared conn bytes with
      | none => (.misuse, { owner with conn := conn })
      | some published => (answer bytes, { owner with conn := published })

def settleControl (owner : Owner) (preparation : Except SendError PreparedControlReservation)
    (outcome : Outcome Unit) : Answer × Owner :=
  match preparation with
  | .error e => (.failed e, owner)
  | .ok prepared =>
    match outcome with
    | .abort => (.aborted, owner)
    | .commit _ =>
      match prepared.commit owner.conn with
      | none => (.misuse, owner)
      | some published => (.done, { owner with conn := published })

def settleDeferred (owner : Owner) (preparation : Except SendError (PreparedDeferred × Connection))
    (outcome : Outcome Slices) : Answer × Owner :=
  match preparation with
  | .error e => (.failed e, owner)
  | .ok (prepared, conn) =>
    match outcome with
    | .abort => (.aborted, { owner with conn := conn })
    | .commit chunks =>
      match prepared.commit conn chunks with
      | none => (.misuse, { owner with conn := conn })
      | some published =>
          (.deferred (chunks.items.map Slice.bytes), { owner with conn := published })

/-- `armSendIfNeeded`: the kernel gets a prefix of the window. -/
def armSend (owner : Owner) (submitted : Nat) : Answer × Owner :=
  let conn := owner.conn
  if conn.sendArmed = false ∧ conn.sendOffset < conn.sendLen ∧ 0 < submitted ∧
      submitted ≤ conn.sendLen - conn.sendOffset then
    (.done, ⟨{ conn with sendArmed := true }, submitted, conn.sendOffset⟩)
  else (.misuse, owner)

/-- The completion in `handleSend`. A zero-copy send holds the buffer until its release. -/
def complete (owner : Owner) (accepted : Nat) (hold : Bool) : Answer × Owner :=
  let conn := owner.conn
  if conn.sendArmed = true ∧ accepted ≤ owner.submittedLen ∧
    owner.submittedOffset = conn.sendOffset ∧
      conn.sendOffset ≤ conn.sendLen ∧ accepted ≤ conn.sendLen - conn.sendOffset then
    let taken := slice conn.sendBuf conn.sendOffset (conn.sendOffset + accepted)
    let advanced := { conn with sendOffset := conn.sendOffset + accepted }
    if hold then (.accepted taken, { owner with conn := advanced })
    else (.accepted taken, ⟨{ advanced with sendArmed := false }, 0, 0⟩)
  else (.misuse, owner)

/-- The notification that a held buffer is free. -/
def release (owner : Owner) : Answer × Owner :=
  if owner.conn.sendArmed = true then (.done, ⟨{ owner.conn with sendArmed := false }, 0, 0⟩)
  else (.misuse, owner)

/-- Nothing armed and nothing left in the inline buffer. -/
def Drained (conn : Connection) : Prop := conn.sendArmed = false ∧ conn.sendLen ≤ conn.sendOffset

instance (conn : Connection) : Decidable (Drained conn) := inferInstanceAs (Decidable (_ ∧ _))

def step (owner : Owner) : Call → Answer × Owner
  | .rawAppend bytes growth =>
    settle owner (prepareAppend owner.conn bytes.length growth) PreparedAppend.commit .appended
      (.commit bytes)
  | .reserve bytesLen growth =>
    settle owner (prepareAppend owner.conn bytesLen growth) PreparedAppend.commit .appended .abort
  | .append bytesLen growth outcome =>
    settle owner (prepareAppend owner.conn bytesLen growth) PreparedAppend.commit .appended outcome
  | .controlReservation bytes outcome =>
    settleControl owner (prepareControlReservation owner.conn bytes) outcome
  | .consumeControl accepted =>
    match consumeControlCharge owner.conn accepted with
    | none => (.misuse, owner)
    | some conn => (.done, { owner with conn := conn })
  | .cancelControl => (.done, { owner with conn := cancelControlReservation owner.conn })
  | .reservedControlAppend bytesLen growth outcome =>
    settle owner (prepareReservedControlAppend owner.conn bytesLen growth) commitReservedControl
      .appended outcome
  | .deferredAppend chunks wireCharge granted growth outcome =>
    settleDeferred owner (prepareDeferredAppend owner.conn chunks wireCharge granted growth) outcome
  | .deferredReplacement ciphertextLen growth outcome =>
    settle owner (prepareDeferredReplacement owner.conn ciphertextLen growth) commitReplacement
      .replaced outcome
  | .arm submitted => armSend owner submitted
  | .complete accepted hold => complete owner accepted hold
  | .release => release owner
  | .reset =>
    if Drained owner.conn then
      (.done, { owner with conn := { owner.conn with sendLen := 0, sendOffset := 0 } })
    else (.misuse, owner)
  | .refill =>
    if Drained owner.conn then (.done, { owner with conn := refill owner.conn })
    else (.misuse, owner)

def Answer.wireBytes : Answer → Bytes
  | .appended bytes => bytes
  | .replaced bytes => bytes
  | _ => []

def Answer.acceptedBytes : Answer → Bytes
  | .accepted bytes => bytes
  | _ => []

/-- The non-empty chunks committed since the last replacement, after one more answer. -/
def nextChunks (chunks : List Bytes) : Answer → List Bytes
  | .deferred more => chunks ++ more.filter fun bytes => decide (bytes.length ≠ 0)
  | .replaced _ => []
  | _ => chunks

/-- An error, an abort or a misuse. -/
def Answer.Declined : Answer → Prop
  | .aborted => True
  | .failed _ => True
  | .misuse => True
  | _ => False

def answers (owner : Owner) (calls : List Call) : List Answer :=
  (visits step owner calls).map Visit.output

def committedWire (log : List Answer) : Bytes := log.flatMap Answer.wireBytes

def handedToKernel (log : List Answer) : Bytes := log.flatMap Answer.acceptedBytes

def pendingChunks (log : List Answer) : List Bytes := log.foldl nextChunks []

end

end OnyxServer.SendQ
