import OnyxServer.SendQ.Fifo

/-!
# The contract of the send queue over whole runs

The remaining calls keep the queue: credit, the deferred tail, the sends of the kernel and
the refill. By induction every run does.
-/
namespace OnyxServer.SendQ

open Lib List

variable {log : List Answer} {owner : Owner} {conn : Connection}

theorem Tracks.recharged {control : Nat} (htracks : Tracks log owner)
    (hroom : owner.conn.wire.length + owner.conn.tlsDeferredCharge + control ≤
      owner.conn.sendqCap) :
    Tracks (log ++ [.done])
    { owner with conn := { owner.conn with tlsControlCharge := control } } where
  fits :=
    ⟨⟨htracks.fits.offset_le, htracks.fits.len_le⟩, htracks.fits.stored_le,
      htracks.fits.uncharged, hroom, htracks.fits.cap_lt⟩
  fifo := by
    rw [committedWire_append, handedToKernel_append, quiet_done.wire, quiet_done.accepted,
      append_nil, append_nil]
    exact htracks.fifo
  tail := by rw [pendingChunks_append, quiet_done.chunks]; exact htracks.tail
  storable := by rw [pendingChunks_append, quiet_done.chunks]; exact htracks.storable

theorem recharged_kept {control : Nat}
    (hroom : Fits owner.conn →
      owner.conn.wire.length + owner.conn.tlsDeferredCharge + control ≤ owner.conn.sendqCap) :
    Kept owner (.done, { owner with conn := { owner.conn with tlsControlCharge := control } }) where
  tracks _ htracks := htracks.recharged (hroom htracks.fits)
  still _ _ := ⟨Nat.le_refl _, rfl⟩
  declined hdeclined := absurd hdeclined id
  cap_eq := rfl

theorem settleControl_kept (bytes : Nat) (outcome : Outcome Unit) :
    Kept owner (settleControl owner (prepareControlReservation owner.conn bytes) outcome) := by
  unfold settleControl
  split
  · exact kept_of_contents rfl (Answer.Declined.quiet trivial)
  rename_i prepared hprepare
  split
  · exact kept_of_contents rfl (Answer.Declined.quiet trivial)
  split
  · exact kept_misuse
  rename_i published hcommit
  obtain ⟨-, -, h⟩ := bind_ok hprepare
  obtain ⟨total, htotal, h⟩ := bind_ok h
  obtain ⟨_, hroom, h⟩ := bind_ok h
  have hroom := refuseIf_ok hroom
  obtain ⟨-, -, hsum⟩ := checkedTotal_ok htotal
  cases h
  unfold PreparedControlReservation.commit at hcommit
  split at hcommit
  · cases hcommit
    exact recharged_kept fun _ => by simp only; omega
  · cases hcommit

theorem consumeControl_kept (accepted : Nat) :
    Kept owner (step owner (.consumeControl accepted)) := by
  rw [step]
  split
  · exact kept_misuse
  rename_i published hconsumed
  unfold consumeControlCharge at hconsumed
  split at hconsumed
  · cases hconsumed
    refine recharged_kept fun hfits => ?_
    have hcharge := hfits.charge_le
    rw [charge] at hcharge
    omega
  · cases hconsumed

theorem cancelControl_kept : Kept owner (step owner .cancelControl) := by
  refine recharged_kept fun hfits => ?_
  have hcharge := hfits.charge_le
  rw [charge] at hcharge
  omega

/-- Published chunks follow the ones that wait, and their charge stays within the cap. -/
theorem DeferredPrepared.published_tracks {wireCharge : Nat} {prepared : PreparedDeferred}
    {middle : Connection} {shape : List Bytes} {slices : Slices}
    (h : DeferredPrepared owner.conn wireCharge prepared middle shape)
    (hlengths : slices.shape.map List.length = prepared.lengths) (htracks : Tracks log owner) :
    Tracks (log ++ [.deferred (slices.items.map Slice.bytes)]) { owner with conn := { middle with
      tlsDeferredPlain := middle.tlsDeferredPlain ++ slices.shape.flatMap chunkBytes
      tlsDeferredCharge := middle.tlsDeferredCharge + prepared.charge } } := by
  have hsame := SameQueue.of_contents h.contents
  have hfits := hsame.fits htracks.fits
  have hshape : slices.shape.map List.length = shape.map List.length := hlengths.trans h.lengths_eq
  have hsize : (slices.shape.flatMap chunkBytes).length = prepared.serialized :=
    (serialized_of_lengths hshape).trans h.serialized_eq.symm
  have hcovered := h.covered
  have hstored := hfits.stored_le
  have hcharge := h.charge_eq
  have hroom := h.room
  refine ⟨⟨⟨hfits.offset_le, hfits.len_le⟩, ?_, ?_, ?_, hfits.cap_lt⟩, ?_, ?_, ?_⟩
  · simp only [length_append]
    omega
  · intro hnone
    obtain ⟨hplain, hmore⟩ := append_eq_nil_iff.mp hnone
    have hwaiting := hfits.uncharged hplain
    have hnoshape : slices.shape = [] := by
      rcases hcases : slices.shape with _ | ⟨chunk, rest⟩
      · rfl
      rw [hcases, flatMap_cons] at hmore
      have := congrArg List.length hmore
      rw [length_append, chunkBytes_length, length_nil] at this
      omega
    have huncharged := h.uncharged (map_eq_nil_iff.mp (by rw [← hshape, hnoshape]; rfl))
    simp only
    omega
  · have hcap := hsame.cap_eq
    have hdeferred := hsame.deferred_eq
    have hcontrol := hsame.control_eq
    have hwire := congrArg List.length hsame.wire_eq
    rw [charge] at hroom
    show middle.wire.length + (middle.tlsDeferredCharge + prepared.charge) +
      middle.tlsControlCharge ≤ middle.sendqCap
    omega
  · rw [committedWire_append, handedToKernel_append]
    show _ ++ [] ++ middle.wire = _ ++ []
    rw [append_nil, append_nil, hsame.wire_eq]
    exact htracks.fifo
  · rw [pendingChunks_append]
    show middle.tlsDeferredPlain ++ slices.shape.flatMap chunkBytes =
      (pendingChunks log ++ slices.shape).flatMap chunkBytes
    rw [hsame.plain_eq, htracks.tail, flatMap_append]
  · rw [pendingChunks_append]
    intro chunk hchunk
    rcases mem_append.mp hchunk with hold | hnew
    · exact htracks.storable chunk hold
    · exact storable_of_lengths hshape h.storable chunk hnew

theorem settleDeferred_kept (chunks : Slices) (wireCharge : Nat) (granted growth : Bool)
    (outcome : Outcome Slices) :
    Kept owner (settleDeferred owner
      (prepareDeferredAppend owner.conn chunks wireCharge granted growth) outcome) := by
  unfold settleDeferred
  split
  · exact kept_of_contents rfl (Answer.Declined.quiet trivial)
  rename_i prepared middle hprepare
  have hprepared := prepareDeferredAppend_ok hprepare
  split
  · exact kept_of_contents hprepared.contents (Answer.Declined.quiet trivial)
  rename_i slices
  split
  · exact kept_of_contents hprepared.contents (Answer.Declined.quiet trivial)
  rename_i published hcommit
  obtain ⟨hlengths, rfl⟩ := PreparedDeferred.commit_some hcommit
  have hsame := SameQueue.of_contents hprepared.contents
  exact ⟨fun log htracks => hprepared.published_tracks hlengths htracks,
    fun _ _ => ⟨by rw [hsame.len_eq], by rw [hsame.buf_eq]⟩, fun hdeclined => absurd hdeclined id,
    hsame.cap_eq⟩

theorem arm_kept (submitted : Nat) : Kept owner (armSend owner submitted) := by
  simp only [armSend]
  split
  · have hsame : SameQueue owner.conn { owner.conn with sendArmed := true } :=
      ⟨rfl, rfl, rfl, rfl, rfl, rfl, rfl, rfl⟩
    exact ⟨fun _ htracks => hsame.tracks quiet_done htracks, hsame.still,
      fun hdeclined => absurd hdeclined id, hsame.cap_eq⟩
  · exact kept_misuse

theorem release_kept : Kept owner (release owner) := by
  unfold release
  split
  · have hsame : SameQueue owner.conn { owner.conn with sendArmed := false } :=
      ⟨rfl, rfl, rfl, rfl, rfl, rfl, rfl, rfl⟩
    exact ⟨fun _ htracks => hsame.tracks quiet_done htracks, hsame.still,
      fun hdeclined => absurd hdeclined id, hsame.cap_eq⟩
  · exact kept_misuse

/-- The kernel takes bytes off the front of what is sendable. -/
theorem Tracks.advanced {accepted : Nat} {owner' : Owner} {armed : Bool}
    (htracks : Tracks log owner) (haccepted : owner.conn.sendOffset + accepted ≤ owner.conn.sendLen)
    (howner : owner'.conn =
      { owner.conn with sendOffset := owner.conn.sendOffset + accepted, sendArmed := armed }) :
    Tracks (log ++ [.accepted (slice owner.conn.sendBuf owner.conn.sendOffset
      (owner.conn.sendOffset + accepted))]) owner' := by
  have hlen := htracks.fits.len_le
  have hsplit : owner.conn.wire =
      slice owner.conn.sendBuf owner.conn.sendOffset (owner.conn.sendOffset + accepted) ++
        owner'.conn.wire := by
    rw [howner]
    show slice _ _ _ ++ _ = _ ++ (slice _ _ _ ++ _)
    rw [← append_assoc, slice_append_slice (Nat.le_add_right _ _) haccepted]
  have hshorter : owner'.conn.wire.length ≤ owner.conn.wire.length := by
    rw [hsplit, length_append]
    omega
  have hcharge := htracks.fits.charge_le
  refine ⟨⟨⟨?_, ?_⟩, ?_, ?_, ?_, ?_⟩, ?_, ?_, ?_⟩
  · rw [howner]
    exact haccepted
  · rw [howner]
    exact hlen
  · rw [howner]
    exact htracks.fits.stored_le
  · rw [howner]
    exact htracks.fits.uncharged
  · have hcap : owner'.conn.sendqCap = owner.conn.sendqCap := by rw [howner]
    have hdeferred : owner'.conn.tlsDeferredCharge = owner.conn.tlsDeferredCharge := by rw [howner]
    have hcontrol : owner'.conn.tlsControlCharge = owner.conn.tlsControlCharge := by rw [howner]
    rw [charge] at hcharge ⊢
    omega
  · rw [howner]
    exact htracks.fits.cap_lt
  · rw [committedWire_append, handedToKernel_append]
    show _ ++ slice _ _ _ ++ _ = _ ++ []
    rw [append_nil, append_assoc, ← hsplit, htracks.fifo]
  · rw [pendingChunks_append, howner]
    exact htracks.tail
  · rw [pendingChunks_append]
    exact htracks.storable

theorem complete_kept (accepted : Nat) (hold : Bool) :
    Kept owner (complete owner accepted hold) := by
  simp only [complete]
  split
  · next hchecks =>
    obtain ⟨harmed, -, -, hoffset, haccepted⟩ := hchecks
    have hwithin : owner.conn.sendOffset + accepted ≤ owner.conn.sendLen := by omega
    split
    · exact ⟨fun _ htracks => htracks.advanced hwithin rfl, fun _ _ => ⟨Nat.le_refl _, rfl⟩,
        fun hdeclined => absurd hdeclined id, rfl⟩
    · exact ⟨fun _ htracks => htracks.advanced hwithin rfl, fun _ _ => ⟨Nat.le_refl _, rfl⟩,
        fun hdeclined => absurd hdeclined id, rfl⟩
  · exact kept_misuse

/-- A drained buffer may be laid out anew as long as what is sendable stays the same. -/
theorem drained_kept {conn' : Connection} (hdrained : Drained owner.conn)
    (hbounded : Fits owner.conn → Bounded conn') (hwire : conn'.wire = owner.conn.wire)
    (hcap : conn'.sendqCap = owner.conn.sendqCap)
    (hplain : conn'.tlsDeferredPlain = owner.conn.tlsDeferredPlain)
    (hdeferred : conn'.tlsDeferredCharge = owner.conn.tlsDeferredCharge)
    (hcontrol : conn'.tlsControlCharge = owner.conn.tlsControlCharge) :
    Kept owner (.done, { owner with conn := conn' }) where
  tracks log htracks :=
    { fits :=
        { toBounded := hbounded htracks.fits
          stored_le := by rw [hplain, hdeferred]; exact htracks.fits.stored_le
          uncharged := fun hnone => by rw [hdeferred]; exact htracks.fits.uncharged (hplain ▸ hnone)
          charge_le := by
            rw [charge, hwire, hdeferred, hcontrol, hcap]
            exact htracks.fits.charge_le
          cap_lt := by rw [hcap]; exact htracks.fits.cap_lt }
      fifo := by
        rw [committedWire_append, handedToKernel_append, quiet_done.wire, quiet_done.accepted,
        append_nil, append_nil, hwire]
        exact htracks.fifo
      tail := by rw [pendingChunks_append, quiet_done.chunks, hplain]; exact htracks.tail
      storable := by rw [pendingChunks_append, quiet_done.chunks]; exact htracks.storable }
  still harmed := absurd (hdrained.1.symm.trans harmed) Bool.false_ne_true
  declined hdeclined := absurd hdeclined id
  cap_eq := hcap

theorem Drained.window_nil (h : Drained conn) : conn.window = [] := slice_empty h.2

theorem reset_kept : Kept owner (step owner .reset) := by
  rw [step]
  split
  · next hdrained =>
    refine drained_kept hdrained (fun _ => ⟨Nat.le_refl 0, Nat.zero_le _⟩) ?_ rfl rfl rfl rfl
    show slice _ 0 0 ++ _ = _ ++ _
    rw [slice_self, hdrained.window_nil]
  · exact kept_misuse

/-- The refill moves the front of the overflow into the drained buffer. -/
theorem refill_wire (hdrained : Drained conn) : (refill conn).wire = conn.wire := by
  unfold refill
  split
  · rfl
  show slice (splice _ 0 _) 0 _ ++ _ = conn.window ++ _
  have hsize : (conn.sendOverflow.take (min conn.sendBuf.length conn.sendOverflow.length)).length =
      min conn.sendBuf.length conn.sendOverflow.length := by
    rw [length_take]
    omega
  have hfront := slice_splice_front conn.sendBuf
    (conn.sendOverflow.take (min conn.sendBuf.length conn.sendOverflow.length))
  rw [hsize] at hfront
  rw [hfront, take_append_drop, hdrained.window_nil, nil_append]

theorem refill_bounded (hbounded : Bounded conn) : Bounded (refill conn) := by
  unfold refill
  split
  · exact hbounded
  refine ⟨Nat.zero_le _, ?_⟩
  simp only
  rw [length_splice (by rw [length_take]; omega)]
  exact Nat.min_le_left _ _

theorem refill_kept : Kept owner (step owner .refill) := by
  rw [step]
  split
  · next hdrained =>
    refine drained_kept hdrained (fun hfits => refill_bounded hfits.toBounded)
      (refill_wire hdrained) ?_ ?_ ?_ ?_
    all_goals
      unfold refill
      split <;> rfl
  · exact kept_misuse

theorem step_kept (owner : Owner) (call : Call) : Kept owner (step owner call) := by
  cases call with
  | rawAppend bytes growth => exact append_kept bytes.length growth (.commit bytes)
  | reserve bytesLen growth => exact append_kept bytesLen growth .abort
  | append bytesLen growth outcome => exact append_kept bytesLen growth outcome
  | controlReservation bytes outcome => exact settleControl_kept bytes outcome
  | consumeControl accepted => exact consumeControl_kept accepted
  | cancelControl => exact cancelControl_kept
  | reservedControlAppend bytesLen growth outcome =>
      exact reservedControlAppend_kept bytesLen growth outcome
  | deferredAppend chunks wireCharge granted growth outcome =>
    exact settleDeferred_kept chunks wireCharge granted growth outcome
  | deferredReplacement ciphertextLen growth outcome =>
      exact deferredReplacement_kept ciphertextLen growth outcome
  | arm submitted => exact arm_kept submitted
  | complete accepted hold => exact complete_kept accepted hold
  | release => exact release_kept
  | reset => exact reset_kept
  | refill => exact refill_kept

theorem run_tracks (htracks : Tracks log owner) (calls : List Call) :
    Tracks (log ++ answers owner calls) (final step owner calls) := by
  induction calls generalizing log owner with
  | nil =>
    rw [answers, visits, map_nil, append_nil]
    exact htracks
  | cons call rest ih =>
    have hrest := ih ((step_kept owner call).tracks log htracks)
    rw [append_assoc] at hrest
    exact hrest

theorem init_tracks (sendBuf : Bytes) {sendqCap : Nat} (hcap : sendqCap < usizeLimit) :
    Tracks [] (Owner.init sendBuf sendqCap) where
  fits := ⟨⟨Nat.le_refl 0, Nat.zero_le _⟩, Nat.le_refl 0, fun _ => rfl, Nat.zero_le _, hcap⟩
  fifo := by
    simp [handedToKernel, committedWire, Owner.init, Connection.empty, Connection.wire,
    Connection.window, slice_self]
  tail := rfl
  storable := by simp [pendingChunks]

/-- While every state in between is armed, the inline bytes stay where and what they are. -/
theorem run_still (harmed : owner.conn.sendArmed = true) (calls : List Call)
    (hall : ∀ v ∈ visits step owner calls, v.after.conn.sendArmed = true) :
    owner.conn.sendLen ≤ (final step owner calls).conn.sendLen ∧
      (final step owner calls).conn.sendBuf.take owner.conn.sendLen =
        owner.conn.sendBuf.take owner.conn.sendLen := by
  induction calls generalizing owner with
  | nil => exact ⟨Nat.le_refl _, rfl⟩
  | cons call rest ih =>
    obtain ⟨hfirst, hrest⟩ := forall_mem_cons.mp hall
    obtain ⟨hlen, htake⟩ := (step_kept owner call).still harmed hfirst
    obtain ⟨hlater, hkept⟩ := ih hfirst hrest
    refine ⟨hlen.trans hlater, ?_⟩
    have hcut := congrArg (List.take owner.conn.sendLen) hkept
    rw [take_take, take_take, Nat.min_eq_left hlen] at hcut
    exact hcut.trans htake

theorem run_cap (owner : Owner) (calls : List Call) :
    (final step owner calls).conn.sendqCap = owner.conn.sendqCap :=
  final_invariant (P := fun later => later.conn.sendqCap = owner.conn.sendqCap)
    (fun later call h => (step_kept later call).cap_eq.trans h) rfl calls

/-- The send queue of a connection is a bounded FIFO. In every run from an empty queue: the
bytes handed to the kernel, the inline window and the overflow are together the wire appends
in commit order; the inline bytes of an armed send neither move nor change; the backlog stays
within the cap; a call that declines leaves the contents alone; and the tail reads back as
the chunks that wait for their replacement. -/
theorem sendq_bounded_fifo (sendBuf : Bytes) (sendqCap : UInt64) (calls : List Call) :
    let owner := final step (Owner.init sendBuf sendqCap.toNat) calls
    let log := answers (Owner.init sendBuf sendqCap.toNat) calls
    handedToKernel log ++ (slice owner.conn.sendBuf owner.conn.sendOffset owner.conn.sendLen ++
        owner.conn.sendOverflow) = committedWire log ∧
      (∀ more, owner.conn.sendArmed = true →
        (∀ v ∈ visits step owner more, v.after.conn.sendArmed = true) →
        slice (final step owner more).conn.sendBuf owner.conn.sendOffset owner.conn.sendLen =
          slice owner.conn.sendBuf owner.conn.sendOffset owner.conn.sendLen) ∧
      backlog owner.conn ≤ sendqCap ∧
      (∀ call, (step owner call).1.Declined →
        (step owner call).2.conn.contents = owner.conn.contents) ∧
      DeferredIterator.collect (owner.conn.tlsDeferredPlain.length + 1)
        ⟨owner.conn.tlsDeferredPlain, 0⟩ =
        .ok (pendingChunks log) := by
  intro owner log
  have htracks : Tracks log owner := run_tracks (init_tracks sendBuf sendqCap.toNat_lt) calls
  refine ⟨htracks.fifo, fun more harmed hall => ?_, ?_,
    fun call => (step_kept owner call).declined, ?_⟩
  · exact slice_eq_of_take (run_still harmed more hall).2 (Nat.le_refl _)
  · have hcap : owner.conn.sendqCap = sendqCap.toNat := run_cap _ calls
    rw [UInt64.le_iff_toNat_le, backlog_toNat htracks.fits, ← hcap]
    exact htracks.fits.charge_le
  · have hcount : (pendingChunks log).length ≤ ((pendingChunks log).flatMap chunkBytes).length :=
      length_le_serialized _
    have hcollect := collect_chunks [] htracks.storable (Nat.lt_succ_of_le hcount)
    rw [nil_append, ← htracks.tail] at hcollect
    exact hcollect

/-- An armed prefix, an append behind it, a partial completion and a refill from the overflow. -/
example :
    let calls : List Call := [.rawAppend [1, 2, 3] none, .arm 3, .rawAppend [4, 5] (some 0),
      .complete 2 false, .arm 1, .complete 1 false, .refill]
    let owner := final step (Owner.init [0, 0, 0, 0] 16) calls
    owner.conn.window = [4, 5] ∧ handedToKernel (answers (Owner.init [0, 0, 0, 0] 16) calls) =
      [1, 2, 3] := by
  decide

end OnyxServer.SendQ
