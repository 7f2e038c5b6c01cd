import OnyxServer.Delta.Selection

/-!
# The round trip of a set

What the encoder leaves of a reachable set is accepted exactly when the live dots of all
entries together fit the decoder's bound; the encoder compares that bound with one entry
at a time. What is then decoded holds the same.
-/
namespace OnyxServer.Delta

open Lib List

variable {T : Type} {limits : Limits} {codec : ValueCodec T} {delta : OrSet T} {body : Body}
  {items : List (Entry T × (Bytes × List Dot))}

theorem decodeEntries_layout {view : DeltaView} {before : List Dot}
    (hdots : view.addDots = before ++ liveDots (items.map (·.2)))
    (hvalues : ∀ item ∈ items, codec.decode item.2.1 = .ok item.1.value) :
    decodeEntries codec view (layout before.length (items.map (·.2))) =
      .ok (items.map fun item => ⟨item.1.value, item.2.2⟩) := by
  induction items generalizing before with
  | nil => rfl
  | cons item rest ih =>
    have hall : view.addDots = before ++ (item.2.2 ++ liveDots (rest.map (·.2))) := hdots
    have hsplit : view.addDots =
        (before ++ item.2.2) ++ liveDots (rest.map (·.2)) := by rw [hall, append_assoc]
    have hnext := ih hsplit fun other hother => hvalues other (mem_cons_of_mem _ hother)
    rw [length_append] at hnext
    rw [map_cons, layout, decodeEntries, dotsOf_range hall, hvalues item mem_cons_self, hnext]
    rfl

/-- What is decoded of a set. -/
def restored (replicaId : UInt64) (items : List (Entry T × (Bytes × List Dot))) (body : Body) :
    OrSet T :=
  ⟨replicaId, items.map fun item => ⟨item.1.value, item.2.2⟩, mergeContext [] body.context⟩

section

variable (h : Written limits codec delta items body)
include h

theorem Written.decode (hcodec : codec.RoundTrips)
    (hlive : body.live.length ≤ limits.maxAddDots.toNat)
    (hwire : body.image.length ≤ limits.maxWireBytes.toNat) (replicaId : UInt64) :
    OrSetCodec.decode limits codec replicaId body.image =
      .ok ⟨body.family, body.entityId, body.hlc, restored replicaId items body⟩ := by
  have hview : Delta.decode limits body.image = .ok body.view :=
    decode_iff.mpr ⟨body, rfl, rfl, h.canonical limits.maxAddDots hlive, hwire⟩
  have hentries : decodeEntries codec body.view body.view.adds =
      .ok (items.map fun item => ⟨item.1.value, item.2.2⟩) := by
    have hlayout : body.view.adds = layout ([] : List Dot).length (items.map (·.2)) :=
      congrArg (layout 0) h.adds
    rw [hlayout]
    refine decodeEntries_layout ?_ fun item hitem => ?_
    · show body.live = [] ++ liveDots (items.map (·.2))
      rw [Body.live, h.adds, nil_append]
    · obtain ⟨bytes, hencode, hrest⟩ := bind_ok (h.each item hitem).encoded
      rw [← Except.ok.inj (unit_bind_ok.mp hrest).2]
      exact hcodec _ _ _ hencode
  unfold OrSetCodec.decode
  rw [hview]
  show (decodeEntries codec body.view body.view.adds >>= _) = _
  rw [hentries]
  rfl

theorem Written.heldIn {value : T} {dot : Dot} (replicaId : UInt64) :
    HeldIn (restored replicaId items body).entries value dot ↔ HeldIn delta.entries value dot := by
  refine Iff.trans ?_ (heldIn_perm h.entries.symm).symm
  unfold HeldIn restored
  constructor
  · rintro ⟨e, he, rfl, hdot⟩
    obtain ⟨item, hitem, rfl⟩ := mem_map.mp he
    exact ⟨item.1, mem_map_of_mem hitem, rfl, (h.each item hitem).perm.mem_iff.mp hdot⟩
  · rintro ⟨e, he, rfl, hdot⟩
    obtain ⟨item, hitem, rfl⟩ := mem_map.mp he
    exact ⟨_, mem_map_of_mem hitem, rfl, (h.each item hitem).perm.mem_iff.mpr hdot⟩

theorem Written.sameSet (replicaId : UInt64) :
    SameSet (restored replicaId items body) delta := by
  refine ⟨fun dot => ?_, fun value dot => h.heldIn replicaId⟩
  show dot ∈ mergeContext [] body.context ↔ _
  rw [mem_mergeContext, h.context.mem_iff]
  simp

theorem Written.restored_wf (hwf : delta.Wf) (replicaId : UInt64) :
    (restored replicaId items body).Wf := by
  have hsame := h.sameSet replicaId
  have hvalues : DistinctKeys (·.value) (restored replicaId items body).entries := by
    have hkeys : DistinctKeys Entry.value (items.map (·.1)) := hwf.entries.values.perm h.entries
    unfold DistinctKeys restored at *
    rw [map_map] at *
    exact hkeys
  have hdots : (liveIn (restored replicaId items body).entries).Nodup := by
    have heq : liveIn (restored replicaId items body).entries = body.live := by
      unfold liveIn restored Body.live liveDots
      rw [h.adds, flatMap_map, flatMap_map]
    rw [heq]
    exact h.live.nodup_iff.mpr hwf.entries.dots
  have hcovered : ∀ dot ∈ liveIn (restored replicaId items body).entries, dot ∈
      (restored replicaId items body).cc := by
    intro dot hdot
    obtain ⟨value, hheld⟩ := mem_liveIn.mp hdot
    exact (hsame.1 dot).mpr (hwf.covered dot (mem_liveIn.mpr ⟨value, (hsame.2 value dot).mp hheld⟩))
  exact ⟨⟨hvalues, hdots, forall_mem_map.mpr fun item hitem => (h.each item hitem).count.1⟩,
    hcovered,
    mergeContext_nodup nodup_nil _, fun dot hdot => hwf.counters dot ((hsame.1 dot).mp hdot)⟩

end

/-- Octets that are decoded to what was encoded, with the same effect on every set. -/
def Restores [DecidableEq T] (limits : Limits) (codec : ValueCodec T) (family : EntityFamily)
    (entityId : Bytes) (hlc : Hlc) (delta : OrSet T) (bytes : Bytes) : Prop :=
  ∀ replicaId, ∃ decoded, OrSetCodec.decode limits codec replicaId bytes = .ok decoded ∧
    decoded.family = family ∧
    decoded.entityId = entityId ∧ decoded.hlc = hlc ∧ decoded.delta.eql delta = true ∧
      ∀ target, Reachable target →
        (target.mergeDelta decoded.delta).eql (target.mergeDelta delta) = true

theorem Canonical.raise (h : Canonical limits body) {maxAddDots : UInt64}
    (hle : limits.maxAddDots ≤ maxAddDots) :
    Canonical { limits with maxAddDots := maxAddDots } body :=
  ⟨h.entity, h.contextCount, h.contextOrder, h.counters, h.addsCount, h.values, h.valueOrder,
    h.dotsCount, h.dotOrder,
    h.liveCount.trans (UInt64.le_iff_toNat_le.mp hle), h.liveNodup, h.removesCount, h.removeOrder,
    h.parted, h.disjoint⟩

/-- The image of a body is decoded to no other live dots. -/
theorem Written.live_le (h : Written limits codec delta items body) (hwf : delta.Wf)
    {view : DeltaView}
    (hdecode : Delta.decode limits body.image = .ok view) :
    body.live.length ≤ limits.maxAddDots.toNat := by
  obtain ⟨other, -, himage, hcanonical, hwire⟩ := decode_iff.mp hdecode
  by_contra hover
  push Not at hover
  have hwidth : body.live.length < 2 ^ 64 := by
    have hsub := (hwf.entries.dots.subperm hwf.covered).length_le
    have hseen := h.seen
    have hmax := limits.maxContextDots.toNat_lt
    rw [h.live.length_eq]
    omega
  have hwide : (UInt64.ofNat body.live.length).toNat = body.live.length := by
    rw [UInt64.toNat_ofNat', Nat.mod_eq_of_lt hwidth]
  have hle : limits.maxAddDots ≤ UInt64.ofNat body.live.length := by
    rw [UInt64.le_iff_toNat_le, hwide]
    omega
  have hsame := (h.canonical _ hwide.ge).view_eq (hcanonical.raise hle) (himage ▸ hwire) himage
  have hlive : body.live = other.live := congrArg DeltaView.addDots hsame
  have hfits := hcanonical.liveCount
  rw [← hlive] at hfits
  omega

theorem orset_round_trip_iff [DecidableEq T] (limits : Limits) (codec : ValueCodec T)
    (hcodec : codec.RoundTrips)
    (capacity : Nat) (family : EntityFamily) (entityId : Bytes) (hlc : Hlc) {delta : OrSet T}
    (hreach : Reachable delta)
    {bytes : Bytes}
    (hencode : OrSetCodec.encode limits codec capacity family entityId hlc delta = .ok bytes) :
    Restores limits codec family entityId hlc delta bytes ↔
      (delta.entries.map fun entry => entry.dots.length).sum ≤ limits.maxAddDots.toNat := by
  have hwf := hreach.wf
  obtain ⟨items, body, rfl, rfl, rfl, rfl, hwire, hwritten⟩ := encode_written hwf hencode
  have hlength : body.live.length = (delta.entries.map fun entry => entry.dots.length).sum := by
    rw [hwritten.live.length_eq, liveIn, length_flatMap]
  rw [← hlength]
  constructor
  · intro h
    obtain ⟨decoded, hdecode, -⟩ := h 0
    obtain ⟨view, hview, -⟩ := bind_ok hdecode
    exact hwritten.live_le hwf hview
  · intro hlive replicaId
    have hrestored := hwritten.restored_wf hwf replicaId
    have hsame := hwritten.sameSet replicaId
    exact ⟨_, hwritten.decode hcodec hlive hwire replicaId, rfl, rfl, rfl,
      eql_of_same hrestored hwf hsame,
      fun target htarget => mergeDelta_same htarget.wf hrestored hwf hsame⟩

theorem u64ValueCodec_roundTrips : u64ValueCodec.RoundTrips := by
  intro room value bytes h
  simp only [u64ValueCodec] at h ⊢
  split_ifs at h
  · cases h
    rw [if_neg (not_not.mpr (leBytes_length 8 _)), leNat_leBytes_u64, UInt64.ofNat_toNat]

/-- Two entries of one dot each may be encoded, and `maxAddDots` live dots decoded. -/
def pairLimits (maxAddDots : UInt64) : Limits := ⟨64, 8, 8, 4, 4, maxAddDots, 4, 4⟩

def pairSet : OrSet UInt64 := ⟨1, [⟨5, [⟨1, 1⟩]⟩, ⟨3, [⟨1, 2⟩]⟩], [⟨1, 1⟩, ⟨1, 2⟩]⟩

theorem pairSet_reachable : Reachable pairSet := by
  have hfirst : (OrSet.init 1).add (5 : UInt64) =
      some (⟨1, [⟨5, [⟨1, 1⟩]⟩], [⟨1, 1⟩]⟩, ⟨1, [⟨5, [⟨1, 1⟩]⟩], [⟨1, 1⟩]⟩) := rfl
  have hsecond : (⟨1, [⟨5, [⟨1, 1⟩]⟩], [⟨1, 1⟩]⟩ : OrSet UInt64).add 3 =
      some (⟨1, [⟨3, [⟨1, 2⟩]⟩], [⟨1, 2⟩]⟩, pairSet) := rfl
  exact .add 3 (.add 5 (.init 1) hfirst) hsecond

def pairBytes : Bytes :=
  [0x47, 0x44, 0x4c, 0x54, 1, 0, 0, 0, 0, 0, 0, 0, 0, 0, 0, 2, 1, 1, 1, 2, 2, 8, 3, 0, 0, 0, 0, 0,
    0, 0, 1, 1, 2, 8, 5, 0, 0, 0, 0, 0, 0, 0, 1, 1, 1, 0]

theorem orset_round_trip_pair :
    Restores (pairLimits 2) u64ValueCodec .users [] Hlc.zero pairSet pairBytes :=
  (orset_round_trip_iff (pairLimits 2) u64ValueCodec u64ValueCodec_roundTrips 64 .users
    [] Hlc.zero pairSet_reachable (by decide +kernel)).mpr (by decide)

/-- Two dots are encoded where the decoder allows one. -/
theorem orset_encoded_oversize :
    Reachable pairSet ∧
    OrSetCodec.encode (pairLimits 1) u64ValueCodec 64 .users [] Hlc.zero pairSet = .ok pairBytes ∧
      OrSetCodec.decode (T := UInt64) (pairLimits 1) u64ValueCodec 2 pairBytes = .error .oversize :=
  ⟨pairSet_reachable, by decide +kernel, by decide +kernel⟩

end OnyxServer.Delta
