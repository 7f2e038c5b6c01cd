import OnyxServer.Delta.MemberForms

/-!
# Payloads tell members apart

What is written of a member is determined by its id, the counters of its context and its
live adds, and it determines them. Both decoders accept only what they would write.
-/
namespace OnyxServer.Delta

open Lib List

variable {hlc : Hlc} {a b : MemberEntry}

/-- The same member with the same context and the same live adds, in any order. -/
structure SameMember (a b : MemberEntry) : Prop where
  memberId : a.memberId = b.memberId
  context : ∀ replica, a.context.counter replica = b.context.counter replica
  adds : ∀ add, add ∈ a.adds ↔ add ∈ b.adds

theorem counter_le_of_dots {v w : VersionVector} (hv : DistinctKeys VersionEntry.replica v.entries)
    (hw : DistinctKeys VersionEntry.replica w.entries)
    (h : ∀ dot, dot ∈ contextDots v.entries → dot ∈ contextDots w.entries) (replica : UInt64) :
    v.counter replica ≤ w.counter replica := by
  by_cases hzero : v.counter replica = 0
  · rw [hzero]
    exact UInt64.zero_le
  · have hdot : (⟨replica, v.counter replica⟩ : Dot) ∈ contextDots v.entries :=
      (mem_contextDots_iff hv).mpr ⟨hzero, le_refl _⟩
    exact ((mem_contextDots_iff hw).mp (h _ hdot)).2

/-- Contexts of the same dots have the same counters. -/
theorem counter_eq_of_dots {v w : VersionVector} (hv : DistinctKeys VersionEntry.replica v.entries)
    (hw : DistinctKeys VersionEntry.replica w.entries)
    (h : ∀ dot, dot ∈ contextDots v.entries ↔ dot ∈ contextDots w.entries) (replica : UInt64) :
    v.counter replica = w.counter replica :=
  le_antisymm (counter_le_of_dots hv hw (fun dot => (h dot).mp) replica)
    (counter_le_of_dots hw hv (fun dot => (h dot).mpr) replica)

theorem mem_of_counter {vv : VersionVector} {replica : UInt64} (h : vv.counter replica ≠ 0) :
    (⟨replica, vv.counter replica⟩ : VersionEntry) ∈ vv.entries := by
  unfold VersionVector.counter at *
  cases hfind : vv.entries.find? fun e => e.replica == replica with
  | none =>
    rw [hfind] at h
    exact absurd rfl h
  | some e =>
    have hkey : (e.replica == replica) = true :=
      List.find?_some (p := fun e : VersionEntry => e.replica == replica) hfind
    obtain rfl := beq_iff_eq.mp hkey
    exact mem_of_find?_eq_some hfind

theorem SameMember.mem_entries (h : SameMember a b) (ha : a.Wf) {e : VersionEntry}
    (he : e ∈ a.context.entries) :
    e ∈ b.context.entries := by
  have hcounter := counter_of_mem ha.replicas he
  rw [h.context] at hcounter
  have hmem := mem_of_counter (hcounter ▸ ha.counters e he)
  rwa [hcounter] at hmem

theorem SameMember.symm (h : SameMember a b) : SameMember b a :=
  ⟨h.memberId.symm, fun replica => (h.context replica).symm, fun add => (h.adds add).symm⟩

theorem mem_addItem {entry : MemberEntry} {item : Bytes × Dot} :
    item ∈ entry.adds.map addItem ↔ ∃ add, add ∈ entry.adds ∧ addItem add = item := mem_map

theorem nodup_id {dots : List Dot} (h : dots.Nodup) : (dots.map id).Nodup := by rwa [map_id]

theorem SameMember.context_eq (h : SameMember a b) (ha : a.Wf) (hb : b.Wf) :
    sortDots (contextDots a.context.entries) = sortDots (contextDots b.context.entries) := by
  refine (sortByKey_eq_iff (nodup_id (contextDots_nodup ha.replicas))
    (nodup_id (contextDots_nodup hb.replicas))).mpr
    fun dot => ?_
  rw [mem_contextDots_iff ha.replicas, mem_contextDots_iff hb.replicas, h.context]

theorem SameMember.denseBody_eq (h : SameMember a b) (ha : a.Wf) (hb : b.Wf) :
    denseBody hlc a = denseBody hlc b := by
  have hadds : sortByKey (·.1) (a.adds.map addItem) = sortByKey (·.1) (b.adds.map addItem) :=
    (sortByKey_eq_iff ha.values hb.values).mpr fun item => by
      rw [mem_addItem, mem_addItem]
      exact exists_congr fun add => and_congr_left' (h.adds add)
  have hdots : ∀ dot, dot ∈ a.adds.map (·.dot) ↔ dot ∈ b.adds.map (·.dot) := fun dot => by
    rw [mem_map, mem_map]
    exact exists_congr fun add => and_congr_left' (h.adds add)
  have hremoves :
      ((sortDots (contextDots b.context.entries)).filter fun dot => dot ∉ a.adds.map (·.dot)) =
      (sortDots (contextDots b.context.entries)).filter fun dot => dot ∉ b.adds.map (·.dot) :=
    filter_congr fun dot _ => decide_eq_decide.mpr (not_congr (hdots dot))
  unfold denseBody
  rw [h.memberId, h.context_eq ha hb, hadds, hremoves]

theorem rank_nodup {entries : List VersionEntry} (h : DistinctKeys VersionEntry.replica entries) :
    (entries.map VersionEntry.rank).Nodup := by
  refine pairwise_map.mpr ((distinctKeys_pairwise.mp h).imp fun {x y} hne heq => hne ?_)
  exact congrArg Prod.fst (toLex.injective heq)

theorem addValue_nodup (h : a.Wf) : ((a.adds.map encodeAddValue).map Subtype.val).Nodup := by
  have hvalues := h.values
  rw [map_map] at hvalues ⊢
  exact hvalues

theorem mem_addValue {add : MemberAdd} :
    encodeAddValue add ∈ a.adds.map encodeAddValue ↔ add ∈ a.adds := by
  rw [mem_map]
  constructor
  · rintro ⟨other, hother, heq⟩
    exact encodeAddValue_inj heq ▸ hother
  · exact fun hadd => ⟨add, hadd, rfl⟩

theorem SameMember.compactView_eq (h : SameMember a b) (ha : a.Wf) (hb : b.Wf) :
    compactView hlc a = compactView hlc b := by
  have hcontext : sortByKey VersionEntry.rank a.context.entries =
      sortByKey VersionEntry.rank b.context.entries :=
    (sortByKey_eq_iff (rank_nodup ha.replicas) (rank_nodup hb.replicas)).mpr fun e =>
      ⟨fun he => h.mem_entries ha he, fun he => h.symm.mem_entries hb he⟩
  have hadds : sortByKey Subtype.val (a.adds.map encodeAddValue) =
      sortByKey Subtype.val (b.adds.map encodeAddValue) :=
    (sortByKey_eq_iff (addValue_nodup ha) (addValue_nodup hb)).mpr fun value => by
      rw [mem_map, mem_map]
      exact exists_congr fun add => and_congr_left' (h.adds add)
  unfold compactView MemberCompact.sortedView
  rw [h.memberId, hcontext, hadds]

/-! ## What is written tells the member -/

theorem layout_values (start : Nat) (items : List (Bytes × List Dot)) :
    (layout start items).map Add.value = items.map (·.1) := by
  induction items generalizing start with
  | nil => rfl
  | cons item items ih => rw [layout, map_cons, map_cons, ih]

theorem same_of_denseView (ha : a.Wf) (hb : b.Wf)
    (h : (denseBody hlc a).view = (denseBody hlc b).view) :
    SameMember a b := by
  have hid : leBytes 8 a.memberId.toNat = leBytes 8 b.memberId.toNat :=
    congrArg DeltaView.entityId h
  have hcontext : sortDots (contextDots a.context.entries) =
      sortDots (contextDots b.context.entries) :=
    congrArg DeltaView.context h
  have hdots := (sortByKey_eq_iff (nodup_id (contextDots_nodup ha.replicas))
    (nodup_id (contextDots_nodup hb.replicas))).mp hcontext
  have hvalues : ∀ entry : MemberEntry, ∀ value : Bytes,
      value ∈ (denseBody hlc entry).view.adds.map Add.value ↔
        ∃ add ∈ entry.adds, (encodeAddValue add).val = value := by
    intro entry value
    show value ∈ (layout 0 ((sortByKey (·.1) (entry.adds.map addItem)).map single)).map Add.value ↔
      _
    rw [layout_values, map_map]
    have hperm := (sortByKey_perm (·.1) (entry.adds.map addItem)).map (fun item => (single item).1)
    refine hperm.mem_iff.trans ?_
    rw [map_map, mem_map]
    rfl
  have hadds : ∀ {x y : MemberEntry}, (denseBody hlc x).view = (denseBody hlc y).view →
      ∀ add, add ∈ x.adds → add ∈ y.adds := by
    intro x y hxy add hadd
    have hmem := (hvalues x _).mpr ⟨add, hadd, rfl⟩
    rw [hxy] at hmem
    obtain ⟨other, hother, heq⟩ := (hvalues y _).mp hmem
    exact encodeAddValue_inj (Subtype.ext heq) ▸ hother
  exact ⟨u64_leBytes_inj hid, counter_eq_of_dots ha.replicas hb.replicas hdots,
    fun add => ⟨hadds h add, hadds h.symm add⟩⟩

theorem same_of_compactView (ha : a.Wf) (hb : b.Wf) (h : compactView hlc a = compactView hlc b) :
    SameMember a b := by
  have hcontext : sortByKey VersionEntry.rank a.context.entries =
      sortByKey VersionEntry.rank b.context.entries :=
    congrArg MemberCompact.View.context h
  have hadds : sortByKey Subtype.val (a.adds.map encodeAddValue) =
      sortByKey Subtype.val (b.adds.map encodeAddValue) :=
    congrArg MemberCompact.View.adds h
  have hentries := (sortByKey_eq_iff (rank_nodup ha.replicas) (rank_nodup hb.replicas)).mp hcontext
  have hvalues := (sortByKey_eq_iff (addValue_nodup ha) (addValue_nodup hb)).mp hadds
  refine ⟨congrArg MemberCompact.View.memberId h,
    counter_eq_of_dots ha.replicas hb.replicas fun dot => ?_, fun add => ?_⟩
  · rw [mem_contextDots, mem_contextDots]
    exact exists_congr fun e => and_congr_left' (hentries e)
  · rw [← mem_addValue, hvalues, mem_addValue]

theorem dense_ne_compact (body : Body) (view : MemberCompact.View) :
    body.image ≠ MemberCompact.image view := by
  intro h
  have hsecond : some (0x44 : UInt8) = some 0x4d := congrArg (fun bytes => bytes[1]?) h
  exact absurd hsecond (by decide)

theorem SameMember.payload_eq (h : SameMember a b) (ha : a.Wf) (hb : b.Wf) :
    payload hlc a = payload hlc b := by
  have hbody : denseBody hlc a = denseBody hlc b := h.denseBody_eq ha hb
  have hlength : (contextDots a.context.entries).length =
      (contextDots b.context.entries).length := by
    have hsorted := congrArg List.length (h.context_eq ha hb)
    rwa [sortDots, sortDots, (sortByKey_perm _ _).length_eq,
      (sortByKey_perm _ _).length_eq] at hsorted
  unfold payload
  rw [hbody, hlength, h.compactView_eq ha hb]

/-- Members within the bounds are written alike exactly when they are the same. -/
theorem payload_eq_iff (ha : a.Wf) (hb : b.Wf) (haddsA : a.adds.length ≤ 128)
    (haddsB : b.adds.length ≤ 128) :
    payload hlc a = payload hlc b ↔ SameMember a b := by
  refine ⟨fun h => ?_, fun h => h.payload_eq ha hb⟩
  unfold payload at h
  split at h
  · rename_i hdenseA
    split at h
    · rename_i hdenseB
      have hcanonical : Canonical codecLimits (denseBody hlc a) :=
        denseBody_canonical ha hdenseA.1 haddsA
      have hview := hcanonical.view_eq (denseBody_canonical hb hdenseB.1 haddsB) hdenseA.2 h
      exact same_of_denseView ha hb hview
    · exact absurd h (dense_ne_compact _ _)
  · split at h
    · exact absurd h.symm (dense_ne_compact _ _)
    · have hcanonical : MemberCompact.Canonical (compactView hlc a) :=
        compactView_canonical ha haddsA
      exact same_of_compactView ha hb (hcanonical.image_inj (compactView_canonical hb haddsB) h)

theorem member_payload_canonical (hlc : Hlc) {a b : MemberEntry} (ha : a.Wf) (hb : b.Wf)
    (haddsA : a.adds.length ≤ 128)
    (haddsB : b.adds.length ≤ 128) (hfitsA : DenseFits hlc a) (hfitsB : DenseFits hlc b) :
    (∃ x y, encodeMemberPayload maxMemberPayload hlc a = .ok x ∧
      encodeMemberPayload maxMemberPayload hlc b = .ok y ∧ (x = y ↔ SameMember a b)) ∧
    (∀ limits capacity input view, decode limits input = .ok view → input.length ≤ capacity →
      view.encode limits capacity = .ok input) ∧
    ∀ capacity input view, MemberCompact.decode input = .ok view → input.length ≤ capacity →
      MemberCompact.encode capacity view.memberId view.hlcKey view.context view.adds =
        .ok input := by
  refine ⟨⟨payload hlc a, payload hlc b, ?_, ?_, payload_eq_iff ha hb haddsA haddsB⟩, ?_, ?_⟩
  · exact encodeMemberPayload_eq ha haddsA hfitsA
  · exact encodeMemberPayload_eq hb haddsB hfitsB
  · exact fun limits capacity input view hdecode hroom => encode_of_decode hdecode hroom
  · exact fun capacity input view hdecode hroom => MemberCompact.encode_of_decode hdecode hroom

/-- A member whose adds stand in one order. -/
def joinedMember : MemberEntry :=
  ⟨7, [⟨⟨2, 1⟩, ⟨5, 0⟩, 1⟩, ⟨⟨1, 3⟩, ⟨4, 0⟩, 0⟩], ⟨[⟨2, 1⟩, ⟨1, 4⟩], by decide⟩⟩

/-- The same member, as another order of merges left it. -/
def mergedMember : MemberEntry :=
  ⟨7, [⟨⟨1, 3⟩, ⟨4, 0⟩, 0⟩, ⟨⟨2, 1⟩, ⟨5, 0⟩, 1⟩], ⟨[⟨1, 4⟩, ⟨2, 1⟩], by decide⟩⟩

theorem joinedMember_wf : joinedMember.Wf := ⟨by decide, by decide, by decide, by decide⟩

theorem mergedMember_wf : mergedMember.Wf := ⟨by decide, by decide, by decide, by decide⟩

theorem member_payload_canonical_merged :
    ∃ x y, encodeMemberPayload maxMemberPayload Hlc.zero joinedMember = .ok x ∧
      encodeMemberPayload maxMemberPayload Hlc.zero mergedMember = .ok y ∧
      (x = y ↔ SameMember joinedMember mergedMember) :=
  (member_payload_canonical Hlc.zero joinedMember_wf mergedMember_wf (by decide) (by decide)
    (fun _ => by decide +kernel) fun _ => by decide +kernel).1

theorem encodeMemberPayload_oversize {entry : MemberEntry} (h : entry.Wf)
    (hadds : 128 < entry.adds.length) (capacity : Nat) :
    encodeMemberPayload capacity hlc entry = .error .oversize := by
  have hdense : encodeMemberDense capacity hlc entry = .error .oversize := by
    rw [encodeMemberDense_eq h, if_neg fun hboth => absurd hboth.2 (by omega)]
  have hcontext :
      ensure (entry.context.entries.length ≤ MemberCompact.maxContext) .oversize = .ok () :=
    ensure_ok.mpr entry.context.bounded
  have hcount : ensure (entry.adds.length ≤ MemberCompact.maxAdds) .oversize = .error .oversize :=
    if_neg (Nat.not_le.mpr hadds)
  unfold encodeMemberPayload
  rw [hdense]
  show encodeMemberCompact capacity hlc entry = _
  unfold encodeMemberCompact
  rw [hcontext, hcount]
  rfl

/-- A member of one live add more than either form carries. -/
def crowdedMember : MemberEntry :=
  ⟨7, (List.range 129).map fun i => ⟨⟨1, UInt64.ofNat (i + 1)⟩, ⟨5, 0⟩, 0⟩, ⟨[⟨1, 129⟩], by decide⟩⟩

theorem crowdedMember_wf : crowdedMember.Wf :=
  ⟨by decide, by decide, by decide +kernel, by decide +kernel⟩

theorem crowded_payload_oversize :
    crowdedMember.Wf ∧ SameMember crowdedMember crowdedMember ∧
      encodeMemberPayload maxMemberPayload Hlc.zero crowdedMember = .error .oversize :=
  ⟨crowdedMember_wf, ⟨rfl, fun _ => rfl, fun _ => Iff.rfl⟩,
    encodeMemberPayload_oversize crowdedMember_wf (by simp [crowdedMember]) maxMemberPayload⟩

end OnyxServer.Delta
