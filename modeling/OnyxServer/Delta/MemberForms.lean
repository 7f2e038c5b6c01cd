import OnyxServer.Delta.DenseForm

/-!
# The two forms of a member

Either form is the image of one canonical value that says what the member holds: the dense
body, or the sorted compact view. Which one is written depends on the dots of the context,
on the adds and on the length of the dense form alone.
-/
namespace OnyxServer.Delta

open Lib List

variable {hlc : Hlc} {entry : MemberEntry} {capacity : Nat}

theorem readAddU64_replica (add : MemberAdd) :
    MemberCompact.readAddU64 (encodeAddValue add) 0 = add.dot.replica := by
  unfold MemberCompact.readAddU64 encodeAddValue
  rw [drop_zero, take_left' (leBytes_length _ _), leNat_leBytes_u64, UInt64.ofNat_toNat]

theorem readAddU64_counter (add : MemberAdd) :
    MemberCompact.readAddU64 (encodeAddValue add) 8 = add.dot.counter := by
  unfold MemberCompact.readAddU64 encodeAddValue
  rw [drop_left' (leBytes_length _ _), take_left' (leBytes_length _ _), leNat_leBytes_u64,
    UInt64.ofNat_toNat]

theorem encodeAddValue_take (add : MemberAdd) :
    (encodeAddValue add).val.take 16 =
      leBytes 8 add.dot.replica.toNat ++ leBytes 8 add.dot.counter.toNat := by
  show List.take 16 (leBytes 8 add.dot.replica.toNat ++ (leBytes 8 add.dot.counter.toNat ++ _)) = _
  rw [← append_assoc]
  exact take_left' (by simp)

theorem encodeAddValue_inj {a b : MemberAdd} (h : encodeAddValue a = encodeAddValue b) : a = b := by
  have hval := congrArg Subtype.val h
  unfold encodeAddValue at hval
  obtain ⟨hreplica, h₁⟩ := append_inj hval (by simp)
  obtain ⟨hcounter, h₂⟩ := append_inj h₁ (by simp)
  obtain ⟨htime, hstatus⟩ := append_inj h₂ (by simp)
  obtain ⟨⟨r, c⟩, t, s⟩ := a
  obtain ⟨⟨r', c'⟩, t', s'⟩ := b
  obtain rfl : r = r' := u64_leBytes_inj hreplica
  obtain rfl : c = c' := u64_leBytes_inj hcounter
  obtain rfl : s = s' := (List.cons.inj hstatus).1
  have hkey : t.toU64 = t'.toU64 := u64_leBytes_inj htime
  rw [← hlcFromKey_toU64 t, hkey, hlcFromKey_toU64]

def addItem (add : MemberAdd) : Bytes × Dot := ((encodeAddValue add).val, add.dot)

/-- What a member holds, every dot written out. -/
def denseBody (hlc : Hlc) (entry : MemberEntry) : Body where
  family := .memberships
  entityId := leBytes 8 entry.memberId.toNat
  hlc := hlc
  context := sortDots (contextDots entry.context.entries)
  adds := (sortByKey (·.1) (entry.adds.map addItem)).map single
  removes := (sortDots (contextDots entry.context.entries)).filter fun dot =>
    dot ∉ entry.adds.map (·.dot)

theorem layout_mapIdx (start : Nat) (adds : List MemberAdd) :
    (adds.mapIdx fun idx add => (⟨(encodeAddValue add).val, start + idx, 1⟩ : Add)) =
      layout start ((adds.map addItem).map single) := by
  induction adds generalizing start with
  | nil => rfl
  | cons add adds ih =>
    have hrest := ih (start + 1)
    rw [mapIdx_cons]
    simp only [Nat.add_assoc, Nat.add_comm 1] at hrest
    rw [hrest]
    rfl

theorem liveDots_single (items : List (Bytes × Dot)) :
    liveDots (items.map single) = items.map (·.2) := by
  unfold liveDots
  rw [flatMap_map]
  exact (map_eq_flatMap).symm

theorem MemberEntry.Wf.values (h : entry.Wf) : ((entry.adds.map addItem).map (·.1)).Nodup := by
  rw [map_map]
  have hadds : entry.adds.Nodup := List.Nodup.of_map _ h.dots
  refine hadds.map fun a b hab => encodeAddValue_inj (Subtype.ext ?_)
  exact hab

theorem denseBody_live (hlc : Hlc) (entry : MemberEntry) :
    (denseBody hlc entry).live.Perm (entry.adds.map (·.dot)) := by
  show (liveDots ((sortByKey (·.1) (entry.adds.map addItem)).map single)).Perm _
  rw [liveDots_single]
  have hperm := (sortByKey_perm (·.1) (entry.adds.map addItem)).map (·.2)
  rwa [map_map (l := entry.adds)] at hperm

theorem MemberEntry.Wf.add_mem (h : entry.Wf) {dot : Dot} (hdot : dot ∈ entry.adds.map (·.dot)) :
    dot ∈ contextDots entry.context.entries := by
  obtain ⟨add, hadd, rfl⟩ := mem_map.mp hdot
  exact (mem_contextDots_iff h.replicas).mpr (h.covered add hadd)

theorem mem_sortDots {dots : List Dot} {dot : Dot} : dot ∈ sortDots dots ↔ dot ∈ dots :=
  (sortByKey_perm id dots).mem_iff

theorem sortDots_order {dots : List Dot} (h : dots.Nodup) : (sortDots dots).Pairwise (· < ·) :=
  sortByKey_ascending (by simpa using h)

/-- The dense body of a member within the bounds is canonical. -/
theorem denseBody_canonical (h : entry.Wf)
    (hdots : (contextDots entry.context.entries).length ≤ 512)
    (hadds : entry.adds.length ≤ 128) : Canonical codecLimits (denseBody hlc entry) := by
  have hcontextLength : (denseBody hlc entry).context.length =
      (contextDots entry.context.entries).length :=
    (sortByKey_perm _ _).length_eq
  have haddsLength : (denseBody hlc entry).adds.length = entry.adds.length := by
    show ((sortByKey (·.1) (entry.adds.map addItem)).map single).length = _
    rw [length_map, (sortByKey_perm _ _).length_eq, length_map]
  have hliveLength : (denseBody hlc entry).live.length = entry.adds.length := by
    rw [(denseBody_live hlc entry).length_eq, length_map]
  have hmem : ∀ dot, dot ∈ (denseBody hlc entry).context ↔
      dot ∈ contextDots entry.context.entries :=
    fun dot => mem_sortDots
  have hlive : ∀ dot, dot ∈ (denseBody hlc entry).live ↔ dot ∈ entry.adds.map (·.dot) :=
    fun dot => (denseBody_live hlc entry).mem_iff
  have hremoves : ∀ dot, dot ∈ (denseBody hlc entry).removes ↔
      dot ∈ contextDots entry.context.entries ∧ dot ∉ entry.adds.map (·.dot) := fun dot => by
    rw [← hmem]
    exact mem_filter.trans (and_congr_right' (by simp))
  have horder := sortDots_order (contextDots_nodup h.replicas)
  exact {
    entity := (leBytes_length 8 _).le
    contextCount := hcontextLength.trans_le hdots
    contextOrder := horder
    counters := fun dot hdot => ((mem_contextDots_iff h.replicas).mp ((hmem dot).mp hdot)).1
    addsCount := haddsLength.trans_le hadds
    values := forall_mem_map.mpr fun item hitem => by
      obtain ⟨add, -, rfl⟩ := mem_map.mp ((sortByKey_perm _ _).mem_iff.mp hitem)
      show (encodeAddValue add).val.length ≤ 32
      rw [(encodeAddValue add).property]
      decide
    valueOrder := pairwise_map.mpr (sortByKey_ascending h.values)
    dotsCount := forall_mem_map.mpr fun item _ => ⟨cons_ne_nil _ _, Nat.le_refl _⟩
    dotOrder := forall_mem_map.mpr fun item _ => pairwise_singleton _ _
    liveCount := hliveLength.trans_le hadds
    liveNodup := (denseBody_live hlc entry).nodup_iff.mpr h.dots
    removesCount := (length_filter_le _ _).trans (hcontextLength.trans_le hdots)
    removeOrder := horder.filter _
    parted := fun dot => by
      rw [hmem, hlive, hremoves]
      exact ⟨fun hdot => (Classical.em _).imp_right fun hnot => ⟨hdot, hnot⟩,
      fun hdot => hdot.elim h.add_mem (·.1)⟩
    disjoint := fun dot hdot hheld => ((hremoves dot).mp hdot).2 ((hlive dot).mp hheld) }

theorem fillContext_eq {view : DeltaView} (hview : view.context = []) (vv : VersionVector) :
    fillContext view vv =
      if (contextDots vv.entries).length ≤
        512 then .ok { view with context := sortDots (contextDots vv.entries) }
      else .error .oversize := by
  unfold fillContext
  rw [hview, expandEntries_eq vv.entries (Nat.zero_le _), length_nil, Nat.zero_add, nil_append]
  split <;> rfl

theorem fillAdds_eq (h : entry.Wf) (hlc : Hlc) (view : DeltaView) :
    fillAdds view entry.adds =
      if entry.adds.length ≤ 128
      then .ok { view with adds := layout 0 (denseBody hlc entry).adds, addDots :=
        (denseBody hlc entry).live }
      else .error .oversize := by
  have hmax : codecLimits.maxAdds.toNat = 128 := rfl
  have hstart : (entry.adds.mapIdx fun idx add => (⟨(encodeAddValue add).val, idx, 1⟩ : Add)) =
      layout 0 ((entry.adds.map addItem).map single) := by
    have hlayout := layout_mapIdx 0 entry.adds
    simp only [Nat.zero_add] at hlayout
    exact hlayout
  have hdots : entry.adds.map (·.dot) = (entry.adds.map addItem).map (·.2) := by
    rw [map_map]
    rfl
  have hvalues : (entry.adds.map fun add => (encodeAddValue add).val) =
      (entry.adds.map addItem).map (·.1) := by
    rw [map_map]
    rfl
  unfold fillAdds
  rw [hmax, hstart, hdots, hvalues]
  by_cases hroom : entry.adds.length ≤ 128
  · rw [if_neg (by omega), if_pos hroom]
    have hsorted := sortAdds_eq h.values
    have hlive : (denseBody hlc entry).live =
        (sortByKey (·.1) (entry.adds.map addItem)).map (·.2) := liveDots_single _
    unfold addArrays at hsorted
    rw [hsorted, hlive]
    rfl
  · rw [if_pos (by omega), if_neg hroom]

theorem fillRemoves_eq {view : DeltaView} (h : view.context.length ≤ 512) :
    fillRemoves view =
      .ok { view with removes := view.context.filter fun dot => dot ∉ view.addDots } := by
  unfold fillRemoves
  rw [removesLoop_eq (by simpa using h)]
  rfl

/-- The dense form is the one of the body, within the bounds of the codec. -/
theorem encodeMemberDense_eq (h : entry.Wf) :
    encodeMemberDense capacity hlc entry =
      if (contextDots entry.context.entries).length ≤ 512 ∧ entry.adds.length ≤ 128
      then (denseBody hlc entry).view.encode codecLimits capacity else .error .oversize := by
  unfold encodeMemberDense
  rw [fillContext_eq rfl]
  by_cases hdots : (contextDots entry.context.entries).length ≤ 512
  · rw [if_pos hdots]
    show (fillAdds _ entry.adds >>= _) = _
    rw [fillAdds_eq h hlc]
    by_cases hadds : entry.adds.length ≤ 128
    · rw [if_pos hadds, if_pos ⟨hdots, hadds⟩]
      show (fillRemoves _ >>= _) = _
      have hlength : (sortDots (contextDots entry.context.entries)).length ≤ 512 :=
        (sortByKey_perm _ _).length_eq.trans_le hdots
      rw [fillRemoves_eq hlength]
      have hremoves :
          ((sortDots (contextDots entry.context.entries)).filter fun dot =>
            dot ∉ (denseBody hlc entry).live) =
          (denseBody hlc entry).removes :=
        filter_congr fun dot _ =>
          decide_eq_decide.mpr (not_congr (denseBody_live hlc entry).mem_iff)
      show DeltaView.encode codecLimits capacity ⟨.memberships, _, hlc, _, _, _, _⟩ = _
      rw [hremoves]
      rfl
    · rw [if_neg hadds, if_neg fun hboth => hadds hboth.2]
      rfl
  · rw [if_neg hdots, if_neg fun hboth => hdots hboth.1]
    rfl

/-! ## The compact form -/

def compactView (hlc : Hlc) (entry : MemberEntry) : MemberCompact.View :=
  MemberCompact.sortedView entry.memberId hlc.toU64 entry.context.entries
    (entry.adds.map encodeAddValue)

theorem contextCounter_of_mem {entries : List VersionEntry}
    (h : DistinctKeys VersionEntry.replica entries)
    {e : VersionEntry} (he : e ∈ entries) : MemberCompact.contextCounter entries e.replica =
      e.counter := by
  unfold MemberCompact.contextCounter
  rw [find?_replica h he]

theorem frontier_sorted (h : entry.Wf) :
    (compactView hlc entry).context.Pairwise fun a b => a.replica < b.replica := by
  have hkeys : DistinctKeys VersionEntry.replica (compactView hlc entry).context :=
    h.replicas.perm (sortByKey_perm _ _)
  refine ((sortByKey_sorted VersionEntry.rank entry.context.entries).and
    (distinctKeys_pairwise.mp hkeys)).imp ?_
  rintro a b ⟨hle, hne⟩
  rcases Prod.Lex.le_iff.mp hle with hlt | ⟨heq, -⟩
  · exact hlt
  · exact absurd heq hne

theorem compactView_canonical (h : entry.Wf) (hadds : entry.adds.length ≤ 128) :
    MemberCompact.Canonical (compactView hlc entry) := by
  have hperm : (compactView hlc entry).context.Perm entry.context.entries := sortByKey_perm _ _
  have hkeys : DistinctKeys VersionEntry.replica (compactView hlc entry).context :=
    h.replicas.perm hperm
  have hpermAdds : (compactView hlc entry).adds.Perm (entry.adds.map encodeAddValue) :=
    sortByKey_perm _ _
  have hsorted : (compactView hlc entry).adds.Pairwise fun a b => a.val < b.val := by
    have hvalues := h.values
    rw [map_map] at hvalues
    refine sortByKey_ascending ?_
    rw [map_map]
    exact hvalues
  have hdots : (compactView hlc entry).adds.Pairwise fun a b => a.val.take 16 ≠ b.val.take 16 := by
    have hall : (entry.adds.map encodeAddValue).Pairwise fun a b => a.val.take 16 ≠
        b.val.take 16 := by
      refine pairwise_map.mpr ((distinctKeys_pairwise.mp h.dots).imp fun {a b} hne heq => hne ?_)
      rw [encodeAddValue_take, encodeAddValue_take] at heq
      obtain ⟨hreplica, hcounter⟩ := append_inj heq (by simp)
      exact congrArg₂ Dot.mk (u64_leBytes_inj hreplica) (u64_leBytes_inj hcounter)
    exact (hpermAdds.pairwise_iff fun hne => hne.symm).mpr hall
  refine ⟨hperm.length_eq.trans_le entry.context.bounded, ?_, ?_, ?_⟩
  · exact MemberCompact.validateContext_ok.mpr
      ⟨frontier_sorted h, fun e he => h.counters e (hperm.mem_iff.mp he), by simp⟩
  · rw [hpermAdds.length_eq, length_map]
    exact hadds
  · refine MemberCompact.validateAdds_ok.mpr ⟨fun value hvalue => ?_, (hsorted.and hdots).isChain⟩
    obtain ⟨add, hadd, rfl⟩ := mem_map.mp (hpermAdds.mem_iff.mp hvalue)
    obtain ⟨hzero, hle⟩ := h.covered add hadd
    rw [readAddU64_counter, readAddU64_replica]
    obtain ⟨e, he, hreplica, -, hcounter⟩ :=
      mem_contextDots.mp ((mem_contextDots_iff h.replicas).mpr ⟨hzero, hle⟩)
    rw [hreplica, contextCounter_of_mem hkeys (hperm.mem_iff.mpr he)]
    exact ⟨hzero, hcounter⟩

theorem countField_length (count : Nat) : (countField count).length ≤ 10 := by
  have hloop : ∀ (fuel : Nat) (value : UInt64), (Coilpack.appendVarintLoop fuel value).length ≤
      fuel + 1 := by
    intro fuel
    induction fuel with
    | zero => exact fun value => Nat.le_refl _
    | succ fuel ih =>
      intro value
      unfold Coilpack.appendVarintLoop
      split
      · exact Nat.succ_le_succ (ih _)
      · exact Nat.succ_le_succ (Nat.zero_le _)
  exact hloop 9 _

theorem flatMap_length_const {α : Type} {items : List α} {f : α → Bytes} {n : Nat}
    (h : ∀ a ∈ items, (f a).length = n) :
    (items.flatMap f).length = items.length * n := by
  induction items with
  | nil => simp
  | cons a items ih =>
    obtain ⟨ha, hrest⟩ := forall_mem_cons.mp h
    rw [flatMap_cons, length_append, ha, ih hrest, length_cons, Nat.succ_mul, Nat.add_comm]

theorem compact_image_length {view : MemberCompact.View} (h : MemberCompact.Canonical view) :
    (MemberCompact.image view).length ≤ MemberCompact.maxBytes := by
  have hcontext : (view.context.flatMap MemberCompact.entryField).length =
      view.context.length * 16 :=
    flatMap_length_const fun e _ => by simp [MemberCompact.entryField]
  have hadds : (view.adds.flatMap Subtype.val).length = view.adds.length * 25 :=
    flatMap_length_const fun add _ => add.property
  have hcontextCount : view.context.length ≤ 65 := h.contextCount
  have haddsCount : view.adds.length ≤ 128 := h.addsCount
  have hfirst := countField_length view.context.length
  have hsecond := countField_length view.adds.length
  have hmagic : MemberCompact.magic.length = 4 := rfl
  have hmax : MemberCompact.maxBytes = 4281 := rfl
  unfold MemberCompact.image
  simp only [length_append, leBytes_length, hcontext, hadds, hmagic, length_singleton]
  omega

/-- The compact form has room for every member of so many adds. -/
theorem encodeMemberCompact_eq (h : entry.Wf) (hlc : Hlc) (hadds : entry.adds.length ≤ 128) :
    encodeMemberCompact maxMemberPayload hlc entry =
      .ok (MemberCompact.image (compactView hlc entry)) := by
  have hcanonical : MemberCompact.Canonical (compactView hlc entry) := compactView_canonical h hadds
  have hroom : (MemberCompact.image (compactView hlc entry)).length ≤ maxMemberPayload :=
    (compact_image_length hcanonical).trans (Nat.le_max_right _ _)
  have hcontext :
      ensure (entry.context.entries.length ≤ MemberCompact.maxContext) .oversize = .ok () :=
    ensure_ok.mpr entry.context.bounded
  have hcount : ensure (entry.adds.length ≤ MemberCompact.maxAdds) .oversize = .ok () :=
    ensure_ok.mpr hadds
  unfold encodeMemberCompact
  rw [hcontext, hcount]
  show MemberCompact.encode maxMemberPayload entry.memberId hlc.toU64 entry.context.entries
    (entry.adds.map encodeAddValue) = _
  rw [MemberCompact.encode_of_canonical hcanonical]
  exact if_pos hroom

/-- The form that a member is written in: the dense one, if it is within the bounds. -/
def payload (hlc : Hlc) (entry : MemberEntry) : Bytes :=
  if (contextDots entry.context.entries).length ≤ 512 ∧ (denseBody hlc entry).image.length ≤ 4096
  then (denseBody hlc entry).image else MemberCompact.image (compactView hlc entry)

/-- The dense form of a context of few dots does not overrun the buffer. -/
def DenseFits (hlc : Hlc) (entry : MemberEntry) : Prop :=
  (entry.context.entries.map fun e => e.counter.toNat).sum ≤ 512 →
    (denseBody hlc entry).image.length ≤ maxMemberPayload

theorem encodeMemberPayload_eq (h : entry.Wf) (hadds : entry.adds.length ≤ 128)
    (hfits : DenseFits hlc entry) :
    encodeMemberPayload maxMemberPayload hlc entry = .ok (payload hlc entry) := by
  have hwire : codecLimits.maxWireBytes.toNat = 4096 := rfl
  have hcompact := encodeMemberCompact_eq h hlc hadds
  unfold DenseFits at hfits
  rw [← contextDots_length] at hfits
  unfold encodeMemberPayload payload
  rw [encodeMemberDense_eq h]
  by_cases hdots : (contextDots entry.context.entries).length ≤ 512
  · rw [if_pos ⟨hdots, hadds⟩, (denseBody_canonical h hdots hadds).encode,
      if_pos (hfits hdots), hwire]
    by_cases hbytes : (denseBody hlc entry).image.length ≤ 4096
    · rw [if_pos hbytes, if_pos ⟨hdots, hbytes⟩]
    · rw [if_neg hbytes, if_neg fun hboth => hbytes hboth.2]
      exact hcompact
  · rw [if_neg fun hboth => hdots hboth.1, if_neg fun hboth => hdots hboth.1]
    exact hcompact

end OnyxServer.Delta
