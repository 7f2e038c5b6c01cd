import Mathlib.Data.List.Perm.Subperm
import OnyxServer.Delta.Codec
import OnyxServer.Delta.Holdings

/-!
# What the set encoder writes

Each thing written lies above the one before, so a run of as many as there are writes all
of them once, in order. What a successful encoder leaves is then the image of a body that
says what the set holds.
-/
namespace OnyxServer.Delta

open Lib List Except

variable {T : Type}

theorem nextDotAfter_some {considered : Dot → Bool} {after : Option Dot} {dots : List Dot}
    {dot : Dot} (h : nextDotAfter considered after dots = some dot) :
    dot ∈ dots.filter considered ∧ ∀ p ∈ after, p < dot := by
  have hfold : ∀ (dots : List Dot) (best : Option Dot), dots.foldl (fun best dot =>
      if considered dot = false then best
      else if after.any fun prev => compareDots prev dot != .lt then best
      else if best.all fun b => compareDots dot b == .lt then some dot
      else best) best = some dot → best = some dot ∨
      (dot ∈ dots.filter considered ∧ ∀ p ∈ after, p < dot) := by
    intro dots
    induction dots with
    | nil => exact fun best hbest => .inl hbest
    | cons d dots ih =>
      intro best hbest
      rw [foldl_cons] at hbest
      rcases ih _ hbest with hhead | ⟨hmem, habove⟩
      · by_cases hskip : considered d = false
        · rw [if_pos hskip] at hhead
          exact .inl hhead
        rw [if_neg hskip] at hhead
        split at hhead
        · exact .inl hhead
        rename_i hafter
        split at hhead
        · cases hhead
          refine .inr ⟨mem_filter.mpr ⟨mem_cons_self, by simpa using hskip⟩, fun p hp => ?_⟩
          obtain rfl := Option.mem_def.mp hp
          exact compareDots_lt.mp (by simpa using hafter)
        · exact .inl hhead
      · refine .inr ⟨?_, habove⟩
        rw [filter_cons]
        split
        · exact mem_cons_of_mem _ hmem
        · exact hmem
  exact (hfold dots none h).resolve_left (nomatch ·)

/-- Dots of the candidates, in order above `after`. -/
structure Ascends (candidates : List Dot) (after : Option Dot) (dots : List Dot) : Prop where
  order : dots.Pairwise (· < ·)
  above : ∀ dot ∈ dots, ∀ p ∈ after, p < dot
  subset : ∀ dot ∈ dots, dot ∈ candidates

/-- As many as there are, in order, are all of them. -/
theorem Ascends.perm {candidates dots : List Dot} {after : Option Dot}
    (h : Ascends candidates after dots)
    (hlen : candidates.length ≤ dots.length) : dots.Perm candidates :=
  (subperm_of_subset (h.order.imp fun hlt => hlt.ne) h.subset).perm_of_length_le hlen

variable {p : Unit × Bytes} {written : Bytes}

theorem writeDot_ok {capacity : Nat} {dot : Dot}
    (h : writeDot capacity dot written = .ok p) : p.2 = written ++ dotField dot := by
  obtain ⟨u, -, h₁⟩ := lift_bind_ok h
  obtain ⟨q, hreplica, h₂⟩ := writer_bind_ok h₁
  rw [put_ok h₂, put_ok hreplica, append_assoc]
  rfl

theorem writeNextDots_ok {capacity : Nat} {next : Option Dot → Option Dot}
    {allowed : Dot → Except CodecError Unit}
    (candidates : List Dot) (hnext : ∀ after dot, next after = some dot → dot ∈ candidates ∧
      ∀ p ∈ after, p < dot) {count : Nat} {after : Option Dot}
    (h : writeNextDots capacity next allowed count after written = .ok p) :
    ∃ dots, dots.length = count ∧ p.2 = written ++ dotsField dots ∧
    Ascends candidates after dots := by
  induction count generalizing after written with
  | zero =>
    cases h
    exact ⟨[], rfl, by simp [dotsField], ⟨List.Pairwise.nil, nofun, nofun⟩⟩
  | succ count ih =>
    unfold writeNextDots at h
    cases hdot : next after with
    | none =>
      rw [hdot] at h
      cases h
    | some dot =>
      rw [hdot] at h
      obtain ⟨u, -, h₁⟩ := lift_bind_ok h
      obtain ⟨q, hwrite, h₂⟩ := writer_bind_ok h₁
      obtain ⟨dots, hlen, hp, hascends⟩ := ih h₂
      obtain ⟨hmem, habove⟩ := hnext after dot hdot
      refine ⟨dot :: dots, by simp [hlen], ?_, ⟨?_, ?_, ?_⟩⟩
      · rw [hp, writeDot_ok hwrite]
        simp [dotsField]
      · exact pairwise_cons.mpr ⟨fun d hd => hascends.above d hd dot rfl, hascends.order⟩
      · exact forall_mem_cons.mpr
          ⟨habove, fun d hd r hr => (habove r hr).trans (hascends.above d hd dot rfl)⟩
      · exact forall_mem_cons.mpr ⟨hmem, hascends.subset⟩

variable {limits : Limits} {codec : ValueCodec T} {delta : OrSet T} {capacity : Nat}

variable {after : Option Bytes} {bytes : Bytes}

theorem nextEntryLoop_some {entries : List (Entry T)} {idx i : Nat}
    {best : Option (Nat × Bytes)}
    (h : nextEntryLoop limits codec after entries idx best = .ok (some (i, bytes))) :
    best = some (i, bytes) ∨ ∃ k entry, entries[k]? = some entry ∧ i = idx + k ∧
      encodeValue limits codec entry.value = .ok bytes ∧ ∀ p ∈ after, p < bytes := by
  induction entries generalizing idx best with
  | nil => exact .inl (ok.inj h)
  | cons entry rest ih =>
    have hlift : ∀ {best : Option (Nat × Bytes)},
        nextEntryLoop limits codec after rest (idx + 1) best = .ok (some (i, bytes)) →
        best = some (i, bytes) ∨ ∃ k e, (entry :: rest)[k]? = some e ∧ i = idx + k ∧
          encodeValue limits codec e.value = .ok bytes ∧ ∀ p ∈ after, p < bytes := by
      intro best hrest
      rcases ih hrest with hbest | ⟨k, e, hat, rfl, hencoded⟩
      · exact .inl hbest
      · exact .inr ⟨k + 1, e, hat, by omega, hencoded⟩
    unfold nextEntryLoop at h
    obtain ⟨encoded, hencoded, h₁⟩ := bind_ok h
    split at h₁
    · exact hlift h₁
    rename_i hafter
    split at h₁
    · rcases hlift h₁ with hbest | hlater
      · cases hbest
        refine .inr ⟨0, entry, rfl, rfl, hencoded, fun p hp => ?_⟩
        obtain rfl := Option.mem_def.mp hp
        simpa using hafter
      · exact .inr hlater
    · exact hlift h₁

theorem nextEntryIndex_ok {idx : Nat} (h : nextEntryIndex limits codec delta after = .ok idx) :
    ∃ entry bytes, delta.entries[idx]? = some entry ∧
    encodeValue limits codec entry.value = .ok bytes ∧
      ∀ p ∈ after, p < bytes := by
  obtain ⟨best, hloop, h₁⟩ := bind_ok h
  split at h₁
  · cases h₁
  obtain rfl := ok.inj h₁
  rcases nextEntryLoop_some hloop with hnone | ⟨k, entry, hat, hidx, hencoded⟩
  · cases hnone
  · rw [Nat.zero_add] at hidx
    exact ⟨entry, _, hidx ▸ hat, hencoded⟩

/-- An entry of the set, and what is written of it. -/
structure WrittenEntry (limits : Limits) (codec : ValueCodec T) (delta : OrSet T)
    (item : Entry T × (Bytes × List Dot)) : Prop where
  mem : item.1 ∈ delta.entries
  encoded : encodeValue limits codec item.1.value = .ok item.2.1
  count : item.2.2 ≠ [] ∧ item.2.2.length ≤ limits.maxDotsPerAdd.toNat
  order : item.2.2.Pairwise (· < ·)
  perm : item.2.2.Perm item.1.dots

theorem writeEntries_ok {count : Nat}
    (h : writeEntries limits codec capacity delta count after written = .ok p) :
    ∃ items : List (Entry T × (Bytes × List Dot)), items.length = count ∧
      p.2 = written ++ (items.map (·.2)).flatMap addField ∧ (items.map (·.2.1)).Pairwise (· < ·) ∧
      (∀ item ∈ items, ∀ q ∈ after, q < item.2.1) ∧
      ∀ item ∈ items, WrittenEntry limits codec delta item := by
  induction count generalizing after written with
  | zero =>
    cases h
    exact ⟨[], rfl, by simp, List.Pairwise.nil, nofun, nofun⟩
  | succ count ih =>
    unfold writeEntries at h
    obtain ⟨idx, hidx, h₁⟩ := lift_bind_ok h
    obtain ⟨entry, bytes, hat, hencoded, habove⟩ := nextEntryIndex_ok hidx
    simp only [hat] at h₁
    obtain ⟨valueBytes, hvalue, h₂⟩ := lift_bind_ok h₁
    obtain rfl : bytes = valueBytes := ok.inj (hencoded.symm.trans hvalue)
    obtain ⟨u₁, hcount, h₃⟩ := lift_bind_ok h₂
    obtain ⟨u₂, -, h₄⟩ := lift_bind_ok h₃
    obtain ⟨q₁, hq₁, h₅⟩ := writer_bind_ok h₄
    obtain ⟨q₂, hq₂, h₆⟩ := writer_bind_ok h₅
    obtain ⟨q₃, hdots, h₇⟩ := writer_bind_ok h₆
    obtain ⟨dots, hlen, hq₃, hascends⟩ := writeNextDots_ok entry.dots (fun after dot hdot => by
      simpa [nextSliceDot] using nextDotAfter_some hdot) hdots
    obtain ⟨items, hitems, hp, horder, hnext, hwritten⟩ := ih h₇
    have hbounds := ensure_ok.mp hcount
    have hperm : dots.Perm entry.dots := hascends.perm hlen.ge
    refine ⟨(entry, bytes, dots) :: items, by simp [hitems], ?_, ?_, ?_, ?_⟩
    · rw [hp, hq₃, put_ok hq₂, put_ok hq₁, ← hlen]
      simp [addField]
    · rw [map_cons, pairwise_cons]
      refine ⟨fun b hb => ?_, horder⟩
      obtain ⟨item, hitem, rfl⟩ := mem_map.mp hb
      exact hnext item hitem bytes rfl
    · exact forall_mem_cons.mpr
        ⟨habove, fun item hitem q hq => (habove q hq).trans (hnext item hitem bytes rfl)⟩
    · refine forall_mem_cons.mpr
        ⟨⟨mem_of_getElem? hat, hencoded, ?_, hascends.order, hperm⟩, hwritten⟩
      show dots ≠ [] ∧ dots.length ≤ limits.maxDotsPerAdd.toNat
      rw [← length_pos_iff_ne_nil]
      omega

variable {items : List (Entry T × (Bytes × List Dot))}

/-- As many entries as there are, of growing values, are all of them. -/
theorem chosen_perm (horder : (items.map (·.2.1)).Pairwise (· < ·))
    (hwritten : ∀ item ∈ items, WrittenEntry limits codec delta item)
    (hlen : delta.entries.length ≤ items.length) :
    (items.map (·.1)).Perm delta.entries := by
  have hdistinct : (items.map (·.1)).Nodup := by
    rw [List.Nodup, pairwise_map]
    refine (pairwise_map.mp horder).imp_of_mem fun {a b} ha hb hlt heq => ?_
    have hsame : Except.ok (ε := CodecError) a.2.1 = .ok b.2.1 := by
      rw [← (hwritten a ha).encoded, ← (hwritten b hb).encoded, heq]
    rw [ok.inj hsame] at hlt
    exact lt_irrefl _ hlt
  refine (subperm_of_subset hdistinct fun entry hentry => ?_).perm_of_length_le
    (by simpa using hlen)
  obtain ⟨item, hitem, rfl⟩ := mem_map.mp hentry
  exact (hwritten item hitem).mem

/-- What is written of a set, with the entries that the adds stand for. The encoder looks
at the dots of one entry at a time, so nothing is said of all of them together. -/
structure Written (limits : Limits) (codec : ValueCodec T) (delta : OrSet T)
    (items : List (Entry T × (Bytes × List Dot))) (body : Body) : Prop where
  adds : body.adds = items.map (·.2)
  entries : (items.map (·.1)).Perm delta.entries
  each : ∀ item ∈ items, WrittenEntry limits codec delta item
  context : body.context.Perm delta.cc
  seen : delta.cc.length ≤ limits.maxContextDots.toNat
  live : body.live.Perm (liveIn delta.entries)
  canonical : ∀ maxAddDots : UInt64, body.live.length ≤ maxAddDots.toNat →
    Canonical { limits with maxAddDots := maxAddDots } body

theorem deltaHasLiveDot_iff {dot : Dot} :
    deltaHasLiveDot delta dot = true ↔ dot ∈ liveIn delta.entries := by
  unfold deltaHasLiveDot liveIn
  simp only [any_eq_true, mem_flatMap, dotsContain_iff]

theorem liveDots_perm (hentries : (items.map (·.1)).Perm delta.entries)
    (hwritten : ∀ item ∈ items, WrittenEntry limits codec delta item) :
    (liveDots (items.map (·.2))).Perm (liveIn delta.entries) := by
  unfold liveDots liveIn
  refine List.Perm.trans ?_ (hentries.flatMap_right _)
  rw [flatMap_map, flatMap_map]
  exact List.Perm.flatMap_left _ fun item hitem => (hwritten item hitem).perm

theorem encodeValue_length {value : T} (h : encodeValue limits codec value = .ok bytes) :
    bytes.length ≤ limits.maxValueBytes.toNat := by
  obtain ⟨encoded, -, h₁⟩ := bind_ok h
  obtain ⟨hlen, hpure⟩ := unit_bind_ok.mp h₁
  cases hpure
  exact ensure_ok.mp hlen

/-- What a successful encoder writes is all of the set, in order. -/
theorem writeOrSet_ok {family : EntityFamily} {entityId written : Bytes} {hlc : Hlc} {u : Unit}
    (h : writeOrSet limits codec capacity family entityId hlc delta [] = .ok (u, written)) :
    ∃ (items : List (Entry T × (Bytes × List Dot))) (context removes : List Dot),
      written = (Body.mk family entityId hlc context (items.map (·.2)) removes).image ∧
      (items.map (·.2.1)).Pairwise (· < ·) ∧ (items.map (·.1)).Perm delta.entries ∧
      (∀ item ∈ items, WrittenEntry limits codec delta item) ∧ context.Pairwise (· < ·) ∧
      context.Perm delta.cc ∧
      removes.Pairwise (· < ·) ∧
      removes.Perm (delta.cc.filter fun dot => !deltaHasLiveDot delta dot) ∧
      removes.length ≤ limits.maxRemoveDots.toNat := by
  unfold writeOrSet at h
  obtain ⟨q₁, hheader, h₁⟩ := writer_bind_ok h
  rw [emits_header family entityId hlc [] (Nat.zero_le _)] at hheader
  obtain ⟨q₂, hcount₂, h₂⟩ := writer_bind_ok h₁
  obtain ⟨q₃, hcontext, h₃⟩ := writer_bind_ok h₂
  obtain ⟨q₄, hcount₄, h₄⟩ := writer_bind_ok h₃
  obtain ⟨q₅, hentries, h₅⟩ := writer_bind_ok h₄
  obtain ⟨u₁, hremoves, h₆⟩ := lift_bind_ok h₅
  obtain ⟨q₆, hcount₆, hlast⟩ := writer_bind_ok h₆
  obtain ⟨context, hlenContext, hq₃, hascends⟩ :=
    writeNextDots_ok delta.cc (fun after dot hdot => by
    simpa [nextContextDot] using nextDotAfter_some hdot) hcontext
  obtain ⟨items, hlenItems, hq₅, hvalues, -, heach⟩ := writeEntries_ok hentries
  obtain ⟨removes, hlenRemoves, hq₇, hascendsRemoves⟩ := writeNextDots_ok
    (delta.cc.filter fun dot => !deltaHasLiveDot delta dot)
      (fun after dot hdot => nextDotAfter_some hdot) hlast
  have hfilter : (delta.cc.filter fun dot => !deltaHasLiveDot delta dot).length ≤
      removes.length := by
    rw [hlenRemoves, countRemovedDots, countP_eq_length_filter]
  refine ⟨items, context, removes, ?_, hvalues, chosen_perm hvalues heach hlenItems.ge, heach,
    hascends.order,
    hascends.perm hlenContext.ge, hascendsRemoves.order, hascendsRemoves.perm hfilter,
    hlenRemoves.trans_le (ensure_ok.mp hremoves)⟩
  have hwritten : written = q₆.2 ++ dotsField removes := hq₇
  rw [hwritten, put_ok hcount₆, hq₅, put_ok hcount₄, hq₃, put_ok hcount₂, put_ok hheader]
  simp [Body.image, hlenContext, hlenItems, hlenRemoves]

/-- A successful encoder leaves the image of what the set holds. -/
theorem encode_written {family : EntityFamily} {entityId : Bytes} {hlc : Hlc} (hwf : delta.Wf)
    (h : OrSetCodec.encode limits codec capacity family entityId hlc delta = .ok bytes) :
    ∃ items body, body.family = family ∧ body.entityId = entityId ∧ body.hlc = hlc ∧
    bytes = body.image ∧
      bytes.length ≤ limits.maxWireBytes.toNat ∧ Written limits codec delta items body := by
  unfold OrSetCodec.encode at h
  rw [unit_bind_ok, unit_bind_ok, unit_bind_ok, ensure_ok, ensure_ok, ensure_ok] at h
  obtain ⟨hentity, hcontextCount, haddsCount, h₁⟩ := h
  obtain ⟨⟨u, written⟩, hwrite, h₂⟩ := bind_ok h₁
  obtain ⟨hwire, hpure⟩ := unit_bind_ok.mp h₂
  obtain rfl := ok.inj hpure
  have hwireLength : written.length ≤ limits.maxWireBytes.toNat := ensure_ok.mp hwire
  obtain ⟨items, context, removes, himage, hvalues, hentries, heach, hcontext, hpermContext,
    hremoves, hpermRemoves, hlenRemoves⟩ := writeOrSet_ok hwrite
  have hpermLive := liveDots_perm hentries heach
  have hmemRemoves : ∀ dot, dot ∈ removes ↔ dot ∈ delta.cc ∧ dot ∉ liveIn delta.entries :=
    fun dot => by
    rw [hpermRemoves.mem_iff, mem_filter, Bool.not_eq_true', ← Bool.not_eq_true,
      deltaHasLiveDot_iff]
  have haddsLength :
      (items.map (·.2)).length = delta.entries.length := by simpa using hentries.length_eq
  have hparted : ∀ dot, dot ∈ context ↔ dot ∈ liveDots (items.map (·.2)) ∨ dot ∈ removes :=
    fun dot => by
    rw [hpermContext.mem_iff, hpermLive.mem_iff, hmemRemoves]
    constructor
    · exact fun hdot => (Classical.em (dot ∈ liveIn delta.entries)).imp_right fun hnot =>
        ⟨hdot, hnot⟩
    · exact fun hdot => hdot.elim (hwf.covered dot) (·.1)
  refine ⟨items, ⟨family, entityId, hlc, context, items.map (·.2), removes⟩, rfl, rfl, rfl, ?_,
    hwireLength, ?_⟩
  · exact himage
  refine ⟨rfl, hentries, heach, hpermContext, hcontextCount, hpermLive, fun maxAddDots hlive => ?_⟩
  exact {
    entity := hentity
    contextCount := hpermContext.length_eq.trans_le hcontextCount
    contextOrder := hcontext
    counters := fun dot hdot => hwf.counters dot (hpermContext.mem_iff.mp hdot)
    addsCount := haddsLength.trans_le haddsCount
    values := forall_mem_map.mpr fun item hitem => encodeValue_length (heach item hitem).encoded
    valueOrder := pairwise_map.mpr (pairwise_map.mp hvalues)
    dotsCount := forall_mem_map.mpr fun item hitem => (heach item hitem).count
    dotOrder := forall_mem_map.mpr fun item hitem => (heach item hitem).order
    liveCount := hlive
    liveNodup := hpermLive.nodup_iff.mpr hwf.entries.dots
    removesCount := hlenRemoves
    removeOrder := hremoves
    parted := hparted
    disjoint := fun dot hdot hheld => ((hmemRemoves dot).mp hdot).2 (hpermLive.mem_iff.mp hheld) }

end OnyxServer.Delta
