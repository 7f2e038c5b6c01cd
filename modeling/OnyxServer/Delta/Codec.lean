import OnyxServer.Delta.Canonical
import OnyxServer.Lib.Wire

/-!
# What the decoder accepts

The readers are inverted from the atoms up. An input is accepted exactly when it is the
image of a canonical body, and the view is that body laid out.
-/
namespace OnyxServer.Delta

section

open Lib List

variable {limits : Limits} {context : List Dot}

/-- The adds that may follow `prev` when `live` are the dots before them. -/
def AddsFollow (limits : Limits) (context : List Dot) :
    Option Bytes → List Dot → List (Bytes × List Dot) → Prop
  | _, _, [] => True
  | prev, live, add :: rest =>
    add.1.length ≤ limits.maxValueBytes.toNat ∧ requireStrictValueOrder prev add.1 = .ok () ∧
      add.2.length ≤ limits.maxDotsPerAdd.toNat ∧ add.2.length ≠ 0 ∧
      live.length + add.2.length ≤ limits.maxAddDots.toNat ∧
        Follows (addDotAllowed context) none live add.2 ∧
      AddsFollow limits context (some add.1) (live ++ add.2) rest

variable {live dots : List Dot}

theorem readAdds_iff {count : Nat} {prev : Option Bytes} {adds all : List Add} {xs rest : Bytes} :
    readAdds limits context count prev adds live xs = .ok ((all, dots), rest) ↔
      ∃ items : List (Bytes × List Dot), all = adds ++ layout live.length items ∧
      dots = live ++ liveDots items ∧
        items.length = count ∧ xs = items.flatMap addField ++ rest ∧
        AddsFollow limits context prev live items := by
  induction count generalizing prev adds live xs with
  | zero =>
    unfold readAdds
    rw [cursor_pure_iff]
    constructor
    · rintro ⟨hanswer, rfl⟩
      cases hanswer
      exact ⟨[], by simp [layout], by simp [liveDots], rfl, rfl, trivial⟩
    · rintro ⟨items, rfl, rfl, hlen, rfl, -⟩
      obtain rfl := length_eq_zero_iff.mp hlen
      exact ⟨by simp [layout, liveDots], rfl⟩
  | succ count ih =>
    unfold readAdds
    rw [(exact_readBoundedBytes _).bind_iff]
    constructor
    · rintro ⟨value, mid, ⟨hvalue, rfl⟩, h₁⟩
      obtain ⟨horder, h₂⟩ := check_bind_iff.mp h₁
      obtain ⟨dotsLen, mid₂, ⟨hmax, rfl⟩, h₃⟩ := (exact_readBoundedCount _).bind_iff.mp h₂
      obtain ⟨hzero, h₄⟩ := require_bind_iff.mp h₃
      obtain ⟨hroom, h₅⟩ := require_bind_iff.mp h₄
      obtain ⟨after, mid₃, hdots, h₆⟩ := cursor_bind_iff.mp h₅
      obtain ⟨ds, rfl, rfl, rfl, hfollows⟩ := readDots_iff.mp hdots
      obtain ⟨items, rfl, rfl, hlen, rfl, hrest⟩ := ih.mp h₆
      refine ⟨(value, ds) :: items, ?_, ?_, by
        simp [hlen], ?_, hvalue, horder, hmax, hzero, hroom, hfollows, hrest⟩
      · simp [layout]
      · simp [liveDots]
      · simp [addField]
    · rintro ⟨items, rfl, rfl, hlen, rfl, hfollow⟩
      obtain ⟨⟨value, ds⟩, items, rfl⟩ := exists_cons_of_length_eq_add_one hlen
      obtain ⟨hvalue, horder, hmax, hzero, hroom, hfollows, hrest⟩ := hfollow
      refine ⟨value, _,
        ⟨hvalue, by simp only [List.flatMap_cons, addField, List.append_assoc]; rfl⟩, ?_⟩
      refine check_bind_iff.mpr
        ⟨horder, (exact_readBoundedCount _).bind_iff.mpr ⟨ds.length, _, ⟨hmax, rfl⟩, ?_⟩⟩
      refine require_bind_iff.mpr ⟨hzero, require_bind_iff.mpr ⟨hroom, 
        cursor_bind_iff.mpr ⟨live ++ ds, items.flatMap addField ++ rest, ?_, ?_⟩⟩⟩
      · exact readDots_iff.mpr ⟨ds, rfl, rfl, rfl, hfollows⟩
      · refine ih.mpr ⟨items, ?_, ?_, by simpa using hlen, rfl, hrest⟩
        · simp [layout]
        · simp [liveDots]

/-- What holds of adds that may stand behind `live`. -/
structure AddsFit (limits : Limits) (context live : List Dot) (items : List (Bytes × List Dot)) :
    Prop where
  values : ∀ add ∈ items, add.1.length ≤ limits.maxValueBytes.toNat
  dotsCount : ∀ add ∈ items, add.2 ≠ [] ∧ add.2.length ≤ limits.maxDotsPerAdd.toNat
  dotOrder : ∀ add ∈ items, add.2.Pairwise (· < ·)
  covered : ∀ dot ∈ liveDots items, dot ∈ context ∧ dot.counter ≠ 0 ∧ dot ∉ live
  nodup : (liveDots items).Nodup
  valueOrder : items.Pairwise fun a b => a.1 < b.1
  count : items ≠ [] → live.length + (liveDots items).length ≤ limits.maxAddDots.toNat

theorem follows_add (h : context.Pairwise (· < ·)) :
    Follows (addDotAllowed context) none live dots ↔
      dots.Pairwise (· < ·) ∧ ∀ dot ∈ dots, dot.counter ≠ 0 ∧ dot ∈ context ∧ dot ∉ live := by
  rw [follows_iff (P := fun live dot => dot ∈ context ∧ dot ∉ live) fun _ _ => addDotAllowed_ok h]
  · simp
  · intro sofar dot other hlt
    simp [hlt.ne']

theorem addsFollow_iff (h : context.Pairwise (· < ·)) {prev : Option Bytes} {live : List Dot}
    {items : List (Bytes × List Dot)} :
    AddsFollow limits context prev live items ↔
      AddsFit limits context live items ∧ ∀ add ∈ items, ∀ p ∈ prev, p < add.1 := by
  induction items generalizing prev live with
  | nil =>
    refine ⟨fun _ => ⟨⟨?_, ?_, ?_, ?_, ?_, ?_, ?_⟩, ?_⟩, fun _ => trivial⟩ <;> simp [liveDots]
  | cons add rest ih =>
    unfold AddsFollow
    rw [requireStrictValueOrder_ok, follows_add h, ih]
    constructor
    · rintro ⟨hvalue, horder, hmax, hzero, hroom, ⟨hdots, hcovered⟩, hfit, hafter⟩
      have hbelow : ∀ other ∈ rest, add.1 < other.1 := fun other hother => hafter other hother _ rfl
      refine ⟨⟨?_, ?_, ?_, ?_, ?_, ?_, ?_⟩, ?_⟩
      · exact forall_mem_cons.mpr ⟨hvalue, hfit.values⟩
      · exact forall_mem_cons.mpr ⟨⟨fun hnil => hzero (by rw [hnil]; rfl), hmax⟩, hfit.dotsCount⟩
      · exact forall_mem_cons.mpr ⟨hdots, hfit.dotOrder⟩
      · intro dot hdot
        rcases mem_append.mp hdot with hdot | hdot
        · obtain ⟨hcounter, hctx, hnot⟩ := hcovered dot hdot
          exact ⟨hctx, hcounter, hnot⟩
        · obtain ⟨hctx, hcounter, hnot⟩ := hfit.covered dot hdot
          exact ⟨hctx, hcounter, fun hmem => hnot (List.mem_append_left _ hmem)⟩
      · refine nodup_append.mpr ⟨hdots.imp ne_of_lt, hfit.nodup, fun a ha b hb hab => ?_⟩
        exact (hfit.covered b hb).2.2 (List.mem_append_right _ (hab ▸ ha))
      · exact pairwise_cons.mpr ⟨hbelow, hfit.valueOrder⟩
      · intro _
        have hlen : (liveDots (add :: rest)).length = add.2.length + (liveDots rest).length :=
          List.length_append
        rw [hlen]
        by_cases hnil : rest = []
        · subst hnil
          exact hroom
        · have hcount := hfit.count hnil
          rw [List.length_append] at hcount
          omega
      · intro other hother p hp
        rcases mem_cons.mp hother with rfl | hother
        · exact horder p hp
        · exact (horder p hp).trans (hbelow other hother)
    · rintro ⟨hfit, hafter⟩
      have hlen : (liveDots (add :: rest)).length = add.2.length + (liveDots rest).length :=
        List.length_append
      have hcount := hfit.count (cons_ne_nil _ _)
      rw [hlen] at hcount
      obtain ⟨hne, hmax⟩ := hfit.dotsCount add mem_cons_self
      obtain ⟨hdots, hlive, hapart⟩ := nodup_append.mp hfit.nodup
      obtain ⟨hbelow, horder⟩ := pairwise_cons.mp hfit.valueOrder
      refine ⟨hfit.values add mem_cons_self, hafter add mem_cons_self, hmax,
        fun hzero => hne (length_eq_zero_iff.mp hzero), by omega,
        ⟨hfit.dotOrder add mem_cons_self, fun dot hdot => ?_⟩,
        ⟨?_, ?_, ?_, ?_, hlive, horder, ?_⟩, ?_⟩
      · obtain ⟨hctx, hcounter, hnot⟩ := hfit.covered dot (List.mem_append_left _ hdot)
        exact ⟨hcounter, hctx, hnot⟩
      · exact fun other hother => hfit.values other (mem_cons_of_mem _ hother)
      · exact fun other hother => hfit.dotsCount other (mem_cons_of_mem _ hother)
      · exact fun other hother => hfit.dotOrder other (mem_cons_of_mem _ hother)
      · intro dot hdot
        obtain ⟨hctx, hcounter, hnot⟩ := hfit.covered dot (List.mem_append_right _ hdot)
        refine ⟨hctx, hcounter, fun hmem => ?_⟩
        rcases mem_append.mp hmem with hmem | hmem
        · exact hnot hmem
        · exact hapart dot hmem dot hdot rfl
      · intro _
        rw [List.length_append]
        omega
      · intro other hother p hp
        rw [← Option.mem_some_iff.mp hp]
        exact hbelow other hother

theorem expectBytes_iff {error : CodecError} {want xs rest : Bytes} {u : Unit} :
    expectBytes error want xs = .ok (u, rest) ↔ xs = want ++ rest := by
  induction want generalizing xs with
  | nil =>
    unfold expectBytes
    rw [cursor_pure_iff]
    simp [eq_comm]
  | cons b want ih =>
    unfold expectBytes
    rw [exact_readU8.bind_iff]
    constructor
    · rintro ⟨byte, mid, ⟨-, rfl⟩, hrest⟩
      obtain ⟨rfl, hnext⟩ := require_bind_iff.mp hrest
      rw [ih.mp hnext]
      rfl
    · rintro rfl
      exact ⟨b, want ++ rest, ⟨trivial, rfl⟩, require_bind_iff.mpr ⟨rfl, ih.mpr rfl⟩⟩

theorem exact_expectBytes (error : CodecError) (want : Bytes) :
    Exact (expectBytes error want) (fun _ => True) fun _ => want := by
  intro xs u rest
  rw [expectBytes_iff, true_and]

theorem exact_readFamily : Exact readFamily (fun _ => True) fun family => [family.tag] := by
  intro xs family rest
  unfold readFamily
  rw [exact_readU8.bind_iff]
  constructor
  · rintro ⟨byte, mid, ⟨-, rfl⟩, hrest⟩
    split at hrest
    all_goals first
      | (obtain ⟨rfl, rfl⟩ := cursor_pure_iff.mp hrest; exact ⟨trivial, rfl⟩)
      | cases hrest
  · rintro ⟨-, rfl⟩
    refine ⟨family.tag, rest, ⟨trivial, rfl⟩, ?_⟩
    cases family <;> rfl

theorem follows_context {dots : List Dot} :
    Follows (fun _ _ => .ok ()) none [] dots ↔ dots.Pairwise (· < ·) ∧
    ∀ dot ∈ dots, dot.counter ≠ 0 := by
  rw [follows_iff (P := fun _ _ => True) fun _ _ => ⟨fun _ => trivial, fun _ => rfl⟩]
  · simp
  · exact fun _ _ _ _ => Iff.rfl

theorem follows_remove (h : context.Pairwise (· < ·)) :
    Follows (fun _ => removeDotAllowed context live) none [] dots ↔
      dots.Pairwise (· < ·) ∧ ∀ dot ∈ dots, dot.counter ≠ 0 ∧ dot ∈ context ∧ dot ∉ live := by
  rw [follows_iff (P := fun _ dot => dot ∈ context ∧ dot ∉ live) fun _ _ => removeDotAllowed_ok h]
  · simp
  · exact fun _ _ _ _ => Iff.rfl

/-- What the reader checks of a body, apart from the partition. -/
structure Readable (limits : Limits) (body : Body) : Prop where
  entity : body.entityId.length ≤ limits.maxEntityBytes.toNat
  contextCount : body.context.length ≤ limits.maxContextDots.toNat
  context : Follows (fun _ _ => .ok ()) none [] body.context
  addsCount : body.adds.length ≤ limits.maxAdds.toNat
  adds : AddsFollow limits body.context none [] body.adds
  removesCount : body.removes.length ≤ limits.maxRemoveDots.toNat
  removes : Follows (fun _ => removeDotAllowed body.context body.live) none [] body.removes

theorem readView_iff {view : DeltaView} {xs rest : Bytes} :
    readView limits xs = .ok (view, rest) ↔ ∃ body, view = body.view ∧ xs = body.image ++ rest ∧
    Readable limits body := by
  unfold readView
  rw [(exact_expectBytes _ _).bind_iff]
  constructor
  · rintro ⟨-, m₁, ⟨-, rfl⟩, h₁⟩
    obtain ⟨-, m₂, ⟨-, rfl⟩, h₂⟩ := (exact_expectBytes _ _).bind_iff.mp h₁
    obtain ⟨family, m₃, ⟨-, rfl⟩, h₃⟩ := exact_readFamily.bind_iff.mp h₂
    obtain ⟨entityId, m₄, ⟨hentity, rfl⟩, h₄⟩ := (exact_readBoundedBytes _).bind_iff.mp h₃
    obtain ⟨key, m₅, ⟨-, rfl⟩, h₅⟩ := exact_readU64Le.bind_iff.mp h₄
    obtain ⟨contextLen, m₆, ⟨hcontextLen, rfl⟩, h₆⟩ := (exact_readBoundedCount _).bind_iff.mp h₅
    obtain ⟨context, m₇, hcontext, h₇⟩ := cursor_bind_iff.mp h₆
    obtain ⟨_, rfl, rfl, rfl, hcontextFollows⟩ := readDots_iff.mp hcontext
    obtain ⟨addsLen, m₈, ⟨haddsLen, rfl⟩, h₈⟩ := (exact_readBoundedCount _).bind_iff.mp h₇
    obtain ⟨⟨adds, live⟩, m₉, hadds, h₉⟩ := cursor_bind_iff.mp h₈
    obtain ⟨items, rfl, rfl, rfl, rfl, hitems⟩ := readAdds_iff.mp hadds
    obtain ⟨removesLen, m₁₀, ⟨hremovesLen, rfl⟩, h₁₀⟩ := (exact_readBoundedCount _).bind_iff.mp h₉
    obtain ⟨removes, m₁₁, hremoves, h₁₁⟩ := cursor_bind_iff.mp h₁₀
    obtain ⟨_, rfl, rfl, rfl, hremovesFollow⟩ := readDots_iff.mp hremoves
    obtain ⟨rfl, rfl⟩ := cursor_pure_iff.mp h₁₁
    refine ⟨⟨family, entityId, hlcFromKey key, context, items, removes⟩, rfl, ?_,
      ⟨hentity, hcontextLen, hcontextFollows, haddsLen, hitems, hremovesLen, hremovesFollow⟩⟩
    simp [Body.image, headerField, toU64_hlcFromKey]
  · rintro ⟨body, rfl, rfl, hread⟩
    simp only [Body.image, headerField, List.append_assoc]
    refine ⟨(), _, ⟨trivial, rfl⟩, (exact_expectBytes _ _).bind_iff.mpr ⟨(), _, ⟨trivial, rfl⟩, ?_⟩⟩
    refine exact_readFamily.bind_iff.mpr ⟨body.family, _, ⟨trivial, rfl⟩, ?_⟩
    refine (exact_readBoundedBytes _).bind_iff.mpr ⟨body.entityId, _, ⟨hread.entity, rfl⟩, ?_⟩
    refine exact_readU64Le.bind_iff.mpr ⟨body.hlc.toU64, _, ⟨trivial, rfl⟩, ?_⟩
    refine (exact_readBoundedCount _).bind_iff.mpr
      ⟨body.context.length, _, ⟨hread.contextCount, rfl⟩, ?_⟩
    refine cursor_bind_iff.mpr
      ⟨body.context, _, readDots_iff.mpr ⟨body.context, rfl, rfl, rfl, hread.context⟩, ?_⟩
    refine (exact_readBoundedCount _).bind_iff.mpr ⟨body.adds.length, _, ⟨hread.addsCount, rfl⟩, ?_⟩
    refine cursor_bind_iff.mpr ⟨(layout 0 body.adds, body.live), _,
      readAdds_iff.mpr ⟨body.adds, rfl, rfl, rfl, rfl, hread.adds⟩, ?_⟩
    refine (exact_readBoundedCount _).bind_iff.mpr
      ⟨body.removes.length, _, ⟨hread.removesCount, rfl⟩, ?_⟩
    refine cursor_bind_iff.mpr
      ⟨body.removes, rest, readDots_iff.mpr ⟨body.removes, rfl, rfl, rfl, hread.removes⟩, ?_⟩
    rw [hlcFromKey_toU64]
    rfl

/-- What is read, with the partition checked, is a canonical body. -/
theorem canonical_iff {body : Body} :
    Canonical limits body ↔
      Readable limits body ∧ validateCausalPartition body.live body.removes body.context =
        .ok () := by
  constructor
  · intro h
    have hcounters : ∀ dot, dot ∈ body.live ∨ dot ∈ body.removes → dot ∈ body.context ∧
        dot.counter ≠ 0 :=
      fun dot hdot => ⟨(h.parted dot).mpr hdot, h.counters dot ((h.parted dot).mpr hdot)⟩
    refine ⟨⟨h.entity, h.contextCount, follows_context.mpr ⟨h.contextOrder, h.counters⟩,
      h.addsCount, ?_, h.removesCount, ?_⟩, ?_⟩
    · refine (addsFollow_iff h.contextOrder).mpr
        ⟨⟨h.values, h.dotsCount, h.dotOrder, fun dot hdot => ?_, h.liveNodup,
        h.valueOrder, fun _ => ?_⟩, by simp⟩
      · obtain ⟨hctx, hcounter⟩ := hcounters dot (.inl hdot)
        exact ⟨hctx, hcounter, not_mem_nil⟩
      · rw [length_nil, Nat.zero_add]
        exact h.liveCount
    · refine (follows_remove h.contextOrder).mpr ⟨h.removeOrder, fun dot hdot => ?_⟩
      obtain ⟨hctx, hcounter⟩ := hcounters dot (.inr hdot)
      exact ⟨hcounter, hctx, h.disjoint dot hdot⟩
    · refine (validateCausalPartition_ok h.removeOrder).mpr fun dot hdot =>
        ⟨fun hboth => ?_, (h.parted dot).mp hdot⟩
      exact h.disjoint dot hboth.2 hboth.1
  · rintro ⟨h, hpartition⟩
    obtain ⟨hcontext, hcounters⟩ := follows_context.mp h.context
    obtain ⟨hfit, -⟩ := (addsFollow_iff hcontext).mp h.adds
    obtain ⟨hremoves, hremoved⟩ := (follows_remove hcontext).mp h.removes
    have hparts := (validateCausalPartition_ok hremoves).mp hpartition
    refine ⟨h.entity, h.contextCount, hcontext, hcounters, h.addsCount, hfit.values,
      hfit.valueOrder, hfit.dotsCount,
      hfit.dotOrder, ?_, hfit.nodup, h.removesCount, hremoves, fun dot =>
      ⟨fun hdot => (hparts dot hdot).2, ?_⟩, fun dot hdot => (hremoved dot hdot).2.2⟩
    · by_cases hnil : body.adds = []
      · simp [Body.live, hnil, liveDots]
      · have hcount := hfit.count hnil
        rwa [length_nil, Nat.zero_add] at hcount
    · rintro (hdot | hdot)
      · exact (hfit.covered dot hdot).1
      · exact (hremoved dot hdot).2.1

/-- The decoder accepts the images of canonical bodies and nothing else. -/
theorem decode_iff {input : Bytes} {view : DeltaView} :
    decode limits input = .ok view ↔
      ∃ body, view = body.view ∧ input = body.image ∧ Canonical limits body ∧
        body.image.length ≤ limits.maxWireBytes.toNat := by
  unfold decode
  rw [unit_bind_ok, ensure_ok]
  constructor
  · rintro ⟨hwire, h⟩
    obtain ⟨⟨read, rest⟩, hread, h₁⟩ := bind_ok h
    obtain ⟨hrest, h₂⟩ := unit_bind_ok.mp h₁
    obtain ⟨hpartition, h₃⟩ := unit_bind_ok.mp h₂
    obtain rfl := Except.ok.inj h₃
    obtain rfl := ensure_ok.mp hrest
    obtain ⟨body, rfl, rfl, hreadable⟩ := readView_iff.mp hread
    rw [append_nil] at hwire ⊢
    exact ⟨body, rfl, rfl, canonical_iff.mpr ⟨hreadable, hpartition⟩, hwire⟩
  · rintro ⟨body, rfl, rfl, hcanonical, hwire⟩
    obtain ⟨hreadable, hpartition⟩ := canonical_iff.mp hcanonical
    have hread : readView limits body.image = .ok (body.view, []) :=
      readView_iff.mpr ⟨body, rfl, (append_nil _).symm, hreadable⟩
    refine ⟨hwire, ?_⟩
    rw [hread]
    change (ensure (([] : Bytes) = []) .trailingBytes >>= fun _ =>
      validateCausalPartition body.live body.removes body.context >>= fun _ => pure body.view) =
        .ok body.view
    exact unit_bind_ok.mpr ⟨ensure_ok.mpr rfl, unit_bind_ok.mpr ⟨hpartition, rfl⟩⟩

/-- Canonical bodies of one image have one view. -/
theorem Canonical.view_eq {body other : Body} (h : Canonical limits body)
    (hother : Canonical limits other)
    (hwire : body.image.length ≤ limits.maxWireBytes.toNat) (heq : body.image = other.image) :
    body.view = other.view := by
  have hbody : decode limits body.image = .ok body.view := decode_iff.mpr ⟨body, rfl, rfl, h, hwire⟩
  have hsame : decode limits body.image = .ok other.view :=
    decode_iff.mpr ⟨other, rfl, heq, hother, heq ▸ hwire⟩
  exact Except.ok.inj (hbody.symm.trans hsame)

end

/-!
## What the encoder writes

A view of a canonical body passes its own checks, and what is written of it is the image,
if the buffer and the wire bound have room. So decoding and encoding are inverse.
-/
section

open Lib

variable {limits : Limits} {context : List Dot} {body : Body}

theorem layout_length (start : Nat) (items : List (Bytes × List Dot)) :
    (layout start items).length = items.length := by
  induction items generalizing start with
  | nil => rfl
  | cons add rest ih => rw [layout, List.length_cons, List.length_cons, ih]

variable {view : DeltaView}

/-- The range of an add holds its dots. -/
theorem dotsOf_range {before after : List Dot} {add : Bytes × List Dot}
    (hdots : view.addDots = before ++ (add.2 ++ after)) :
    view.dotsOf ⟨add.1, before.length, add.2.length⟩ = add.2 := by
  unfold DeltaView.dotsOf
  rw [hdots, List.drop_left, List.take_left]

theorem validateDots_add (h : context.Pairwise (· < ·)) {live dots : List Dot}
    (hdots : Follows (addDotAllowed context) none live dots) :
    validateDots (addDotAllowed context live) none dots = .ok () := by
  have hfollows : Follows (fun _ => addDotAllowed context live) none [] dots := by
    rw [follows_iff (P := fun _ dot => dot ∈ context ∧
      dot ∉ live) (fun _ _ => addDotAllowed_ok h) fun _ _ _ _ => Iff.rfl]
    obtain ⟨horder, hall⟩ := (follows_add h).mp hdots
    exact ⟨horder, fun dot hdot => ⟨by simp, hall dot hdot⟩⟩
  exact validateDots_iff.mpr hfollows

variable {items : List (Bytes × List Dot)}

/-- What stands before the range of an add is the dots of the adds before it. -/
theorem validateAdds_layout (h : view.context.Pairwise (· < ·)) {prev : Option Bytes}
    {before : List Dot} (hdots : view.addDots = before ++ liveDots items)
    (hfollow : AddsFollow limits view.context prev before items) :
    view.validateAdds limits prev (layout before.length items) = .ok () := by
  induction items generalizing prev before with
  | nil => rfl
  | cons add rest ih =>
    obtain ⟨hvalue, horder, hmax, hzero, -, hadd, hrest⟩ := hfollow
    have hall : view.addDots = before ++ (add.2 ++ liveDots rest) := hdots
    have hsplit :
        view.addDots = (before ++ add.2) ++ liveDots rest := by rw [hall, List.append_assoc]
    have htake : view.addDots.take before.length = before := by
      rw [hall, List.take_left]
    have hlen := congrArg List.length hall
    rw [List.length_append, List.length_append] at hlen
    have hnext := ih hsplit hrest
    rw [List.length_append] at hnext
    unfold layout DeltaView.validateAdds
    rw [unit_bind_ok, unit_bind_ok, unit_bind_ok, unit_bind_ok, unit_bind_ok, ensure_ok, ensure_ok,
      ensure_ok, dotsOf_range hall, htake]
    refine ⟨hvalue, ?_, ?_, horder, validateDots_add h hadd, hnext⟩
    · show ¬ (add.2.length = 0 ∨ limits.maxDotsPerAdd.toNat < add.2.length)
      omega
    · show before.length + add.2.length ≤ view.addDots.length
      omega

theorem Canonical.validate (h : Canonical limits body) : body.view.validate limits = .ok () := by
  obtain ⟨hread, hpartition⟩ := canonical_iff.mp h
  have hlive : body.view.addDots = [] ++ liveDots body.adds := rfl
  unfold DeltaView.validate
  rw [unit_bind_ok, unit_bind_ok, unit_bind_ok, unit_bind_ok, unit_bind_ok, ensure_ok, ensure_ok]
  refine ⟨hread.entity, ⟨hread.contextCount, ?_, h.liveCount, hread.removesCount⟩, ?_, ?_, ?_,
    hpartition⟩
  · exact (layout_length 0 body.adds).trans_le hread.addsCount
  · exact validateDots_iff.mpr hread.context
  · exact validateAdds_layout h.contextOrder hlive hread.adds
  · exact validateDots_iff.mpr hread.removes

variable {capacity : Nat}

theorem emits_emit (bytes : Bytes) : Emits .bufferTooSmall capacity (emit capacity bytes) bytes :=
  emits_put _ _ _

theorem emits_dots {dots : List Dot} (h : ∀ dot ∈ dots, dot.counter ≠ 0) :
    Emits .bufferTooSmall capacity (putEach (writeDot capacity) dots) (dotsField dots) :=
  Emits.each fun dot hdot => emits_writeDot capacity (h dot hdot)

theorem emits_header (family : EntityFamily) (entityId : Bytes) (hlc : Hlc) :
    Emits .bufferTooSmall capacity (writeHeader capacity family entityId hlc)
    (headerField family entityId hlc) :=
  (emits_emit _).bind
    ((emits_emit _).bind ((emits_emit _).bind ((emits_emit _).bind (emits_emit _))))

theorem emits_adds {before : List Dot}
    (hdots : view.addDots = before ++ liveDots items)
    (h : ∀ dot ∈ liveDots items, dot.counter ≠ 0) :
    Emits .bufferTooSmall capacity (putEach (fun add => do
      emit capacity (bytesField add.value)
      emit capacity (countField add.dotsLen)
      putEach (writeDot capacity) (view.dotsOf add)) (layout before.length items))
        (items.flatMap addField) := by
  induction items generalizing before with
  | nil => exact emits_pure
  | cons add rest ih =>
    have hall : view.addDots = before ++ (add.2 ++ liveDots rest) := hdots
    have hsplit :
        view.addDots = (before ++ add.2) ++ liveDots rest := by rw [hall, List.append_assoc]
    have hnext := ih hsplit fun dot hdot => h dot (List.mem_append_right _ hdot)
    rw [List.length_append] at hnext
    rw [List.flatMap_cons, layout, putEach]
    refine Emits.bind ?_ hnext
    rw [dotsOf_range hall]
    exact (emits_emit _).bind
      ((emits_emit _).bind (emits_dots fun dot hdot => h dot (List.mem_append_left _ hdot)))

theorem emits_view (h : Canonical limits body) :
    Emits .bufferTooSmall capacity (body.view.write capacity) body.image := by
  have hcounters : ∀ dot, dot ∈ body.live ∨ dot ∈ body.removes → dot.counter ≠ 0 :=
    fun dot hdot => h.counters dot ((h.parted dot).mpr hdot)
  have hlength : body.view.adds.length = body.adds.length := layout_length 0 body.adds
  have hlive : body.view.addDots = [] ++ liveDots body.adds := rfl
  unfold DeltaView.write
  rw [hlength]
  refine (emits_header _ _ _).bind
    ((emits_emit _).bind ((emits_dots h.counters).bind ((emits_emit _).bind ?_)))
  refine (emits_adds hlive fun dot hdot => hcounters dot (.inl hdot)).bind ((emits_emit _).bind ?_)
  exact emits_dots fun dot hdot => hcounters dot (.inr hdot)

theorem Canonical.encode (h : Canonical limits body) (capacity : Nat) :
    body.view.encode limits capacity =
      if body.image.length ≤ capacity then
        if body.image.length ≤ limits.maxWireBytes.toNat then .ok body.image else .error .oversize
      else .error .bufferTooSmall := by
  unfold DeltaView.encode
  rw [h.validate, (emits_view h).run]
  by_cases hroom : body.image.length ≤ capacity
  · rw [if_pos hroom, if_pos hroom]
    change (ensure (body.image.length ≤ limits.maxWireBytes.toNat) .oversize >>= fun _ =>
      pure body.image) = _
    unfold ensure
    split <;> rfl
  · rw [if_neg hroom, if_neg hroom]
    rfl

/-- What the decoder accepts is what its view encodes to. -/
theorem encode_of_decode {input : Bytes} (h : decode limits input = .ok view)
    (hroom : input.length ≤ capacity) : view.encode limits capacity = .ok input := by
  obtain ⟨body, rfl, rfl, hcanonical, hwire⟩ := decode_iff.mp h
  rw [hcanonical.encode, if_pos hroom, if_pos hwire]

end

end OnyxServer.Delta
