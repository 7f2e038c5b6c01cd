import OnyxServer.Delta.View

/-!
# The canonical form of a delta

`Body` is what a view says, apart from where its dots stand in the flat array, and
`image` the octets of it. The decoder accepts the images of canonical bodies and nothing
else, and the encoder writes them.
-/
namespace OnyxServer.Delta

open Lib

structure Body where
  family : EntityFamily
  entityId : Bytes
  hlc : Hlc
  context : List Dot
  adds : List (Bytes × List Dot)
  removes : List Dot

/-- The dots that hold some value live. -/
def liveDots (adds : List (Bytes × List Dot)) : List Dot := adds.flatMap (·.2)

def Body.live (body : Body) : List Dot := liveDots body.adds

/-- The ranges of the adds in the flat array, from `start` on. -/
def layout : Nat → List (Bytes × List Dot) → List Add
  | _, [] => []
  | start, add :: rest => ⟨add.1, start, add.2.length⟩ :: layout (start + add.2.length) rest

def Body.view (body : Body) : DeltaView :=
  ⟨body.family, body.entityId, body.hlc, body.context, layout 0 body.adds, body.live, body.removes⟩

def dotsField (dots : List Dot) : Bytes := dots.flatMap dotField

def addField (add : Bytes × List Dot) : Bytes :=
  bytesField add.1 ++ (countField add.2.length ++ dotsField add.2)

def headerField (family : EntityFamily) (entityId : Bytes) (hlc : Hlc) : Bytes :=
  magic ++ ([version] ++ ([family.tag] ++ (bytesField entityId ++ leBytes 8 hlc.toU64.toNat)))

def Body.image (body : Body) : Bytes :=
  headerField body.family body.entityId body.hlc ++
    (countField body.context.length ++ (dotsField body.context ++
      (countField body.adds.length ++ (body.adds.flatMap addField ++
        (countField body.removes.length ++ dotsField body.removes)))))

/-- The grammar of a canonical delta within the bounds of a codec. -/
structure Canonical (limits : Limits) (body : Body) : Prop where
  entity : body.entityId.length ≤ limits.maxEntityBytes.toNat
  contextCount : body.context.length ≤ limits.maxContextDots.toNat
  contextOrder : body.context.Pairwise (· < ·)
  counters : ∀ dot ∈ body.context, dot.counter ≠ 0
  addsCount : body.adds.length ≤ limits.maxAdds.toNat
  values : ∀ add ∈ body.adds, add.1.length ≤ limits.maxValueBytes.toNat
  valueOrder : body.adds.Pairwise fun a b => a.1 < b.1
  dotsCount : ∀ add ∈ body.adds, add.2 ≠ [] ∧ add.2.length ≤ limits.maxDotsPerAdd.toNat
  dotOrder : ∀ add ∈ body.adds, add.2.Pairwise (· < ·)
  liveCount : body.live.length ≤ limits.maxAddDots.toNat
  liveNodup : body.live.Nodup
  removesCount : body.removes.length ≤ limits.maxRemoveDots.toNat
  removeOrder : body.removes.Pairwise (· < ·)
  parted : ∀ dot, dot ∈ body.context ↔ dot ∈ body.live ∨ dot ∈ body.removes
  disjoint : ∀ dot ∈ body.removes, dot ∉ body.live

theorem compareDots_lt {a b : Dot} : compareDots a b = .lt ↔ a < b := by
  rw [Dot.lt_iff]
  unfold compareDots
  split_ifs <;> simp_all <;> grind

theorem compareDots_eq {a b : Dot} : compareDots a b = .eq ↔ a = b := by
  obtain ⟨r, c⟩ := a
  obtain ⟨r', c'⟩ := b
  unfold compareDots
  simp only [Dot.mk.injEq]
  split_ifs <;> simp_all <;> grind

variable {dot : Dot}

theorem dotsContain_iff {dots : List Dot} : dotsContain dots dot = true ↔ dot ∈ dots := by
  unfold dotsContain
  rw [List.any_eq_true]
  simp only [beq_iff_eq, compareDots_eq, exists_eq_right]

/-- In a strictly ordered list the search may stop at the first dot above. -/
theorem sortedDotsContain_iff {dots : List Dot} (h : dots.Pairwise (· < ·)) :
    sortedDotsContain dots dot = true ↔ dot ∈ dots := by
  induction dots with
  | nil => simp [sortedDotsContain]
  | cons candidate rest ih =>
    obtain ⟨hhead, hrest⟩ := List.pairwise_cons.mp h
    unfold sortedDotsContain
    split
    · rename_i hlt
      have hne : dot ≠ candidate := (compareDots_lt.mp hlt).ne'
      rw [ih hrest, List.mem_cons]
      simp [hne]
    · rename_i heq
      simp [compareDots_eq.mp heq]
    · rename_i hgt
      have hnlt : ¬ candidate < dot := fun hlt => by simp [compareDots_lt.mpr hlt] at hgt
      have hne : candidate ≠ dot := fun heq => by simp [compareDots_eq.mpr heq] at hgt
      refine ⟨fun hfalse => (nomatch hfalse), fun hmem => ?_⟩
      rcases List.mem_cons.mp hmem with rfl | hmem
      · exact absurd rfl hne
      · exact absurd (hhead dot hmem) hnlt

theorem ensure_ok {condition : Prop} [Decidable condition] {error : CodecError} :
    ensure condition error = .ok () ↔ condition := by
  unfold ensure
  split <;> simp_all

theorem unit_bind_ok {β : Type} {x : Except CodecError Unit}
    {f : Unit → Except CodecError β} {b : β} :
    (x >>= f) = .ok b ↔ x = .ok () ∧ f () = .ok b := by
  cases x <;> simp [Bind.bind, Except.bind]

variable {prev : Option Dot}

theorem requireStrictDotOrder_ok :
    requireStrictDotOrder prev dot = .ok () ↔ ∀ p ∈ prev, p < dot := by
  cases prev with
  | none => simp [requireStrictDotOrder]
  | some p =>
    simp only [requireStrictDotOrder, Option.mem_some_iff, forall_eq', ← compareDots_lt]
    split <;> simp_all

theorem requireStrictValueOrder_ok {prev : Option Bytes} {value : Bytes} :
    requireStrictValueOrder prev value = .ok () ↔ ∀ p ∈ prev, p < value := by
  cases prev with
  | none => simp [requireStrictValueOrder]
  | some p =>
    simp only [requireStrictValueOrder, Option.mem_some_iff, forall_eq']
    split_ifs <;> simp_all

theorem addDotAllowed_ok {context live : List Dot} (h : context.Pairwise (· < ·)) :
    addDotAllowed context live dot = .ok () ↔ dot ∈ context ∧ dot ∉ live := by
  unfold addDotAllowed
  rw [unit_bind_ok, ensure_ok, ensure_ok, sortedDotsContain_iff h, dotsContain_iff]

theorem removeDotAllowed_ok {context live : List Dot} (h : context.Pairwise (· < ·)) :
    removeDotAllowed context live dot = .ok () ↔ dot ∈ context ∧ dot ∉ live := by
  unfold removeDotAllowed
  rw [unit_bind_ok, ensure_ok, ensure_ok, sortedDotsContain_iff h, dotsContain_iff]

theorem validateCausalPartition_ok {live removes context : List Dot}
    (h : removes.Pairwise (· < ·)) :
    validateCausalPartition live removes context = .ok () ↔
      ∀ dot ∈ context, ¬ (dot ∈ live ∧ dot ∈ removes) ∧ (dot ∈ live ∨ dot ∈ removes) := by
  induction context with
  | nil => simp [validateCausalPartition]
  | cons dot rest ih =>
    unfold validateCausalPartition
    rw [unit_bind_ok, unit_bind_ok, ensure_ok, ensure_ok, ih, dotsContain_iff,
      sortedDotsContain_iff h, List.forall_mem_cons, and_assoc]

/-- The dots that may follow `prev` when `sofar` stand before them. -/
def Follows (allowed : List Dot → Dot → Except CodecError Unit) :
    Option Dot → List Dot → List Dot → Prop
  | _, _, [] => True
  | prev, sofar, dot :: rest =>
    dot.counter ≠ 0 ∧ requireStrictDotOrder prev dot = .ok () ∧ allowed sofar dot = .ok () ∧
      Follows allowed (some dot) (sofar ++ [dot]) rest

variable {allowed : List Dot → Dot → Except CodecError Unit}

theorem follows_iff {P : List Dot → Dot → Prop}
    (hallowed : ∀ sofar dot, allowed sofar dot = .ok () ↔ P sofar dot)
    (hgrow : ∀ sofar dot other, dot < other → (P (sofar ++ [dot]) other ↔ P sofar other))
    {sofar dots : List Dot} :
    Follows allowed prev sofar dots ↔
      dots.Pairwise (· < ·) ∧
      (∀ dot ∈ dots, (∀ p ∈ prev, p < dot) ∧ dot.counter ≠ 0 ∧ P sofar dot) := by
  induction dots generalizing prev sofar with
  | nil => simp [Follows]
  | cons dot rest ih =>
    unfold Follows
    rw [requireStrictDotOrder_ok, hallowed, ih, List.pairwise_cons, List.forall_mem_cons]
    constructor
    · rintro ⟨hcounter, hprev, hP, hrest, hall⟩
      refine ⟨⟨fun other hother => (hall other hother).1 dot rfl, hrest⟩, ⟨hprev, hcounter, hP⟩,
        fun other hother => ?_⟩
      obtain ⟨hlt, hne, hother⟩ := hall other hother
      exact ⟨fun p hp => (hprev p hp).trans (hlt dot rfl), hne,
        (hgrow _ _ _ (hlt dot rfl)).mp hother⟩
    · rintro ⟨⟨hhead, hrest⟩, ⟨hprev, hcounter, hP⟩, hall⟩
      refine ⟨hcounter, hprev, hP, hrest, fun other hother => ?_⟩
      obtain ⟨-, hne, hP'⟩ := hall other hother
      refine ⟨fun p hp => ?_, hne, (hgrow _ _ _ (hhead other hother)).mpr hP'⟩
      rw [← Option.mem_some_iff.mp hp]
      exact hhead other hother

theorem readDots_iff {count : Nat}
    {sofar all : List Dot} {xs rest : Bytes} :
    readDots allowed count prev sofar xs = .ok (all, rest) ↔
      ∃ dots, all = sofar ++ dots ∧ dots.length = count ∧ xs = dotsField dots ++ rest ∧
        Follows allowed prev sofar dots := by
  induction count generalizing prev sofar xs with
  | zero =>
    unfold readDots
    rw [cursor_pure_iff]
    constructor
    · rintro ⟨rfl, rfl⟩
      exact ⟨[], by simp, rfl, rfl, trivial⟩
    · rintro ⟨dots, rfl, hlen, rfl, -⟩
      obtain rfl := List.length_eq_zero_iff.mp hlen
      exact ⟨by simp, rfl⟩
  | succ count ih =>
    unfold readDots
    rw [exact_readDot.bind_iff]
    constructor
    · rintro ⟨dot, mid, ⟨hcounter, rfl⟩, hnext⟩
      obtain ⟨horder, hnext₂⟩ := check_bind_iff.mp hnext
      obtain ⟨hallowed, hnext₃⟩ := check_bind_iff.mp hnext₂
      obtain ⟨dots, rfl, hlen, rfl, hfollows⟩ := ih.mp hnext₃
      refine ⟨dot :: dots, by simp, by simp [hlen], ?_, hcounter, horder, hallowed, hfollows⟩
      simp [dotsField]
    · rintro ⟨dots, rfl, hlen, rfl, hfollows⟩
      obtain ⟨dot, dots, rfl⟩ := List.exists_cons_of_length_eq_add_one hlen
      obtain ⟨hcounter, horder, hallowed, hrest⟩ := hfollows
      refine ⟨dot, dotsField dots ++ rest, ⟨hcounter, by simp [dotsField]⟩, ?_⟩
      refine check_bind_iff.mpr
        ⟨horder, check_bind_iff.mpr ⟨hallowed, ih.mpr ⟨dots, by simp, ?_, rfl, hrest⟩⟩⟩
      simpa using hlen

theorem validateDots_iff {allowed : Dot → Except CodecError Unit} {sofar dots : List Dot} :
    validateDots allowed prev dots = .ok () ↔ Follows (fun _ => allowed) prev sofar dots := by
  induction dots generalizing prev sofar with
  | nil => simp [validateDots, Follows]
  | cons dot rest ih =>
    unfold validateDots Follows
    rw [unit_bind_ok, unit_bind_ok, unit_bind_ok, validateDot_ok, ih]

end OnyxServer.Delta
