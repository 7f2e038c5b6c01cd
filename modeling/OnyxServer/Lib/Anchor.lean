import Mathlib.Data.List.Basic

/-!
# Matching with one anchor

Some tokens of a pattern stand for any run of the text, the others for one element. The
matcher keeps the last run token as its anchor and gives it one element more at every
mismatch. A run token that also takes the element before it is tried on that element alone:
what the matcher decides are the tight splits.
-/
namespace OnyxServer.Lib

open List Option

variable {τ β : Type}

theorem drop_eq_getD_cons {xs : List β} {i : Nat} (h : i < xs.length) (fallback : β) :
    xs.drop i = xs.getD i fallback :: xs.drop (i + 1) := by
  rw [drop_eq_getElem_cons h, getD_eq_getElem?_getD, List.getElem?_eq_getElem h]
  rfl

/-- The text can be split into the runs and elements the pattern stands for. -/
inductive Splits (takes : τ → β → Bool) (star : τ → Bool) : List τ → List β → Prop
  | nil : Splits takes star [] []
  | run {c : τ} {pattern : List τ} {text : List β} (covered : List β) (hstar : star c = true)
      (h : Splits takes star pattern text) : Splits takes star (c :: pattern) (covered ++ text)
  | one {c : τ} {pattern : List τ} {b : β} {text : List β} (hone : star c = false)
      (htakes : takes c b = true) (h : Splits takes star pattern text) :
      Splits takes star (c :: pattern) (b :: text)

/-- A split in which a run token that takes the element before it covers that element and
nothing else. -/
inductive Tight (takes : τ → β → Bool) (star : τ → Bool) : List τ → List β → Prop
  | nil : Tight takes star [] []
  | run {c : τ} {pattern : List τ} {text : List β} (covered : List β) (hstar : star c = true)
      (hface : ∀ b, (covered ++ text).head? = some b → takes c b = true → covered = [b])
      (h : Tight takes star pattern text) : Tight takes star (c :: pattern) (covered ++ text)
  | one {c : τ} {pattern : List τ} {b : β} {text : List β} (hone : star c = false)
      (htakes : takes c b = true) (h : Tight takes star pattern text) :
      Tight takes star (c :: pattern) (b :: text)

/-- The anchor after a mismatch: its run token covers one element more. -/
def retry : Option (List τ × List β) → Option (List τ × List β)
  | some (rest, _ :: shorter) => some (rest, shorter)
  | _ => none

/-- The matcher. Some pattern is left when the text is used up, or there is a mismatch; none
when the fuel runs out. The anchor is what follows the last run token, and the text from where
that token began. -/
def anchorRun (takes : τ → β → Bool) (star : τ → Bool) :
    Nat → List τ → List β → Option (List τ × List β) → Option (Option (List τ))
  | 0, _, _, _ => none
  | _ + 1, pattern, [], _ => some (some pattern)
  | fuel + 1, [], _ :: _, anchor =>
    match retry anchor with
    | some (rest, shorter) => anchorRun takes star fuel rest shorter (some (rest, shorter))
    | none => some none
  | fuel + 1, c :: pattern, b :: text, anchor =>
    if takes c b = true then anchorRun takes star fuel pattern text anchor
    else if star c = true then
      anchorRun takes star fuel pattern (b :: text) (some (pattern, b :: text))
    else
      match retry anchor with
      | some (rest, shorter) => anchorRun takes star fuel rest shorter (some (rest, shorter))
      | none => some none

/-- What the matcher does at a mismatch. -/
def backtrack (takes : τ → β → Bool) (star : τ → Bool) (fuel : Nat)
    (anchor : Option (List τ × List β)) : Option (Option (List τ)) :=
  match retry anchor with
  | some (rest, shorter) => anchorRun takes star fuel rest shorter (some (rest, shorter))
  | none => some none

section
variable {takes : τ → β → Bool} {star : τ → Bool} {c : τ} {b : β} {pattern rest : List τ}
  {text : List β}

theorem anchorRun_cons (fuel : Nat) (anchor : Option (List τ × List β)) :
    anchorRun takes star (fuel + 1) (c :: pattern) (b :: text) anchor =
      if takes c b = true then anchorRun takes star fuel pattern text anchor
      else if star c = true then
        anchorRun takes star fuel pattern (b :: text) (some (pattern, b :: text))
      else backtrack takes star fuel anchor := by
  rw [anchorRun]
  rfl

theorem Tight.splits (h : Tight takes star pattern text) : Splits takes star pattern text := by
  induction h with
  | nil => exact .nil
  | run covered hstar _ _ ih => exact .run covered hstar ih
  | one hone htakes _ ih => exact .one hone htakes ih

/-- Where no run token takes an element, every split is tight. -/
theorem Splits.tight (hrun : ∀ c ∈ pattern, star c = true → ∀ b ∈ text, takes c b = false)
    (h : Splits takes star pattern text) : Tight takes star pattern text := by
  induction h with
  | nil => exact .nil
  | @run c pattern text covered hstar _ ih =>
    refine .run covered hstar ?_ (ih ?_)
    · intro b hhead htakes
      have hmem : b ∈ covered ++ text := mem_of_mem_head? hhead
      rw [hrun c mem_cons_self hstar b hmem] at htakes
      cases htakes
    · intro c hc hs b hb
      exact hrun c (mem_cons_of_mem _ hc) hs b (mem_append_right _ hb)
  | one hone htakes _ ih =>
    refine .one hone htakes (ih ?_)
    intro c hc hs b hb
    exact hrun c (mem_cons_of_mem _ hc) hs b (mem_cons_of_mem _ hb)

/-- What a first token leaves is split by the rest of the pattern. -/
theorem Tight.tail (h : Tight takes star (c :: pattern) text) :
    ∃ k, Tight takes star pattern (text.drop k) := by
  cases h with
  | run covered _ _ h => exact ⟨covered.length, by rwa [drop_left]⟩
  | one _ _ h => exact ⟨1, h⟩

theorem tight_end : Tight takes star pattern [] ↔ ∀ c ∈ pattern, star c = true := by
  induction pattern with
  | nil => exact ⟨fun _ c hc => (nomatch hc), fun _ => .nil⟩
  | cons c pattern ih =>
    constructor
    · intro h
      generalize htext : ([] : List β) = text at h
      cases h with
      | run covered hstar _ h =>
        rw [(append_eq_nil_iff.mp htext.symm).2] at h
        intro d hd
        rcases mem_cons.mp hd with rfl | hd
        · exact hstar
        · exact ih.mp h d hd
      | one => cases htext
    · intro h
      have hrest := ih.mpr fun d hd => h d (mem_cons_of_mem _ hd)
      exact .run [] (h c mem_cons_self) (fun b hb => nomatch hb) hrest

theorem tight_takes (htakes : takes c b = true) :
    Tight takes star (c :: pattern) (b :: text) ↔ Tight takes star pattern text := by
  constructor
  · intro h
    generalize htext : b :: text = whole at h
    cases h with
    | run covered _ hface h =>
      have hcovered := hface b (by rw [← htext, List.head?_cons]) htakes
      subst hcovered
      rwa [(List.cons.inj htext).2]
    | one _ _ h => rwa [(List.cons.inj htext).2]
  · intro h
    by_cases hstar : star c = true
    · refine .run [b] hstar (fun d hd _ => ?_) h
      rw [singleton_append, List.head?_cons] at hd
      rw [some.inj hd]
    · exact .one (Bool.not_eq_true _ ▸ hstar) htakes h

theorem tight_run (htakes : ¬ takes c b = true) (hstar : star c = true) :
    Tight takes star (c :: pattern) (b :: text) ↔
      ∃ k, Tight takes star pattern ((b :: text).drop k) := by
  constructor
  · exact Tight.tail
  · intro ⟨k, h⟩
    rw [← take_append_drop k (b :: text)]
    refine .run _ hstar (fun d hd htaken => ?_) h
    rw [take_append_drop, List.head?_cons] at hd
    rw [← some.inj hd] at htaken
    exact absurd htaken htakes

theorem not_tight (htakes : ¬ takes c b = true) (hstar : ¬ star c = true) :
    ¬ Tight takes star (c :: pattern) (b :: text) := by
  intro h
  generalize htext : b :: text = whole at h
  cases h with
  | run _ hrun => exact hstar hrun
  | one _ htaken => exact htakes ((List.cons.inj htext).1 ▸ htaken)

/-! ## The matcher decides the tight splits -/

/-- The walk from the first pattern and text takes element after element and arrives at the
others. -/
inductive Taken (takes : τ → β → Bool) (first : List τ) (whole : List β) :
    List τ → List β → Prop
  | start : Taken takes first whole first whole
  | take {c : τ} {pattern : List τ} {b : β} {text : List β} (htakes : takes c b = true)
      (h : Taken takes first whole (c :: pattern) (b :: text)) :
      Taken takes first whole pattern text

variable {first : List τ} {whole : List β}

section

variable (h : Taken takes first whole pattern text)
include h

theorem Taken.length_le :
    pattern.length ≤ first.length ∧ text.length ≤ whole.length := by
  induction h with
  | start => exact ⟨Nat.le_refl _, Nat.le_refl _⟩
  | take _ _ ih =>
    rw [length_cons, length_cons] at ih
    omega

theorem Taken.tight_iff :
    Tight takes star first whole ↔ Tight takes star pattern text := by
  induction h with
  | start => exact Iff.rfl
  | take htakes _ ih => exact ih.trans (tight_takes htakes)

/-- Whatever else the run token before the walk covers, a split reaches the end of the walk
no earlier than the walk does. -/
theorem Taken.tight_drop {k : Nat}
    (hsplit : Tight takes star first (whole.drop k)) :
    ∃ q, Tight takes star pattern (text.drop q) := by
  induction h with
  | start => exact ⟨k, hsplit⟩
  | @take c pattern b text htakes _ ih =>
    obtain ⟨q, hq⟩ := ih
    cases q with
    | zero => exact ⟨0, (tight_takes htakes).mp hq⟩
    | succ q =>
      obtain ⟨i, hi⟩ := Tight.tail hq
      rw [drop_succ_cons, drop_drop] at hi
      exact ⟨q + i, hi⟩

end

/-- What the matcher still has to find: with an anchor, the run token may cover more. -/
def Pending (takes : τ → β → Bool) (star : τ → Bool) (pattern : List τ) (text : List β) :
    Option (List τ × List β) → Prop
  | none => Tight takes star pattern text
  | some (first, whole) => ∃ k, Tight takes star first (whole.drop k)

def Walked (takes : τ → β → Bool) (pattern : List τ) (text : List β)
    (anchor : Option (List τ × List β)) : Prop :=
  ∀ first whole, anchor = some (first, whole) → Taken takes first whole pattern text

/-- The pattern left over consists of run tokens. -/
def Accepts (star : τ → Bool) : Option (List τ) → Prop
  | none => False
  | some pattern => ∀ c ∈ pattern, star c = true

variable {anchor : Option (List τ × List β)}

theorem pending_take (htakes : takes c b = true) :
    Pending takes star (c :: pattern) (b :: text) anchor ↔
    Pending takes star pattern text anchor := by
  cases anchor with
  | none => exact tight_takes htakes
  | some _ => exact Iff.rfl

theorem walked_take (htakes : takes c b = true)
    (hwalked : Walked takes (c :: pattern) (b :: text) anchor) : Walked takes pattern text anchor :=
  fun first whole h => .take htakes (hwalked first whole h)

theorem walked_start (pattern : List τ) (text : List β) :
    Walked takes pattern text (some (pattern, text)) := by
  intro first whole h
  cases h
  exact .start

/-- The walk may forget its anchor at the next run token. -/
theorem pending_star (hwalked : Walked takes (c :: pattern) (b :: text) anchor)
    (htakes : ¬ takes c b = true) (hstar : star c = true) :
    Pending takes star (c :: pattern) (b :: text) anchor ↔
      Pending takes star pattern (b :: text) (some (pattern, b :: text)) := by
  cases anchor with
  | none => exact tight_run htakes hstar
  | some anchor =>
    have htaken := hwalked anchor.1 anchor.2 rfl
    constructor
    · intro ⟨k, hk⟩
      obtain ⟨q, hq⟩ := htaken.tight_drop hk
      obtain ⟨i, hi⟩ := Tight.tail hq
      rw [drop_drop] at hi
      exact ⟨q + i, hi⟩
    · intro h
      exact ⟨0, htaken.tight_iff.mpr ((tight_run htakes hstar).mpr h)⟩

theorem pending_end (hwalked : Walked takes pattern [] anchor) :
    Pending takes star pattern [] anchor ↔ ∀ c ∈ pattern, star c = true := by
  refine Iff.trans ?_ (tight_end : Tight takes star pattern [] ↔ _)
  cases anchor with
  | none => exact Iff.rfl
  | some anchor =>
    have htaken := hwalked anchor.1 anchor.2 rfl
    constructor
    · intro ⟨k, hk⟩
      obtain ⟨q, hq⟩ := htaken.tight_drop hk
      rwa [drop_nil] at hq
    · intro h
      exact ⟨0, htaken.tight_iff.mpr h⟩

/-- After a mismatch the run token covers one element more. -/
theorem pending_back {first : List τ} {d : β} {shorter : List β}
    (hwalked : Walked takes pattern text (some (first, d :: shorter)))
    (hnot : ¬ Tight takes star pattern text) :
    Pending takes star pattern text (some (first, d :: shorter)) ↔
      Pending takes star first shorter (some (first, shorter)) := by
  have htaken := hwalked first (d :: shorter) rfl
  constructor
  · intro ⟨k, hk⟩
    cases k with
    | zero => exact absurd (htaken.tight_iff.mp hk) hnot
    | succ k => exact ⟨k, hk⟩
  · intro ⟨k, hk⟩
    exact ⟨k + 1, hk⟩

theorem anchorRun_accepts {fuel : Nat} {out : Option (List τ)}
    (hwalked : Walked takes pattern text anchor)
    (hrun : anchorRun takes star fuel pattern text anchor = some out) :
    Accepts star out ↔ Pending takes star pattern text anchor := by
  induction fuel generalizing pattern text anchor with
  | zero => cases hrun
  | succ fuel ih =>
    cases text with
    | nil =>
      rw [anchorRun] at hrun
      rw [← some.inj hrun]
      exact (pending_end hwalked).symm
    | cons b text =>
      have hback : ¬ Tight takes star pattern (b :: text) →
          backtrack takes star fuel anchor = some out →
          (Accepts star out ↔ Pending takes star pattern (b :: text) anchor) := by
        intro hnot h
        rcases anchor with _ | ⟨first, _ | ⟨d, shorter⟩⟩
        · rw [← some.inj h]
          exact ⟨False.elim, fun hpending => hnot hpending⟩
        · have hlength := (hwalked first [] rfl).length_le.2
          exact absurd hlength (Nat.not_succ_le_zero _)
        · exact (ih (walked_start first shorter) h).trans (pending_back hwalked hnot).symm
      cases pattern with
      | nil => exact hback (fun h => nomatch h) hrun
      | cons c pattern =>
        rw [anchorRun_cons] at hrun
        by_cases htakes : takes c b = true
        · rw [if_pos htakes] at hrun
          exact (ih (walked_take htakes hwalked) hrun).trans (pending_take htakes).symm
        rw [if_neg htakes] at hrun
        by_cases hstar : star c = true
        · rw [if_pos hstar] at hrun
          exact (ih (walked_start pattern _) hrun).trans (pending_star hwalked htakes hstar).symm
        · rw [if_neg hstar] at hrun
          exact hback (not_tight htakes hstar) hrun

/-- The matcher ends: a mismatch shortens what the anchor holds, and between two mismatches
the pattern gets shorter. -/
theorem anchorRun_ends {fuel n m : Nat} (hpattern : pattern.length ≤ n) (htext : text.length ≤ m)
    (hanchor : ∀ first whole, anchor = some (first, whole) →
      first.length ≤ n ∧ text.length ≤ whole.length ∧ whole.length ≤ m)
    (hfuel : m * (n + 1) + pattern.length < fuel) :
    ∃ out, anchorRun takes star fuel pattern text anchor = some out := by
  induction fuel generalizing pattern text anchor m with
  | zero => omega
  | succ fuel ih =>
    cases text with
    | nil => exact ⟨some pattern, by rw [anchorRun]⟩
    | cons b text =>
      have hback : ∃ out, backtrack takes star fuel anchor = some out := by
        rcases anchor with _ | ⟨first, _ | ⟨d, shorter⟩⟩
        · exact ⟨none, rfl⟩
        · exact ⟨none, rfl⟩
        · obtain ⟨hfirst, -, hwhole⟩ := hanchor first (d :: shorter) rfl
          rw [length_cons] at hwhole
          have hmul : (shorter.length + 1) * (n + 1) ≤ m * (n + 1) := Nat.mul_le_mul_right _ hwhole
          rw [Nat.succ_mul] at hmul
          refine ih (m := shorter.length) hfirst (Nat.le_refl _) ?_ (by omega)
          intro _ _ h
          cases h
          exact ⟨hfirst, Nat.le_refl _, Nat.le_refl _⟩
      cases pattern with
      | nil => exact hback
      | cons c pattern =>
        rw [length_cons] at hpattern hfuel
        rw [anchorRun_cons]
        by_cases htakes : takes c b = true
        · rw [if_pos htakes]
          rw [length_cons] at htext
          refine ih (m := m) (by omega) (by omega) ?_ (by omega)
          intro first whole h
          obtain ⟨hfirst, hle, hwhole⟩ := hanchor first whole h
          rw [length_cons] at hle
          exact ⟨hfirst, by omega, hwhole⟩
        · rw [if_neg htakes]
          by_cases hstar : star c = true
          · rw [if_pos hstar]
            refine ih (m := m) (by omega) htext ?_ (by omega)
            intro _ _ h
            cases h
            exact ⟨by omega, Nat.le_refl _, htext⟩
          · rw [if_neg hstar]
            exact hback

/-- A matcher with fuel for every mismatch decides the tight splits. -/
theorem anchorRun_decides {fuel : Nat}
    (hfuel : text.length * (pattern.length + 1) + pattern.length < fuel) :
    ∃ out, anchorRun takes star fuel pattern text none = some out ∧
      (Accepts star out ↔ Tight takes star pattern text) := by
  have hends : ∃ out, anchorRun takes star fuel pattern text none = some out :=
    anchorRun_ends (Nat.le_refl _) (Nat.le_refl _) (fun _ _ h => nomatch h) hfuel
  obtain ⟨out, hout⟩ := hends
  have hwalked : Walked takes pattern text none := fun _ _ h => nomatch h
  exact ⟨out, hout, anchorRun_accepts hwalked hout⟩

end
end OnyxServer.Lib
