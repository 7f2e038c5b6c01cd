import Mathlib.Data.LawfulXor.Basic
import OnyxServer.Text.Wildcard

/-!
# The glob language and its matchers

`extban.zig`, `listx.zig` and `hostmask.zig` hold the same matching loop. It compares octets
before it looks for a star, so a star of the pattern that comes to stand before a star of the
text is matched against that octet and opens no run.
-/
namespace OnyxServer.Text

open Lib

/-- The matching loop of the three matchers, none when the fuel runs out. -/
def globWalk (pattern text : Bytes) : Nat → Nat → Nat → Option Nat → Nat → Option (Option Nat)
  | 0, _, _, _, _ => none
  | fuel + 1, p, t, star, starT =>
    if t < text.length then
      if p < pattern.length ∧
          (pattern.getD p 0 = globQuestion ∨
            toLower (pattern.getD p 0) = toLower (text.getD t 0)) then
        globWalk pattern text fuel (p + 1) (t + 1) star starT
      else if p < pattern.length ∧ pattern.getD p 0 = globStar then
        globWalk pattern text fuel (p + 1) t (some p) t
      else
        match star with
        | some s => globWalk pattern text fuel (s + 1) (starT + 1) star (starT + 1)
        | none => some none
    else some (some p)

namespace Listx

def globMatch (mask text : Bytes) : Bool :=
  match globWalk mask text (globFuel mask text) 0 0 none 0 with
  | some (some p) => (mask.drop p).all (· == globStar)
  | _ => false

end Listx

namespace Extban

def globMatch (pattern value : Bytes) : Bool :=
  if pattern.length = 0 then decide (value.length = 0)
  else
    match globWalk pattern value (globFuel pattern value) 0 0 none 0 with
    | some (some p) => (pattern.drop p).all (· == globStar)
    | _ => false

def hasGlobMeta (pattern : Bytes) : Bool :=
  pattern.any fun byte => byte == globStar || byte == globQuestion

/-- The differing bits of both lengths and of every pair of octets. -/
def foldDiff (a b : Bytes) : Nat :=
  (List.range (max a.length b.length)).foldl
    (fun diff i =>
      let ac := if i < a.length then toLower (a.getD i 0) else 0
      let bc := if i < b.length then toLower (b.getD i 0) else 0
      diff ||| (ac ^^^ bc).toNat)
    (a.length ^^^ b.length)

def constantTimeEqlAsciiFold (a b : Bytes) : Bool := decide (foldDiff a b = 0)

def patternMatch (pattern value : Bytes) : Bool :=
  if hasGlobMeta pattern then globMatch pattern value
  else constantTimeEqlAsciiFold pattern value

end Extban

def globTakes (c byte : UInt8) : Bool := decide (c = globQuestion ∨ toLower c = toLower byte)

def isGlobStar (c : UInt8) : Bool := c == globStar

@[simp] theorem isGlobStar_iff {c : UInt8} : isGlobStar c = true ↔ c = globStar := beq_iff_eq

/-- Each star covers a run of the text, each question mark one octet, every other octet of
the pattern one that differs at most in ASCII case. -/
def GlobSplit (pattern text : Bytes) : Prop := Splits globTakes isGlobStar pattern text

/-- A split in which a star that comes to stand before a star of the text covers it alone. -/
def TightSplit (pattern text : Bytes) : Prop := Tight globTakes isGlobStar pattern text

def globAnchor (pattern text : Bytes) (star : Option Nat) (starT : Nat) : Option (Bytes × Bytes) :=
  star.map fun s => (pattern.drop (s + 1), text.drop starT)

section

variable (pattern text : Bytes)

theorem globWalk_eq {fuel p t starT : Nat} {star : Option Nat}
    (hstar : ∀ s, star = some s → starT ≤ t) :
    (globWalk pattern text fuel p t star starT).map (Option.map fun i => pattern.drop i) =
      anchorRun globTakes isGlobStar fuel (pattern.drop p) (text.drop t)
        (globAnchor pattern text star starT) := by
  induction fuel generalizing p t starT star with
  | zero => rfl
  | succ fuel ih =>
    unfold globWalk
    by_cases htext : t < text.length
    · rw [if_pos htext, drop_eq_getD_cons htext 0]
      have hback : (match star with
          | some s => globWalk pattern text fuel (s + 1) (starT + 1) star (starT + 1)
          | none => some none).map (Option.map fun i => pattern.drop i) =
          backtrack globTakes isGlobStar fuel (globAnchor pattern text star starT) := by
        cases star with
        | none => rfl
        | some s =>
          have hlt : starT < text.length := Nat.lt_of_le_of_lt (hstar s rfl) htext
          simp only [backtrack, globAnchor, Option.map_some, drop_eq_getD_cons hlt 0, retry]
          exact ih fun _ _ => Nat.le_refl _
      by_cases hpattern : p < pattern.length
      · rw [drop_eq_getD_cons hpattern 0, anchorRun_cons]
        by_cases htakes : globTakes (pattern.getD p 0) (text.getD t 0) = true
        · rw [if_pos htakes, if_pos ⟨hpattern, of_decide_eq_true htakes⟩]
          exact ih fun s h => Nat.le_succ_of_le (hstar s h)
        rw [if_neg htakes, if_neg fun h => htakes (decide_eq_true h.2)]
        by_cases hrun : pattern.getD p 0 = globStar
        · rw [if_pos ⟨hpattern, hrun⟩, if_pos (isGlobStar_iff.mpr hrun),
            ← drop_eq_getD_cons htext 0]
          exact ih fun _ _ => Nat.le_refl _
        · rw [if_neg fun h => hrun h.2, if_neg fun h => hrun (isGlobStar_iff.mp h)]
          exact hback
      · rw [if_neg fun h => hpattern h.1, if_neg fun h => hpattern h.1,
          List.drop_eq_nil_of_le (Nat.le_of_not_lt hpattern)]
        exact hback
    · rw [if_neg htext, List.drop_eq_nil_of_le (Nat.le_of_not_lt htext), anchorRun]
      rfl

theorem globLoop_eq (fuel p t : Nat) (star : Option Nat) (starT : Nat) :
    globLoop pattern text fuel p t star starT =
      (globWalk pattern text fuel p t star starT).join := by
  induction fuel generalizing p t star starT with
  | zero => rfl
  | succ fuel ih =>
    unfold globLoop globWalk
    cases star <;> simp only [ih] <;> split_ifs <;> rfl

theorem matchGlob_eq : matchGlob pattern text = Listx.globMatch pattern text := by
  rw [matchGlob, Listx.globMatch, globLoop_eq]
  rcases globWalk pattern text (globFuel pattern text) 0 0 none 0 with _ | _ | p <;> rfl

theorem extban_globMatch_eq :
    Extban.globMatch pattern text = Listx.globMatch pattern text := by
  rw [Extban.globMatch, Listx.globMatch]
  cases pattern with
  | nil =>
    cases text with
    | nil => rfl
    | cons byte text => rfl
  | cons c pattern => rw [if_neg (by simp)]

/-- The loop ends, and decides the tight splits. -/
theorem globMatch_iff :
    (globWalk pattern text (globFuel pattern text) 0 0 none 0).isSome = true ∧
      (Listx.globMatch pattern text = true ↔ TightSplit pattern text) := by
  have hfuel : text.length * (pattern.length + 1) + pattern.length < globFuel pattern text := by
    rw [globFuel, Nat.succ_mul]
    omega
  have hdecides : ∃ out, anchorRun globTakes isGlobStar (globFuel pattern text) pattern text none =
      some out ∧ (Accepts isGlobStar out ↔ TightSplit pattern text) := anchorRun_decides hfuel
  obtain ⟨out, hout, haccepts⟩ := hdecides
  have hnone : ∀ s, (none : Option Nat) = some s → 0 ≤ 0 := fun _ _ => Nat.le_refl 0
  have hwalk : (globWalk pattern text (globFuel pattern text) 0 0 none 0).map
      (Option.map fun i => pattern.drop i) = some out := (globWalk_eq pattern text hnone).trans hout
  rw [← haccepts, Listx.globMatch]
  cases hend : globWalk pattern text (globFuel pattern text) 0 0 none 0 with
  | none =>
    rw [hend] at hwalk
    cases hwalk
  | some result =>
    rw [hend] at hwalk
    cases result with
    | none =>
      cases hwalk
      exact ⟨rfl, iff_of_false Bool.false_ne_true id⟩
    | some p =>
      cases hwalk
      exact ⟨rfl, List.all_eq_true⟩

end

/-- All four loops end, and all four matchers answer with their language. -/
def MatchersExact (pattern text : Bytes) : Prop :=
  ((globWalk pattern text (globFuel pattern text) 0 0 none 0).isSome = true ∧
    (Extban.globMatch pattern text = true ↔ GlobSplit pattern text) ∧
    (Listx.globMatch pattern text = true ↔ GlobSplit pattern text) ∧
    (matchGlob pattern text = true ↔ GlobSplit pattern text)) ∧
  (wildcardLoop pattern text (globFuel pattern text) 0 0 none 0).isSome = true ∧
    (wildcardMatch pattern text = true ↔ WildcardSplit pattern text)

/-- The ASCII matchers miss the splits in which a star before a star of the text covers
anything but that star. -/
theorem matchers_exact_iff (pattern text : Bytes) :
    MatchersExact pattern text ↔ (GlobSplit pattern text → TightSplit pattern text) := by
  obtain ⟨hends, hdecides⟩ := globMatch_iff pattern text
  have hsame : (TightSplit pattern text ↔ GlobSplit pattern text) ↔
      (GlobSplit pattern text → TightSplit pattern text) :=
    ⟨Iff.mpr, fun h => ⟨Tight.splits, h⟩⟩
  rw [MatchersExact, matchGlob_eq, extban_globMatch_eq, hdecides, and_self, and_self, ← hsame]
  exact ⟨fun h => h.1.2, fun h => ⟨⟨hends, h⟩, wildcardMatch_iff pattern text⟩⟩

/-- A star does not match a star followed by anything else. -/
theorem star_misses_starred_text : ¬ MatchersExact [globStar] [globStar, 0x78] := by
  intro h
  have hsplit : GlobSplit [globStar] [globStar, 0x78] :=
    .run [globStar, 0x78] (by decide) .nil
  have hmatch := h.1.2.2.1.mpr hsplit
  exact absurd hmatch (by decide)

theorem tight_plain {pattern text : Bytes} (hplain : Extban.hasGlobMeta pattern = false) :
    TightSplit pattern text ↔ pattern.map toLower = text.map toLower := by
  induction pattern generalizing text with
  | nil =>
    constructor
    · intro h
      cases h
      rfl
    · intro h
      obtain rfl := List.map_eq_nil_iff.mp h.symm
      exact .nil
  | cons c pattern ih =>
    rw [Extban.hasGlobMeta, List.any_cons, Bool.or_eq_false_iff, Bool.or_eq_false_iff] at hplain
    obtain ⟨⟨hstar, hquestion⟩, hrest⟩ := hplain
    constructor
    · intro h
      cases h with
      | run covered hrun => exact absurd (hstar.symm.trans hrun) Bool.false_ne_true
      | one _ htakes h =>
        have hsame := (of_decide_eq_true htakes).resolve_left (ne_of_beq_false hquestion)
        rw [List.map_cons, List.map_cons, hsame, (ih hrest).mp h]
    · intro h
      cases text with
      | nil => cases h
      | cons byte text =>
        obtain ⟨hsame, h⟩ := List.cons.inj h
        exact .one hstar (decide_eq_true (.inr hsame)) ((ih hrest).mpr h)

theorem foldDiff_eq_zero {a b : Bytes} :
    Extban.foldDiff a b = 0 ↔ a.map toLower = b.map toLower := by
  have hor (bits : Nat → Nat) (xs : List Nat) (diff : Nat) :
      xs.foldl (fun diff i => diff ||| bits i) diff = 0 ↔ diff = 0 ∧ ∀ i ∈ xs, bits i = 0 := by
    induction xs generalizing diff with
    | nil => simp
    | cons i xs ih =>
      rw [List.foldl_cons, ih, Nat.or_eq_zero_iff]
      simp [and_assoc]
  refine (hor _ _ _).trans ?_
  rw [xor_eq_zero_iff]
  simp only [List.mem_range]
  constructor
  · intro ⟨hlen, hall⟩
    refine List.ext_getElem (by simpa using hlen) fun i ha hb => ?_
    rw [List.length_map] at ha hb
    have hsame := hall i (Nat.lt_of_lt_of_le ha (Nat.le_max_left _ _))
    simp_all [← UInt8.toNat_inj]
  · intro h
    have hlen : a.length = b.length := by simpa using congrArg List.length h
    refine ⟨hlen, fun i hi => ?_⟩
    rw [hlen, Nat.max_self] at hi
    have hsame := List.getElem_of_eq h (i := i) (by rwa [List.length_map, hlen])
    rw [List.getElem_map, List.getElem_map] at hsame
    simp [hlen, hi, hsame]

/-- Without a star or a question mark the walk in constant time answers as the glob matcher. -/
theorem patternMatch_eq_globMatch (pattern value : Bytes) :
    Extban.patternMatch pattern value = Extban.globMatch pattern value := by
  unfold Extban.patternMatch
  split
  · rfl
  · next hplain =>
    rw [Bool.eq_iff_iff, Extban.constantTimeEqlAsciiFold, decide_eq_true_iff, foldDiff_eq_zero,
      extban_globMatch_eq,
      (globMatch_iff pattern value).2, tight_plain (eq_false_of_ne_true hplain)]

end OnyxServer.Text
