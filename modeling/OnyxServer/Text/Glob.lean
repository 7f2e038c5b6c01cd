import OnyxServer.Text.Ascii

/-!
# Glob patterns

`hostmask.zig`: `*` stands for any octets, `?` for one; every other octet stands for
itself, ignoring ASCII case. The matcher walks both strings once and goes back to the
last star on a mismatch.
-/
namespace OnyxServer.Text

open Lib

def globStar : UInt8 := 0x2A
def globQuestion : UInt8 := 0x3F

/-- The matching loop; the cursor into the pattern when the text is used up, none on a
mismatch. `starT` is where the last star began to match. -/
def globLoop (pattern text : Bytes) : Nat → Nat → Nat → Option Nat → Nat → Option Nat
  | 0, _, _, _, _ => none
  | fuel + 1, p, t, star, starT =>
    if t < text.length then
      if p < pattern.length ∧
          (pattern.getD p 0 = globQuestion ∨
            toLower (pattern.getD p 0) = toLower (text.getD t 0)) then
        globLoop pattern text fuel (p + 1) (t + 1) star starT
      else if p < pattern.length ∧ pattern.getD p 0 = globStar then
        globLoop pattern text fuel (p + 1) t (some p) t
      else
        match star with
        | some s => globLoop pattern text fuel (s + 1) (starT + 1) star (starT + 1)
        | none => none
    else some p

def globFuel (pattern text : Bytes) : Nat := (text.length + 1) * (pattern.length + 1)

def matchGlob (pattern text : Bytes) : Bool :=
  match globLoop pattern text (globFuel pattern text) 0 0 none 0 with
  | none => false
  | some p => (pattern.drop p).all (· == globStar)

theorem globStar_fixed : Fixed globStar := by decide

theorem globQuestion_fixed : Fixed globQuestion := by decide

theorem matchGlob_lower (pattern text : Bytes) :
    matchGlob (lowerString pattern) text = matchGlob pattern text := by
  have hloop : ∀ fuel p t star starT, globLoop (lowerString pattern) text fuel p t star starT =
      globLoop pattern text fuel p t star starT := by
    intro fuel
    induction fuel with
    | zero => intros; rfl
    | succ fuel ih =>
      intro p t star starT
      simp only [globLoop, lowerString_length, lowerString_getD, toLower_toLower,
        toLower_eq_iff_of_fixed globQuestion_fixed, toLower_eq_iff_of_fixed globStar_fixed, ih]
  simp only [matchGlob, globFuel, lowerString_length, hloop]
  cases globLoop pattern text ((text.length + 1) * (pattern.length + 1)) 0 0 none 0 with
  | none => rfl
  | some p =>
    simp only [lowerString, ← List.map_drop, List.all_map]
    congr 1
    funext byte
    exact decide_eq_decide.mpr (toLower_eq_iff_of_fixed globStar_fixed)

end OnyxServer.Text
