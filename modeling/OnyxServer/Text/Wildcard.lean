import OnyxServer.Lib.Anchor
import OnyxServer.Text.Glob

/-!
# Wildcards with escapes

`wildcard.zig`: a backslash before a star, a question mark or a backslash makes that octet
literal, and octets are compared under the RFC 1459 case mapping. The matcher reads the
pattern token by token and goes back to its last run token on a mismatch.
-/
namespace OnyxServer.Text

open Lib List

def backslash : UInt8 := 0x5C

def rfc1459Fold (byte : UInt8) : UInt8 :=
  if 0x41 ≤ byte ∧ byte ≤ 0x5A then byte + 32
  else if byte = 0x5B then 0x7B
  else if byte = 0x5D then 0x7D
  else if byte = backslash then 0x7C
  else if byte = 0x5E then 0x7E
  else byte

def rfc1459Equal (a b : UInt8) : Bool := rfc1459Fold a == rfc1459Fold b

def isEscapable (byte : UInt8) : Bool :=
  byte == globStar || byte == globQuestion || byte == backslash

inductive TokenKind
  | literal
  | anyOne
  | anyRun
  deriving DecidableEq

structure Token where
  kind : TokenKind
  byte : UInt8 := 0
  next : Nat

def nextToken (pattern : Bytes) (index : Nat) : Token :=
  let byte := pattern.getD index 0
  if byte = backslash ∧ index + 1 < pattern.length ∧
    isEscapable (pattern.getD (index + 1) 0) = true then
    { kind := .literal, byte := pattern.getD (index + 1) 0, next := index + 2 }
  else if byte = globStar then { kind := .anyRun, next := index + 1 }
  else if byte = globQuestion then { kind := .anyOne, next := index + 1 }
  else { kind := .literal, byte := byte, next := index + 1 }

/-- The matching loop, none when the fuel runs out: the cursor into the pattern when the text
is used up, or a mismatch. -/
def wildcardLoop (pattern text : Bytes) : Nat → Nat → Nat → Option Nat → Nat → Option (Option Nat)
  | 0, _, _, _, _ => none
  | fuel + 1, patternIndex, textIndex, starIndex, starTextIndex =>
    if textIndex < text.length then
      let back := match starIndex with
        | some index => wildcardLoop pattern text fuel (nextToken pattern index).next
            (starTextIndex + 1) starIndex (starTextIndex + 1)
        | none => some none
      if patternIndex < pattern.length then
        let token := nextToken pattern patternIndex
        match token.kind with
        | .anyRun =>
            wildcardLoop pattern text fuel token.next textIndex (some patternIndex) textIndex
        | .anyOne =>
          wildcardLoop pattern text fuel token.next (textIndex + 1) starIndex starTextIndex
        | .literal =>
          if rfc1459Equal token.byte (text.getD textIndex 0) = true then
            wildcardLoop pattern text fuel token.next (textIndex + 1) starIndex starTextIndex
          else back
      else back
    else some (some patternIndex)

/-- What is left of the pattern may only be run tokens. -/
def onlyRuns (pattern : Bytes) : Nat → Nat → Bool
  | 0, _ => false
  | fuel + 1, patternIndex =>
    if patternIndex < pattern.length then
      let token := nextToken pattern patternIndex
      if token.kind ≠ .anyRun then false else onlyRuns pattern fuel token.next
    else true

def wildcardMatch (pattern text : Bytes) : Bool :=
  match wildcardLoop pattern text (globFuel pattern text) 0 0 none 0 with
  | some (some patternIndex) => onlyRuns pattern (pattern.length + 1) patternIndex
  | _ => false

structure Glyph where
  kind : TokenKind
  byte : UInt8

def plainGlyph (byte : UInt8) : Glyph :=
  if byte = globStar then ⟨.anyRun, 0⟩
  else if byte = globQuestion then ⟨.anyOne, 0⟩
  else ⟨.literal, byte⟩

/-- The tokens of a pattern, with their escapes resolved. -/
def tokens : Bytes → List Glyph
  | [] => []
  | [byte] => [plainGlyph byte]
  | byte :: escaped :: rest =>
    if byte = backslash ∧ isEscapable escaped = true then ⟨.literal, escaped⟩ :: tokens rest
    else plainGlyph byte :: tokens (escaped :: rest)

def Glyph.takes (glyph : Glyph) (byte : UInt8) : Bool :=
  match glyph.kind with
  | .literal => rfc1459Equal glyph.byte byte
  | .anyOne => true
  | .anyRun => false

def Glyph.isRun (glyph : Glyph) : Bool := decide (glyph.kind = .anyRun)

/-- The text is split into the runs and octets the tokens of the pattern stand for. -/
def WildcardSplit (pattern text : Bytes) : Prop :=
  Splits Glyph.takes Glyph.isRun (tokens pattern) text

def Token.glyph (token : Token) : Glyph := ⟨token.kind, token.byte⟩

variable {pattern : Bytes}

theorem nextToken_range {index : Nat} (h : index < pattern.length) :
    index < (nextToken pattern index).next ∧ (nextToken pattern index).next ≤ pattern.length := by
  unfold nextToken
  dsimp only
  split_ifs with hescape <;> dsimp only <;> omega

theorem nextToken_glyph (pattern : Bytes) (index : Nat)
    (hplain : ¬ (pattern.getD index 0 = backslash ∧
      index + 1 < pattern.length ∧ isEscapable (pattern.getD (index + 1) 0) = true)) :
    (nextToken pattern index).glyph = plainGlyph (pattern.getD index 0) ∧
      (nextToken pattern index).next = index + 1 := by
  unfold nextToken
  dsimp only
  rw [if_neg hplain]
  unfold plainGlyph
  split_ifs <;> exact ⟨rfl, rfl⟩

/-- The cursor walks through the token sequence. -/
theorem tokens_drop {index : Nat} (h : index < pattern.length) :
    tokens (pattern.drop index) =
      (nextToken pattern index).glyph :: tokens (pattern.drop (nextToken pattern index).next) := by
  by_cases hescape : pattern.getD index 0 = backslash ∧ index + 1 < pattern.length ∧
      isEscapable (pattern.getD (index + 1) 0) = true
  · obtain ⟨hbyte, hnext, hescaped⟩ := hescape
    rw [drop_eq_getD_cons h 0, drop_eq_getD_cons hnext 0, tokens, if_pos ⟨hbyte, hescaped⟩]
    unfold nextToken
    dsimp only
    rw [if_pos ⟨hbyte, hnext, hescaped⟩]
    rfl
  · obtain ⟨hglyph, hnext⟩ := nextToken_glyph pattern index hescape
    rw [hglyph, hnext, drop_eq_getD_cons h 0]
    by_cases hlast : index + 1 < pattern.length
    · rw [drop_eq_getD_cons hlast 0, tokens, if_neg]
      exact fun hboth => hescape ⟨hboth.1, hlast, hboth.2⟩
    · rw [drop_eq_nil_of_le (Nat.le_of_not_lt hlast)]
      rfl

theorem tokens_length (pattern : Bytes) : (tokens pattern).length ≤ pattern.length := by
  induction pattern using tokens.induct with
  | case1 => exact Nat.le_refl _
  | case2 => exact Nat.le_refl _
  | case3 byte escaped rest h ih =>
    rw [tokens, if_pos h, length_cons, length_cons, length_cons]
    omega
  | case4 byte escaped rest h ih =>
    rw [tokens, if_neg h, length_cons, length_cons]
    omega

/-! ## The loop walks the token sequence -/

theorem onlyRuns_iff {fuel patternIndex : Nat}
    (hfuel : pattern.length - patternIndex < fuel) :
    onlyRuns pattern fuel patternIndex = true ↔
      ∀ glyph ∈ tokens (pattern.drop patternIndex), glyph.isRun = true := by
  induction fuel generalizing patternIndex with
  | zero => omega
  | succ fuel ih =>
    rw [onlyRuns]
    by_cases hlt : patternIndex < pattern.length
    · rw [if_pos hlt, tokens_drop hlt]
      obtain ⟨hnext, -⟩ := nextToken_range hlt
      have hrest : onlyRuns pattern fuel (nextToken pattern patternIndex).next = true ↔ _ :=
        ih (by omega)
      rw [forall_mem_cons, ← hrest]
      by_cases hkind : (nextToken pattern patternIndex).kind = .anyRun
      · have hrun : (nextToken pattern patternIndex).glyph.isRun = true := decide_eq_true hkind
        simp only [hkind, hrun, ne_eq, not_true_eq_false, if_false, true_and]
      · have hrun : (nextToken pattern patternIndex).glyph.isRun = false := decide_eq_false hkind
        simp [hkind, hrun]
    · rw [if_neg hlt, drop_eq_nil_of_le (Nat.le_of_not_lt hlt)]
      exact ⟨fun _ glyph hglyph => (nomatch hglyph), fun _ => rfl⟩

/-- The anchor the cursors stand for. -/
def wildcardAnchor (pattern text : Bytes) (starIndex : Option Nat) (starTextIndex : Nat) :
    Option (List Glyph × Bytes) :=
  starIndex.map fun index =>
    (tokens (pattern.drop (nextToken pattern index).next), text.drop starTextIndex)

theorem wildcardLoop_eq (pattern text : Bytes) {fuel patternIndex textIndex starTextIndex : Nat}
    {starIndex : Option Nat} (hstar : ∀ index, starIndex = some index → starTextIndex ≤ textIndex) :
    (wildcardLoop pattern text fuel patternIndex textIndex starIndex starTextIndex).map
        (Option.map fun index => tokens (pattern.drop index)) =
      anchorRun Glyph.takes Glyph.isRun fuel (tokens (pattern.drop patternIndex))
      (text.drop textIndex) (wildcardAnchor pattern text starIndex starTextIndex) := by
  induction fuel generalizing patternIndex textIndex starTextIndex starIndex with
  | zero => rfl
  | succ fuel ih =>
    unfold wildcardLoop
    by_cases htext : textIndex < text.length
    · rw [if_pos htext, drop_eq_getD_cons htext 0]
      dsimp only
      generalize hback : (match starIndex with
        | some index => wildcardLoop pattern text fuel (nextToken pattern index).next
            (starTextIndex + 1) starIndex (starTextIndex + 1)
        | none => some none) = back
      have hretry : back.map (Option.map fun index => tokens (pattern.drop index)) =
          backtrack Glyph.takes Glyph.isRun fuel
            (wildcardAnchor pattern text starIndex starTextIndex) := by
        subst hback
        cases starIndex with
        | none => rfl
        | some index =>
          have hlt : starTextIndex < text.length := Nat.lt_of_le_of_lt (hstar index rfl) htext
          simp only [backtrack, wildcardAnchor, Option.map_some, drop_eq_getD_cons hlt 0, retry]
          exact ih fun _ _ => Nat.le_refl _
      by_cases hpattern : patternIndex < pattern.length
      · rw [if_pos hpattern, tokens_drop hpattern, anchorRun_cons]
        have hglyph : (nextToken pattern patternIndex).glyph.kind =
            (nextToken pattern patternIndex).kind := rfl
        cases hkind : (nextToken pattern patternIndex).kind with
        | anyRun =>
          have hrun : (nextToken pattern patternIndex).glyph.isRun = true := decide_eq_true hkind
          have htakes : (nextToken pattern patternIndex).glyph.takes (text.getD textIndex 0) =
              false := by
            rw [Glyph.takes, hglyph, hkind]
          dsimp only
          rw [if_neg (by rw [htakes]; decide), if_pos hrun, ← drop_eq_getD_cons htext 0]
          exact ih fun _ _ => Nat.le_refl _
        | anyOne =>
          have htakes : (nextToken pattern patternIndex).glyph.takes (text.getD textIndex 0) =
              true := by
            rw [Glyph.takes, hglyph, hkind]
          rw [if_pos htakes]
          exact ih fun index h => Nat.le_succ_of_le (hstar index h)
        | literal =>
          have hrun : (nextToken pattern patternIndex).glyph.isRun = false := by
            rw [Glyph.isRun, hglyph, hkind]
            rfl
          have htakes : (nextToken pattern patternIndex).glyph.takes (text.getD textIndex 0) =
              rfc1459Equal (nextToken pattern patternIndex).byte (text.getD textIndex 0) := by
            rw [Glyph.takes, hglyph, hkind]
            rfl
          dsimp only
          rw [htakes]
          by_cases hequal : rfc1459Equal (nextToken pattern patternIndex).byte
            (text.getD textIndex 0) = true
          · rw [if_pos hequal, if_pos hequal]
            exact ih fun index h => Nat.le_succ_of_le (hstar index h)
          · rw [if_neg hequal, if_neg hequal, if_neg (by rw [hrun]; decide)]
            exact hretry
      · rw [if_neg hpattern, drop_eq_nil_of_le (Nat.le_of_not_lt hpattern)]
        exact hretry
    · rw [if_neg htext, drop_eq_nil_of_le (Nat.le_of_not_lt htext), anchorRun]
      rfl

theorem run_takes_nothing {glyph : Glyph} (hrun : glyph.isRun = true) (byte : UInt8) :
    glyph.takes byte = false := by
  rw [Glyph.takes, of_decide_eq_true hrun]

/-- The loop ends, and the matcher decides the language of the token sequence. -/
theorem wildcardMatch_iff (pattern text : Bytes) :
    (wildcardLoop pattern text (globFuel pattern text) 0 0 none 0).isSome = true ∧
      (wildcardMatch pattern text = true ↔ WildcardSplit pattern text) := by
  have hfuel : text.length * ((tokens pattern).length + 1) + (tokens pattern).length <
      globFuel pattern text := by
    have hlength := tokens_length pattern
    have hmul : text.length * ((tokens pattern).length + 1) ≤ text.length * (pattern.length + 1) :=
      Nat.mul_le_mul_left _ (Nat.succ_le_succ hlength)
    rw [globFuel, Nat.succ_mul]
    omega
  have hdecides : ∃ out, anchorRun Glyph.takes Glyph.isRun (globFuel pattern text) (tokens pattern)
      text none = some out ∧
        (Accepts Glyph.isRun out ↔ Tight Glyph.takes Glyph.isRun (tokens pattern) text) :=
    anchorRun_decides hfuel
  obtain ⟨out, hout, haccepts⟩ := hdecides
  have hnone : ∀ index, (none : Option Nat) = some index → 0 ≤ 0 := fun _ _ => Nat.le_refl 0
  have hloop : (wildcardLoop pattern text (globFuel pattern text) 0 0 none 0).map
      (Option.map fun index => tokens (pattern.drop index)) = some out :=
    (wildcardLoop_eq pattern text hnone).trans hout
  have hsplits : Tight Glyph.takes Glyph.isRun (tokens pattern) text ↔ WildcardSplit pattern text :=
    ⟨Tight.splits, Splits.tight fun glyph _ hrun byte _ => run_takes_nothing hrun byte⟩
  rw [← hsplits, ← haccepts, wildcardMatch]
  cases hend : wildcardLoop pattern text (globFuel pattern text) 0 0 none 0 with
  | none =>
    rw [hend] at hloop
    cases hloop
  | some result =>
    rw [hend] at hloop
    cases result with
    | none =>
      cases hloop
      exact ⟨rfl, iff_of_false Bool.false_ne_true id⟩
    | some patternIndex =>
      cases hloop
      exact ⟨rfl, onlyRuns_iff (by omega)⟩

end OnyxServer.Text
