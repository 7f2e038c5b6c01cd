import Mathlib.Data.List.Basic

/-!
# Scanning a stream

A scanner looks at the front of a buffer: it waits for more input, stops with an error or
takes a number of symbols, possibly with an output. When its verdict on a buffer does not
change as the buffer grows, what it makes of a stream does not depend on how the stream
arrives.
-/
namespace OnyxServer.Lib

variable {α β ε : Type}

inductive Verdict (β ε : Type) where
  | wait
  | stop (error : ε)
  | take (count : Nat) (output : Option β)
  deriving DecidableEq

structure Scanner (α β ε : Type) where
  scan : List α → Verdict β ε
  stable : ∀ xs ys, scan xs ≠ .wait → scan (xs ++ ys) = scan xs
  count_pos : ∀ xs n out, scan xs = .take n out → 0 < n
  count_le : ∀ xs n out, scan xs = .take n out → n ≤ xs.length

/-- The scanner turns the buffer into the outputs and leaves the rest. -/
inductive Scanner.Parses (scanner : Scanner α β ε) : List α → List β → List α → Prop
  | refl (xs : List α) : Parses scanner xs [] xs
  | take {xs rest : List α} {n : Nat} {out : Option β} {outs : List β}
      (hscan : scanner.scan xs = .take n out) (hrest : Parses scanner (xs.drop n) outs rest) :
      Parses scanner xs (out.toList ++ outs) rest

namespace Scanner

variable {scanner : Scanner α β ε} {xs ys zs : List α} {outs more : List β}

theorem Parses.trans (h : scanner.Parses xs outs ys) (hrest : scanner.Parses ys more zs) :
    scanner.Parses xs (outs ++ more) zs := by
  induction h with
  | refl xs => exact hrest
  | take hscan _ ih =>
    rw [List.append_assoc]
    exact .take hscan (ih hrest)

theorem Parses.single {n : Nat} {out : Option β} (hscan : scanner.scan xs = .take n out) :
    scanner.Parses xs out.toList (xs.drop n) := by
  have h := Parses.take hscan (.refl (xs.drop n))
  rwa [List.append_nil] at h

/-- More input does not change what was parsed. -/
theorem Parses.append (h : scanner.Parses xs outs ys) (zs : List α) :
    scanner.Parses (xs ++ zs) outs (ys ++ zs) := by
  induction h with
  | refl xs => exact .refl _
  | take hscan _ ih =>
    refine .take ((scanner.stable _ zs (by rw [hscan]; simp)).trans hscan) ?_
    rwa [List.drop_append_of_le_length (scanner.count_le _ _ _ hscan)]

/-- Two parses that go as far as they can agree. -/
theorem Parses.unique {ys' : List α} {outs' : List β} (h : scanner.Parses xs outs ys)
    (hend : ∀ n out, scanner.scan ys ≠ .take n out) (h' : scanner.Parses xs outs' ys')
    (hend' : ∀ n out, scanner.scan ys' ≠ .take n out) : outs = outs' ∧ ys = ys' := by
  induction h generalizing outs' with
  | refl xs =>
    cases h' with
    | refl => exact ⟨rfl, rfl⟩
    | take hscan _ => exact absurd hscan (hend _ _)
  | take hscan _ ih =>
    cases h' with
    | refl => exact absurd hscan (hend' _ _)
    | take hscan' hrest' =>
      obtain ⟨rfl, rfl⟩ := Verdict.take.inj (hscan.symm.trans hscan')
      obtain ⟨rfl, rfl⟩ := ih hend hrest'
      exact ⟨rfl, rfl⟩

end Scanner

end OnyxServer.Lib
