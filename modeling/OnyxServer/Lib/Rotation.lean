import Mathlib.Order.Lattice
import Mathlib.Tactic.Order

/-!
# Rotations of a linear order

A walk that starts just above `w`, goes up, wraps once to the bottom and ends at
`w` meets the elements in the order `Before w`.
-/
namespace OnyxServer.Lib

variable {κ : Type} [LinearOrder κ] {w x y z c o p : κ}

/-- The walk from `w` meets `x` before `y`. -/
def Before (w x y : κ) : Prop := (w < x ∧ (y ≤ w ∨ x < y)) ∨ (x ≤ w ∧ y ≤ w ∧ x < y)

theorem before_irrefl : ¬ Before w x x := by
  rintro (⟨hx, h | h⟩ | ⟨-, -, h⟩) <;> order

theorem Before.trans (hxy : Before w x y) (hyz : Before w y z) : Before w x z := by
  rcases hxy with ⟨hx, hxy | hxy⟩ | ⟨hx, hy, hxy⟩ <;>
    rcases hyz with ⟨hy', hyz | hyz⟩ | ⟨hy', hz, hyz⟩
  · order
  · order
  · exact Or.inl ⟨hx, Or.inl hz⟩
  · exact Or.inl ⟨hx, Or.inl hyz⟩
  · exact Or.inl ⟨hx, Or.inr (hxy.trans hyz)⟩
  · order
  · order
  · order
  · exact Or.inr ⟨hx, hz, hxy.trans hyz⟩

theorem before_total (w : κ) (h : x ≠ y) : Before w x y ∨ Before w y x := by
  unfold Before
  rcases le_or_gt x w with hx | hx <;> rcases le_or_gt y w with hy | hy <;>
    rcases lt_or_gt_of_ne h with hxy | hxy
  · exact Or.inl (Or.inr ⟨hx, hy, hxy⟩)
  · exact Or.inr (Or.inr ⟨hy, hx, hxy⟩)
  · exact Or.inr (Or.inl ⟨hy, Or.inl hx⟩)
  · exact Or.inr (Or.inl ⟨hy, Or.inl hx⟩)
  · exact Or.inl (Or.inl ⟨hx, Or.inl hy⟩)
  · exact Or.inl (Or.inl ⟨hx, Or.inl hy⟩)
  · exact Or.inl (Or.inl ⟨hx, Or.inr hxy⟩)
  · exact Or.inr (Or.inl ⟨hy, Or.inr hxy⟩)

/-- The start of a walk is its last stop. -/
theorem not_before_start : ¬ Before w w y := by
  rintro (⟨h, -⟩ | ⟨-, hy, h⟩) <;> order

/-- What a walk meets between `x` and `y`, the walk from `x` meets before `y`. -/
theorem Before.between (hxz : Before w x z) (hzy : Before w z y) : Before x z y := by
  rcases hxz with ⟨hx, hxz | hxz⟩ | ⟨hx, hz, hxz⟩ <;>
    rcases hzy with ⟨hz', hzy | hzy⟩ | ⟨hz', hy, hzy⟩
  · order
  · order
  · exact Or.inr ⟨by order, by order, hzy⟩
  · exact Or.inl ⟨hxz, Or.inl (by order)⟩
  · exact Or.inl ⟨hxz, Or.inr hzy⟩
  · order
  · order
  · order
  · exact Or.inl ⟨hxz, Or.inr hzy⟩

/-- A walk restarted anywhere between `p` and `o` meets before `o` only what the
walk from `p` meets before `o`. -/
theorem Before.rebase (hc : c = p ∨ Before p c o) (hx : Before c x o) : Before p x o := by
  rcases hc with rfl | hc
  · exact hx
  rcases hc with ⟨hpc, hc | hc⟩ | ⟨hcp, ho, hc⟩ <;>
    rcases hx with ⟨hcx, hx | hx⟩ | ⟨hxc, ho', hx⟩
  · exact Or.inl ⟨by order, Or.inl hc⟩
  · order
  · exact Or.inr ⟨by order, hc, hx⟩
  · order
  · exact Or.inl ⟨by order, Or.inr hx⟩
  · order
  · order
  · exact Or.inr ⟨by order, ho, hx⟩
  · order

end OnyxServer.Lib
