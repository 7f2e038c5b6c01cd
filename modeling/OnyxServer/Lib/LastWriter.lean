import Mathlib.Order.Lattice
import Mathlib.Order.Basic

/-!
# Hybrid clocks

A clock issues stamps above everything it has issued or accepted and takes over every
stamp that it accepts. At its top it can only issue the top again.
-/
namespace OnyxServer.Lib

section

variable {τ : Type} [LinearOrder τ] {top now last mid t : τ}

/-- A stamp that a clock meets. -/
inductive Stamp (τ : Type) where
  | issued (t : τ)
  | accepted (t : τ)
  deriving DecidableEq

def Stamp.value : Stamp τ → τ
  | .issued t => t
  | .accepted t => t

/-- The clock runs from `now` to `last` over the stamps. -/
inductive ClockRun (top : τ) : τ → List (Stamp τ) → τ → Prop
  | refl (now : τ) : ClockRun top now [] now
  | issued {now t last : τ} {stamps : List (Stamp τ)} (habove : now < t ∨ (now = top ∧ t = top))
      (hrest : ClockRun top t stamps last) : ClockRun top now (.issued t :: stamps) last
  | accepted {now t last : τ} {stamps : List (Stamp τ)}
      (hrest : ClockRun top (max now t) stamps last) :
      ClockRun top now (.accepted t :: stamps) last

namespace ClockRun

variable {stamps earlier later : List (Stamp τ)}

theorem trans (h : ClockRun top now earlier mid) (h' : ClockRun top mid later last) :
    ClockRun top now (earlier ++ later) last := by
  induction h with
  | refl => exact h'
  | issued habove _ ih => exact .issued habove (ih h')
  | accepted _ ih => exact .accepted (ih h')

theorem split (h : ClockRun top now (earlier ++ later) last) :
    ∃ mid, ClockRun top now earlier mid ∧ ClockRun top mid later last := by
  induction earlier generalizing now with
  | nil => exact ⟨now, .refl now, h⟩
  | cons stamp earlier ih =>
    cases h with
    | issued habove hrest =>
      obtain ⟨mid, hearlier, hlater⟩ := ih hrest
      exact ⟨mid, .issued habove hearlier, hlater⟩
    | accepted hrest =>
      obtain ⟨mid, hearlier, hlater⟩ := ih hrest
      exact ⟨mid, .accepted hearlier, hlater⟩

theorem le (h : ClockRun top now stamps last) : now ≤ last := by
  induction h with
  | refl => exact le_refl _
  | issued habove _ ih =>
    rcases habove with hlt | ⟨rfl, rfl⟩
    · exact hlt.le.trans ih
    · exact ih
  | accepted _ ih => exact (le_max_left _ _).trans ih

/-- The clock stands where it began or at a stamp that it met. -/
theorem last_mem (h : ClockRun top now stamps last) :
    last = now ∨ ∃ stamp ∈ stamps, stamp.value = last := by
  induction h with
  | refl => exact .inl rfl
  | issued _ _ ih =>
    rcases ih with rfl | ⟨stamp, hmem, hvalue⟩
    · exact .inr ⟨_, List.mem_cons_self, rfl⟩
    · exact .inr ⟨stamp, List.mem_cons_of_mem _ hmem, hvalue⟩
  | @accepted now t last stamps _ ih =>
    rcases ih with rfl | ⟨stamp, hmem, hvalue⟩
    · rcases le_total now t with hle | hle
      · exact .inr ⟨_, List.mem_cons_self, (max_eq_right hle).symm⟩
      · exact .inl (max_eq_left hle)
    · exact .inr ⟨stamp, List.mem_cons_of_mem _ hmem, hvalue⟩

end ClockRun

end

/-!
## The last writer wins

A replica that keeps, of the writes it has seen, one that no other outranks. A write that
does not outrank what is kept is dropped; one that outranks it takes its place. Replicas
that have seen the same writes keep writes of one rank.
-/
section

variable {α ρ : Type} [LinearOrder ρ] {rank : α → ρ} {seen : α → Prop} {x y : α}

/-- A write that was seen and that no write seen outranks. -/
structure Latest (rank : α → ρ) (seen : α → Prop) (x : α) : Prop where
  mem : seen x
  max : ∀ y, seen y → rank y ≤ rank x

namespace Latest

theorem rank_eq (h : Latest rank seen x) (h' : Latest rank seen y) : rank x = rank y :=
  le_antisymm (h'.max x h.mem) (h.max y h'.mem)

theorem congr {other : α → Prop} (h : Latest rank seen x) (hiff : ∀ z, other z ↔ seen z) :
    Latest rank other x :=
  ⟨(hiff x).mpr h.mem, fun z hz => h.max z ((hiff z).mp hz)⟩

/-- The write that is kept does not lose against one that it outranks or equals. -/
theorem keep (h : Latest rank seen x) (hle : rank y ≤ rank x) :
    Latest rank (fun z => z = y ∨ seen z) x :=
  ⟨.inr h.mem, fun z hz => hz.elim (fun heq => heq ▸ hle) (h.max z)⟩

/-- A write that outranks or equals every write seen takes the place of the one kept. -/
theorem replace (hmax : ∀ z, seen z → rank z ≤ rank y) : Latest rank (fun z => z = y ∨ seen z) y :=
  ⟨.inl rfl, fun z hz => hz.elim (fun heq => (congrArg rank heq).le) (hmax z)⟩

end Latest

end

end OnyxServer.Lib
