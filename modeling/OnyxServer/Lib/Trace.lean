import Mathlib.Data.List.Basic

/-!
# Runs of a step function

A run is the list of its visits: the state before each step, the input, the answer
and the state after. Safety over whole runs follows from one-step facts by the
rules below.
-/
namespace OnyxServer.Lib

variable {σ ε ω : Type}

structure Visit (σ ε ω : Type) where
  before : σ
  input : ε
  output : ω
  after : σ

/-- The visits of a run, oldest first. -/
def visits (step : σ → ε → ω × σ) : σ → List ε → List (Visit σ ε ω)
  | _, [] => []
  | s, e :: es =>
    ⟨s, e, (step s e).1, (step s e).2⟩ :: visits step (step s e).2 es

/-- The state a run ends in. -/
def final (step : σ → ε → ω × σ) : σ → List ε → σ
  | s, [] => s
  | s, e :: es => final step (step s e).2 es

variable {step : σ → ε → ω × σ}

theorem final_append (s : σ) (es fs : List ε) :
    final step s (es ++ fs) = final step (final step s es) fs := by
  induction es generalizing s with
  | nil => rfl
  | cons e es ih => exact ih _

theorem visits_append (s : σ) (es fs : List ε) :
    visits step s (es ++ fs) = visits step s es ++ visits step (final step s es) fs := by
  induction es generalizing s with
  | nil => rfl
  | cons e es ih => exact congrArg (List.cons _) (ih _)

variable {es : List ε} {v : Visit σ ε ω} {s : σ} {earlier later : List (Visit σ ε ω)}

/-- A visit splits the run it belongs to. -/
theorem visits_split
    (h : visits step s es = earlier ++ v :: later) :
    ∃ fs gs, es = fs ++ v.input :: gs ∧ earlier = visits step s fs ∧
    v.before = final step s fs := by
  induction es generalizing s earlier with
  | nil => simp [visits] at h
  | cons e es ih =>
    cases earlier with
    | nil =>
      cases h
      exact ⟨[], es, rfl, rfl, rfl⟩
    | cons u earlier =>
      obtain ⟨rfl, hrest⟩ := List.cons.inj h
      obtain ⟨fs, gs, rfl, rfl, hbefore⟩ := ih hrest
      exact ⟨e :: fs, gs, rfl, rfl, hbefore⟩

/-- What comes after a visit is the run from the state it leaves. -/
theorem visits_split_after
    (h : visits step s es = earlier ++ v :: later) :
    ∃ fs gs, es = fs ++ v.input :: gs ∧ earlier = visits step s fs ∧
      v = ⟨final step s fs, v.input, (step (final step s fs) v.input).1,
        (step (final step s fs) v.input).2⟩ ∧
      later = visits step v.after gs := by
  obtain ⟨fs, gs, rfl, rfl, -⟩ := visits_split h
  rw [visits_append] at h
  obtain ⟨hv, hlater⟩ := List.cons.inj (List.append_cancel_left h)
  refine ⟨fs, gs, rfl, rfl, hv.symm, ?_⟩
  rw [← hlater, ← hv]

/-- Every visit is one step of the machine. -/
theorem visit_step (hv : v ∈ visits step s es) :
    step v.before v.input = (v.output, v.after) := by
  induction es generalizing s with
  | nil => cases hv
  | cons e es ih =>
    rcases List.mem_cons.mp hv with rfl | hv
    · rfl
    · exact ih hv

theorem visits_input (hv : v ∈ visits step s es) : v.input ∈ es := by
  induction es generalizing s with
  | nil => cases hv
  | cons e es ih =>
    rcases List.mem_cons.mp hv with rfl | hv
    · exact List.mem_cons_self
    · exact List.mem_cons_of_mem e (ih hv)

variable {P : σ → Prop}

theorem final_invariant (hstep : ∀ s e, P s → P (step s e).2)
    (hs : P s) (es : List ε) : P (final step s es) := by
  induction es generalizing s with
  | nil => exact hs
  | cons e es ih => exact ih (hstep s e hs)

theorem visits_invariant (hstep : ∀ s e, P s → P (step s e).2)
    (hs : P s) (hv : v ∈ visits step s es) :
    P v.before ∧ P v.after := by
  induction es generalizing s with
  | nil => cases hv
  | cons e es ih =>
    rcases List.mem_cons.mp hv with rfl | hv
    · exact ⟨hs, hstep s e hs⟩
    · exact ih (hstep s e hs) hv

/-- The invariant rule for runs whose steps all keep a rule of their own. -/
theorem guarded_invariant {G : Visit σ ε ω → Prop}
    (hstep : ∀ v, step v.before v.input = (v.output, v.after) → G v → P v.before → P v.after)
    (hs : P s) (hall : ∀ v ∈ visits step s es, G v) :
    P (final step s es) ∧ ∀ v ∈ visits step s es, P v.before ∧ P v.after := by
  induction es generalizing s with
  | nil => exact ⟨hs, by simp [visits]⟩
  | cons e es ih =>
    obtain ⟨hfirst, hrest⟩ := List.forall_mem_cons.mp hall
    have hnext := hstep _ rfl hfirst hs
    obtain ⟨hend, hvisits⟩ := ih hnext hrest
    exact ⟨hend, List.forall_mem_cons.mpr ⟨⟨hs, hnext⟩, hvisits⟩⟩

/-- The leads-to rule: a fact `Q v` that the step `v` establishes and that later
steps keep relates `v` to every later visit. -/
theorem visits_pairwise {Q : Visit σ ε ω → σ → Prop}
    {R : Visit σ ε ω → Visit σ ε ω → Prop}
    (hinv : ∀ s e, P s → P (step s e).2)
    (hstart : ∀ s e, P s → Q ⟨s, e, (step s e).1, (step s e).2⟩ (step s e).2)
    (hkeep : ∀ v s e, P s → Q v s → Q v (step s e).2)
    (hrel : ∀ v s e, P s → Q v s → R v ⟨s, e, (step s e).1, (step s e).2⟩)
    (hs : P s) (es : List ε) : (visits step s es).Pairwise R := by
  have later : ∀ (v : Visit σ ε ω) (es : List ε) (s : σ), P s → Q v s →
      ∀ w ∈ visits step s es, R v w := by
    intro v es
    induction es with
    | nil => intro s _ _ w hw; cases hw
    | cons e es ih =>
      intro s hs hq w hw
      rcases List.mem_cons.mp hw with rfl | hw
      · exact hrel v s e hs hq
      · exact ih _ (hinv s e hs) (hkeep v s e hs hq) w hw
  induction es generalizing s with
  | nil => exact .nil
  | cons e es ih =>
    exact .cons (later _ es _ (hinv s e hs) (hstart s e hs)) (ih (hinv s e hs))

/-- The visits of a run whose steps may have no answer. -/
def trace (step : σ → ε → Option (ω × σ)) : σ → List ε → Option (List (Visit σ ε ω))
  | _, [] => some []
  | s, e :: es =>
    match step s e with
    | none => none
    | some (o, t) => (trace step t es).map fun vs => ⟨s, e, o, t⟩ :: vs

theorem trace_cons {step : σ → ε → Option (ω × σ)} {e : ε} {vs : List (Visit σ ε ω)}
    (h : trace step s (e :: es) = some vs) :
    ∃ o t rest, step s e = some (o, t) ∧ trace step t es = some rest ∧
    vs = ⟨s, e, o, t⟩ :: rest := by
  rw [trace] at h
  cases hstep : step s e with
  | none =>
    rw [hstep] at h
    cases h
  | some answer =>
    rw [hstep] at h
    obtain ⟨rest, hrest, rfl⟩ := Option.map_eq_some_iff.mp h
    exact ⟨answer.1, answer.2, rest, rfl, hrest, rfl⟩

theorem trace_next {step : σ → ε → Option (ω × σ)} {s t : σ} {e : ε} {o : ω}
    {vs : List (Visit σ ε ω)} (hstep : step s e = some (o, t)) (hrest : trace step t es = some vs) :
    trace step s (e :: es) = some (⟨s, e, o, t⟩ :: vs) := by
  rw [trace, hstep]
  exact congrArg (Option.map _) hrest

end OnyxServer.Lib
