/-!
# Specifications of fallible state programs

`Yields inv err m post`: from a state that satisfies the invariant, `m` either ends in such
a state with a result that satisfies `post`, or fails with one of the allowed errors.
-/
namespace OnyxServer.Lib

variable {σ ε α β : Type} {inv : σ → Prop} {err err' : ε → Prop}

def Yields (inv : σ → Prop) (err : ε → Prop) (m : StateT σ (Except ε) α) (post : α → Prop) : Prop :=
  ∀ s, inv s →
    match m s with
    | .ok (a, s) => inv s ∧ post a
    | .error e => err e

theorem Yields.pure {a : α} {post : α → Prop} (h : post a) :
    Yields inv err (Pure.pure a : StateT σ (Except ε) α) post :=
  fun _ hs => ⟨hs, h⟩

theorem Yields.fail {e : ε} {post : α → Prop} (h : err e) :
    Yields inv err (throw e : StateT σ (Except ε) α) post :=
  fun _ _ => h

theorem Yields.lift {x : Except ε α} {post : α → Prop} (herr : ∀ e, x = .error e → err e)
    (hok : ∀ a, x = .ok a → post a) : Yields inv err (liftM x : StateT σ (Except ε) α) post := by
  intro s hs
  cases x with
  | error e => exact herr e rfl
  | ok a => exact ⟨hs, hok a rfl⟩

variable {m : StateT σ (Except ε) α}

theorem Yields.bind {f : α → StateT σ (Except ε) β} {mid : α → Prop}
    {post : β → Prop} (hm : Yields inv err m mid) (hf : ∀ a, mid a → Yields inv err (f a) post) :
    Yields inv err (m >>= f) post := by
  intro s hs
  have hfirst := hm s hs
  show match (m s >>= fun p => f p.1 p.2) with
    | .ok (a, s) => inv s ∧ post a
    | .error e => err e
  cases hrun : m s with
  | error e =>
    rw [hrun] at hfirst
    exact hfirst
  | ok p =>
    obtain ⟨a, s'⟩ := p
    rw [hrun] at hfirst
    exact hf a hfirst.2 s' hfirst.1

theorem Yields.weaken {mid post : α → Prop} (h : Yields inv err m mid)
    (herr : ∀ e, err e → err' e) (hpost : ∀ a, mid a → post a) : Yields inv err' m post := by
  intro s hs
  have hrun := h s hs
  cases hm : m s with
  | error e =>
    rw [hm] at hrun
    exact herr e hrun
  | ok p =>
    rw [hm] at hrun
    exact ⟨hrun.1, hpost p.1 hrun.2⟩

theorem Yields.post {mid post : α → Prop} (h : Yields inv err m mid)
    (hpost : ∀ a, mid a → post a) : Yields inv err m post :=
  h.weaken (fun _ he => he) hpost

/-- A program that can only succeed. -/
theorem Yields.run {post : α → Prop} (h : Yields inv (fun _ => False) m post)
    {s : σ} (hs : inv s) : ∃ a s', m s = .ok (a, s') ∧ inv s' ∧ post a := by
  have hrun := h s hs
  cases hm : m s with
  | error e =>
    rw [hm] at hrun
    exact hrun.elim
  | ok p =>
    obtain ⟨a, s'⟩ := p
    rw [hm] at hrun
    exact ⟨a, s', rfl, hrun⟩

end OnyxServer.Lib
