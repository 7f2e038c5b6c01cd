import Mathlib.Order.Lattice

/-!
# The least of a scan

A scan over the slots of a table keeps the candidate of the smallest key. The answer is a
fact of which candidates there are: the order of the slots and repetitions do not matter.
-/
namespace OnyxServer.Lib

open Option

variable {σ τ κ β : Type} [LinearOrder κ]

/-- The candidate after one more slot. -/
def smaller (candidate : Option (κ × β)) : Option (κ × β) → Option (κ × β)
  | none => candidate
  | some x =>
    match candidate with
    | none => some x
    | some y => if x.1 < y.1 then some x else some y

def leastOf (offer : σ → Option (κ × β)) (slots : List σ) : Option (κ × β) :=
  slots.foldl (fun candidate slot => smaller candidate (offer slot)) none

/-- Offered by one of the slots. -/
def OfferedBy (offer : σ → Option (κ × β)) (slots : List σ) (x : κ × β) : Prop :=
  ∃ slot ∈ slots, offer slot = some x

variable {offer : σ → Option (κ × β)} {slots : List σ} {candidate : Option (κ × β)} {x : κ × β}

theorem smaller_spec (candidate next : Option (κ × β)) :
    (smaller candidate next = none ↔ candidate = none ∧ next = none) ∧
      ∀ x, smaller candidate next = some x → (candidate = some x ∨ next = some x) ∧
        (∀ y, candidate = some y → x.1 ≤ y.1) ∧ ∀ y, next = some y → x.1 ≤ y.1 := by
  cases next with
  | none =>
    refine ⟨by simp [smaller], fun x hx => ⟨.inl hx, fun y hy => ?_, nofun⟩⟩
    rw [smaller, hy] at hx
    rw [some.inj hx]
  | some z =>
    cases candidate with
    | none =>
      refine ⟨by simp [smaller], fun x hx => ⟨.inr hx, nofun, fun y hy => ?_⟩⟩
      rw [← some.inj hy, ← some.inj hx]
    | some y =>
      by_cases hlt : z.1 < y.1
      · refine ⟨by simp [smaller, hlt], fun x hx => ?_⟩
        simp only [smaller, hlt, if_true] at hx
        cases hx
        exact ⟨.inr rfl, fun w hw => some.inj hw ▸ hlt.le, fun w hw => some.inj hw ▸ le_rfl⟩
      · refine ⟨by simp [smaller, hlt], fun x hx => ?_⟩
        simp only [smaller, hlt, if_false] at hx
        cases hx
        exact ⟨.inl rfl, fun w hw => some.inj hw ▸ le_rfl, fun w hw => some.inj hw ▸ not_lt.mp hlt⟩

theorem foldl_smaller_spec (offer : σ → Option (κ × β)) (slots : List σ)
    (candidate : Option (κ × β)) :
    let kept := slots.foldl (fun candidate slot => smaller candidate (offer slot)) candidate
    (kept = none ↔ candidate = none ∧ ∀ x, ¬ OfferedBy offer slots x) ∧
      ∀ x, kept = some x → (candidate = some x ∨ OfferedBy offer slots x) ∧
        (∀ y, candidate = some y → x.1 ≤ y.1) ∧ ∀ y, OfferedBy offer slots y → x.1 ≤ y.1 := by
  induction slots generalizing candidate with
  | nil =>
    refine ⟨by simp [OfferedBy], fun x hx => ⟨.inl hx, fun y hy => ?_, fun y hy => ?_⟩⟩
    · rw [List.foldl_nil, hy] at hx
      rw [some.inj hx]
    · obtain ⟨slot, hslot, -⟩ := hy
      cases hslot
  | cons slot slots ih =>
    obtain ⟨hnone, hsome⟩ := ih (smaller candidate (offer slot))
    obtain ⟨hfirstNone, hfirst⟩ := smaller_spec candidate (offer slot)
    have hoffered : ∀ x, OfferedBy offer (slot :: slots) x ↔ offer slot = some x ∨
        OfferedBy offer slots x := by
      intro x
      simp only [OfferedBy, List.mem_cons, exists_eq_or_imp]
    refine ⟨?_, fun x hx => ?_⟩
    · rw [List.foldl_cons, hnone, hfirstNone]
      constructor
      · rintro ⟨⟨hcandidate, hslot⟩, hrest⟩
        refine ⟨hcandidate, fun x hx => ?_⟩
        rcases (hoffered x).mp hx with h | h
        · rw [hslot] at h
          cases h
        · exact hrest x h
      · rintro ⟨hcandidate, hall⟩
        refine ⟨⟨hcandidate, ?_⟩, fun x hx => hall x ((hoffered x).mpr (.inr hx))⟩
        cases hslot : offer slot with
        | none => rfl
        | some y => exact absurd ((hoffered y).mpr (.inl hslot)) (hall y)
    · obtain ⟨hfrom, hbelow, hrest⟩ := hsome x hx
      have hle : ∀ y, smaller candidate (offer slot) = some y → x.1 ≤ y.1 := hbelow
      have hmid : ∀ y, candidate = some y ∨ offer slot = some y → x.1 ≤ y.1 := by
        intro y hy
        cases hmerged : smaller candidate (offer slot) with
        | none =>
          obtain ⟨hc, ho⟩ := hfirstNone.mp hmerged
          rw [hc, ho] at hy
          rcases hy with h | h
          · cases h
          · cases h
        | some z =>
          obtain ⟨-, hzc, hzo⟩ := hfirst z hmerged
          exact (hle z hmerged).trans (hy.elim (hzc y) (hzo y))
      refine ⟨?_, fun y hy => hmid y (.inl hy), fun y hy => ?_⟩
      · rcases hfrom with h | h
        · rcases (hfirst x h).1 with h' | h'
          · exact .inl h'
          · exact .inr ((hoffered x).mpr (.inl h'))
        · exact .inr ((hoffered x).mpr (.inr h))
      · rcases (hoffered y).mp hy with h | h
        · exact hmid y (.inr h)
        · exact hrest y h

/-- Two scans that are offered the same candidates answer alike, when a key belongs to one
candidate only. -/
theorem leastOf_congr {offer' : τ → Option (κ × β)} {slots' : List τ}
    (hsame : ∀ x, OfferedBy offer' slots' x ↔ OfferedBy offer slots x)
    (hkey : ∀ x y, OfferedBy offer slots x → OfferedBy offer slots y → x.1 = y.1 → x = y) :
    leastOf offer' slots' = leastOf offer slots := by
  obtain ⟨hnone, hsome⟩ := foldl_smaller_spec offer slots none
  obtain ⟨hnone', hsome'⟩ := foldl_smaller_spec offer' slots' none
  unfold leastOf
  cases hkept : slots.foldl (fun candidate slot => smaller candidate (offer slot)) none with
  | none => exact hnone'.mpr ⟨rfl, fun x hx => (hnone.mp hkept).2 x ((hsame x).mp hx)⟩
  | some x =>
    cases hkept' : slots'.foldl (fun candidate slot => smaller candidate (offer' slot)) none with
    | none => exact absurd ((hsome x hkept).1.resolve_left nofun) fun hx =>
        (hnone'.mp hkept').2 x ((hsame x).mpr hx)
    | some y =>
      obtain ⟨hx, -, hleast⟩ := hsome x hkept
      obtain ⟨hy, -, hleast'⟩ := hsome' y hkept'
      have hx := hx.resolve_left nofun
      have hy := (hsame y).mp (hy.resolve_left nofun)
      rw [hkey x y hx hy (le_antisymm (hleast y hy) (hleast' x ((hsame x).mpr hx)))]

end OnyxServer.Lib
