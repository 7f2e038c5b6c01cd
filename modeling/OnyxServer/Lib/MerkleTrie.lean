import Mathlib.Data.List.Nodup
import Mathlib.Data.List.Dedup

/-!
# Hash tries and their difference

A set of items is split by one bit of each item a level. A subtree of at most one
item is hashed as such at any depth, a fuller one with the path to it, and the items
left together when the bits run out in one bucket. The results only ask that equal
digests come from equal contents among the contents that are really hashed.
-/
namespace OnyxServer.Lib.MerkleTrie

open List

variable {α δ : Type}

/-- What one digest covers, apart from where it stands. -/
inductive Content (α δ : Type) where
  | empty
  | leaf (item : α)
  | node (left right : δ)
  | bucket (leaves : List δ)

/-- A content at the path that leads to it, the last bit first. -/
abbrev Input (α δ : Type) := List Bool × Content α δ

section Hashing

variable (digest : Input α δ → δ) (bit : α → Nat → Bool)

/-- The items on one side of the bit that the path comes to next. -/
def branch (path : List Bool) (side : Bool) (xs : List α) : List α :=
  xs.filter fun a => bit a path.length == side

/-- The content of a subtree, with `left` bits still to split by. -/
def content : Nat → List Bool → List α → Content α δ
  | left, path, xs =>
    match xs with
    | [] => .empty
    | [a] => .leaf a
    | _ =>
      match left with
      | 0 => .bucket (xs.map fun a => digest (path, .leaf a))
      | left + 1 =>
        .node (digest (false :: path, content left (false :: path) (branch bit path false xs)))
          (digest (true :: path, content left (true :: path) (branch bit path true xs)))

def hash (left : Nat) (path : List Bool) (xs : List α) : δ :=
  digest (path, content digest bit left path xs)

/-- Everything that is hashed to compute the hash of a subtree. -/
def inputs : Nat → List Bool → List α → List (Input α δ)
  | left, path, xs =>
    (path, content digest bit left path xs) ::
      match xs with
      | [] | [_] => []
      | _ =>
        match left with
        | 0 => xs.map fun a => (path, .leaf a)
        | left + 1 =>
          inputs left (false :: path) (branch bit path false xs) ++
            inputs left (true :: path) (branch bit path true xs)

variable [DecidableEq δ]

/-- The items of `ys` in the terminal subtrees where the two hashes differ. -/
def diff : Nat → List Bool → List α → List α → List α
  | left, path, xs, ys =>
    if hash digest bit left path xs = hash digest bit left path ys then []
    else if ys.length ≤ 1 then ys
    else
      match left with
      | 0 => ys
      | left + 1 =>
        diff left (false :: path) (branch bit path false xs) (branch bit path false ys) ++
          diff left (true :: path) (branch bit path true xs) (branch bit path true ys)

/-- Everything that is hashed on both sides to compute the difference. -/
def diffInputs : Nat → List Bool → List α → List α → List (Input α δ)
  | left, path, xs, ys =>
    inputs digest bit left path xs ++ inputs digest bit left path ys ++
      if hash digest bit left path xs = hash digest bit left path ys then []
      else if ys.length ≤ 1 then []
      else
        match left with
        | 0 => []
        | left + 1 =>
          diffInputs left (false :: path) (branch bit path false xs) (branch bit path false ys) ++
            diffInputs left (true :: path) (branch bit path true xs) (branch bit path true ys)

end Hashing

variable {digest : Input α δ → δ} {bit : α → Nat → Bool}

/-- Equal digests of inputs in the list come from equal contents. -/
def Binding (digest : Input α δ → δ) (is : List (Input α δ)) : Prop :=
  ∀ i ∈ is, ∀ j ∈ is, digest i = digest j → i.2 = j.2

theorem Binding.mono {is js : List (Input α δ)} (h : Binding digest is) (hsub : ∀ i ∈ js, i ∈ is) :
    Binding digest js := fun i hi j hj => h i (hsub i hi) j (hsub j hj)

variable {path : List Bool}

theorem mem_branch_iff {side : Bool} {xs : List α} {a : α} :
    a ∈ branch bit path side xs ↔ a ∈ xs ∧ bit a path.length = side := by
  simp [branch]

theorem mem_branches (bit : α → Nat → Bool) (path : List Bool) {xs : List α} {a : α} :
    a ∈ xs ↔ a ∈ branch bit path false xs ∨ a ∈ branch bit path true xs := by
  rw [mem_branch_iff, mem_branch_iff]
  cases bit a path.length <;> simp

theorem content_mem (left : Nat) (path : List Bool) (xs : List α) :
    (path, content digest bit left path xs) ∈ inputs digest bit left path xs := by
  unfold inputs
  exact mem_cons_self

variable {xs ys : List α} {left : Nat}

theorem hash_eq_content
    (hbind : Binding digest (inputs digest bit left path xs ++ inputs digest bit left path ys))
    (heq : hash digest bit left path xs = hash digest bit left path ys) :
    content digest bit left path xs = content digest bit left path ys :=
  hbind _ (mem_append_left _ (content_mem left path xs)) _
    (mem_append_right _ (content_mem left path ys)) heq

/-- The shape of a subtree's content, with the inputs below it. -/
inductive Shape (digest : Input α δ → δ) (bit : α → Nat → Bool) (left : Nat) (path : List Bool)
    (xs : List α) :
    Content α δ → Prop where
  | empty (h : xs = []) : Shape digest bit left path xs .empty
  | leaf (a : α) (h : xs = [a]) : Shape digest bit left path xs (.leaf a)
  | bucket (h : ∀ a ∈ xs, (path, .leaf a) ∈ inputs digest bit left path xs) :
    Shape digest bit left path xs (.bucket (xs.map fun a => digest (path, .leaf a)))
  | node (next : Nat) (hleft : left = next + 1)
    (h : ∀ side, ∀ i ∈ inputs digest bit next (side :: path) (branch bit path side xs),
      i ∈ inputs digest bit left path xs) :
    Shape digest bit left path xs
      (.node (hash digest bit next (false :: path) (branch bit path false xs))
        (hash digest bit next (true :: path) (branch bit path true xs)))

theorem content_shape (left : Nat) (path : List Bool) (xs : List α) :
    Shape digest bit left path xs (content digest bit left path xs) := by
  match xs, left with
  | [], _ => unfold content; exact .empty rfl
  | [a], _ => unfold content; exact .leaf a rfl
  | a :: b :: rest, 0 =>
    unfold content
    refine .bucket fun c hc => ?_
    unfold inputs
    exact mem_cons_of_mem _ (mem_map_of_mem hc)
  | a :: b :: rest, left + 1 =>
    unfold content
    refine .node left rfl fun side i hi => ?_
    unfold inputs
    refine mem_cons_of_mem _ ?_
    cases side with
    | false => exact mem_append_left _ hi
    | true => exact mem_append_right _ hi

theorem leaves_inj {is : List (Input α δ)} (hbind : Binding digest is) :
    ∀ {xs ys : List α}, (∀ a ∈ xs, (path, .leaf a) ∈ is) → (∀ a ∈ ys, (path, .leaf a) ∈ is) →
      (xs.map fun a => digest (path, .leaf a)) = (ys.map fun a => digest (path, .leaf a)) → xs = ys
  | [], [], _, _, _ => rfl
  | [], _ :: _, _, _, h => by simp at h
  | _ :: _, [], _, _, h => by simp at h
  | a :: xs, b :: ys, hx, hy, h => by
    simp only [map_cons, List.cons.injEq] at h
    have hab := hbind _ (hx a mem_cons_self) _ (hy b mem_cons_self) h.1
    obtain rfl : a = b := by injection hab
    have hrest := leaves_inj hbind (fun c hc => hx c (mem_cons_of_mem _ hc))
      (fun c hc => hy c (mem_cons_of_mem _ hc)) h.2
    rw [hrest]

section

variable (hbind : Binding digest (inputs digest bit left path xs ++ inputs digest bit left path ys))
include hbind

/-- Subtrees of one content hold the same items when their halves do. -/
theorem mem_iff_of_shapes {cx cy : Content α δ}
    (hx : Shape digest bit left path xs cx) (hy : Shape digest bit left path ys cy) (heq : cx = cy)
    (halves : ∀ next, left = next + 1 → ∀ side,
      Binding digest (inputs digest bit next (side :: path) (branch bit path side xs) ++
        inputs digest bit next (side :: path) (branch bit path side ys)) →
      hash digest bit next (side :: path) (branch bit path side xs) =
        hash digest bit next (side :: path) (branch bit path side ys) →
      ∀ a, a ∈ branch bit path side xs ↔ a ∈ branch bit path side ys) (a : α) : a ∈ xs ↔
        a ∈ ys := by
  cases hx with
  | empty hx =>
    cases hy with
    | empty hy => rw [hx, hy]
    | _ => cases heq
  | leaf b hx =>
    cases hy with
    | leaf c hy =>
      obtain rfl : b = c := by injection heq
      rw [hx, hy]
    | _ => cases heq
  | bucket hx =>
    cases hy with
    | bucket hy =>
      injection heq with hleaves
      rw [leaves_inj hbind (fun b hb => mem_append_left _ (hx b hb))
        (fun b hb => mem_append_right _ (hy b hb)) hleaves]
    | _ => cases heq
  | node next hleft hxs =>
    cases hy with
    | node next' hleft' hys =>
      obtain rfl : next = next' := by omega
      have hbelow :
          ∀ side, Binding digest (inputs digest bit next (side :: path) (branch bit path side xs) ++
          inputs digest bit next (side :: path) (branch bit path side ys)) := fun side =>
        hbind.mono fun i hi => (mem_append.mp hi).elim
          (fun h => mem_append_left _ (hxs side i h)) fun h => mem_append_right _ (hys side i h)
      injection heq with hfalse htrue
      have h₀ := halves next hleft false (hbelow false) hfalse a
      have h₁ := halves next hleft true (hbelow true) htrue a
      rw [(mem_branches bit path).trans (or_congr h₀ h₁), ← mem_branches]
    | _ => cases heq

/-- Equal hashes of a subtree cover the same items. -/
theorem mem_iff_of_hash_eq
    (heq : hash digest bit left path xs = hash digest bit left path ys) (a : α) : a ∈ xs ↔
    a ∈ ys := by
  induction left generalizing path xs ys a with
  | zero =>
    refine mem_iff_of_shapes hbind (content_shape 0 path xs) (content_shape 0 path ys)
      (hash_eq_content hbind heq)
      (fun next hnext => ?_) a
    omega
  | succ left ih =>
    refine mem_iff_of_shapes hbind (content_shape (left + 1) path xs)
      (content_shape (left + 1) path ys)
      (hash_eq_content hbind heq) (fun next hnext side hbelow hside b => ?_) a
    obtain rfl : left = next := by omega
    exact ih hbelow hside b

end

/-! ## The difference -/

variable [DecidableEq δ]

/-- The difference of two subtrees: nothing where the hashes agree, everything at a
terminal subtree, and the differences of the halves otherwise. -/
theorem diff_cases (digest : Input α δ → δ) (bit : α → Nat → Bool) (left : Nat) (path : List Bool)
    (xs ys : List α) :
    (hash digest bit left path xs = hash digest bit left path ys ∧
      diff digest bit left path xs ys = []) ∨
    diff digest bit left path xs ys = ys ∨
    ∃ next, left = next + 1 ∧
      diff digest bit left path xs ys =
        diff digest bit next (false :: path) (branch bit path false xs)
        (branch bit path false ys) ++
          diff digest bit next (true :: path) (branch bit path true xs) (branch bit path true ys) ∧
      ∀ side, ∀ i ∈ diffInputs digest bit next (side :: path) (branch bit path side xs)
      (branch bit path side ys),
        i ∈ diffInputs digest bit left path xs ys := by
  by_cases heq : hash digest bit left path xs = hash digest bit left path ys
  · refine .inl ⟨heq, ?_⟩
    unfold diff
    rw [if_pos heq]
  by_cases hfew : ys.length ≤ 1
  · refine .inr (.inl ?_)
    unfold diff
    rw [if_neg heq, if_pos hfew]
  cases left with
  | zero =>
    refine .inr (.inl ?_)
    unfold diff
    rw [if_neg heq, if_neg hfew]
  | succ next =>
    refine .inr (.inr ⟨next, rfl, ?_, fun side i hi => ?_⟩)
    · rw [diff, if_neg heq, if_neg hfew]
    · rw [diffInputs, if_neg heq, if_neg hfew]
      refine mem_append_right _ ?_
      cases side with
      | false => exact mem_append_left _ hi
      | true => exact mem_append_right _ hi

theorem mem_diffInputs {i : Input α δ}
    (hi : i ∈ inputs digest bit left path xs ++ inputs digest bit left path ys) :
    i ∈ diffInputs digest bit left path xs ys := by
  unfold diffInputs
  exact mem_append_left _ hi

theorem diff_subset {a : α}
    (ha : a ∈ diff digest bit left path xs ys) : a ∈ ys := by
  induction left using Nat.strongRecOn generalizing path xs ys with
  | _ left ih =>
    rcases diff_cases digest bit left path xs ys with ⟨-, h⟩ | h | ⟨next, hnext, h, -⟩
    · rw [h] at ha
      cases ha
    · exact h ▸ ha
    · rw [h] at ha
      rcases mem_append.mp ha with ha | ha
      · exact (mem_branch_iff.mp (ih next (by omega) ha)).1
      · exact (mem_branch_iff.mp (ih next (by omega) ha)).1

theorem diff_nodup (hys : ys.Nodup) :
    (diff digest bit left path xs ys).Nodup := by
  induction left using Nat.strongRecOn generalizing path xs ys with
  | _ left ih =>
    rcases diff_cases digest bit left path xs ys with ⟨-, h⟩ | h | ⟨next, hnext, h, -⟩
    · rw [h]
      exact nodup_nil
    · rwa [h]
    · rw [h]
      refine nodup_append.mpr
        ⟨ih next (by omega) (hys.filter _), ih next (by omega) (hys.filter _), fun a ha b hb => ?_⟩
      -- the halves differ in the bit they were split by
      have hfalse := (mem_branch_iff.mp (diff_subset ha)).2
      have htrue := (mem_branch_iff.mp (diff_subset hb)).2
      rintro rfl
      rw [hfalse] at htrue
      cases htrue

/-- Every item of `ys` that `xs` has not is found. -/
theorem mem_diff {a : α}
    (hbind : Binding digest (diffInputs digest bit left path xs ys)) (hy : a ∈ ys) (hx : a ∉ xs) :
    a ∈ diff digest bit left path xs ys := by
  induction left using Nat.strongRecOn generalizing path xs ys with
  | _ left ih =>
    rcases diff_cases digest bit left path xs ys with
      ⟨heq, -⟩ | h | ⟨next, hnext, h, hbelow⟩
    · have hsame := mem_iff_of_hash_eq (hbind.mono fun i hi => mem_diffInputs hi) heq a
      exact absurd (hsame.mpr hy) hx
    · rwa [h]
    · have hhalf : ∀ side, a ∈ branch bit path side ys →
          a ∈ diff digest bit next (side :: path) (branch bit path side xs)
            (branch bit path side ys) :=
        fun side hside =>
          ih next (by omega) (hbind.mono fun i hi => hbelow side i hi) hside fun hmem =>
          hx (mem_branch_iff.mp hmem).1
      rw [h]
      rcases (mem_branches bit path).mp hy with hside | hside
      · exact mem_append_left _ (hhalf false hside)
      · exact mem_append_right _ (hhalf true hside)

end OnyxServer.Lib.MerkleTrie
