import OnyxServer.Lib.Bytes

/-!
# Allocators, slices and checked sizes

Fixed layouts are read by slices of a buffer. A buffer that was written as an
append of fields answers a slice on field boundaries with that field.
-/
namespace OnyxServer.Lib

section

/-- Whether the `n`-th allocation of a call succeeds. -/
abbrev Allocator := Nat → Bool

/-- `bytes[start..stop]`. -/
def slice (bytes : Bytes) (start stop : Nat) : Bytes := (bytes.drop start).take (stop - start)

/-- A slice on the boundaries of a field is that field. -/
theorem slice_field {bytes l m r : Bytes} {start stop : Nat} (h : bytes = l ++ (m ++ r))
    (hl : l.length = start) (hm : start + m.length = stop) : slice bytes start stop = m := by
  rw [slice, h, List.drop_left' hl, List.take_left' (by omega)]

/-- A slice behind a field is a slice of what follows it. -/
theorem slice_skip {l r : Bytes} {start stop n : Nat} (hl : l.length = n) (h : n ≤ start) :
    slice (l ++ r) start stop = slice r (start - n) (stop - n) := by
  subst hl
  rw [slice, slice, List.drop_append, List.drop_eq_nil_of_le h, List.nil_append]
  congr 1
  omega

theorem slice_first {l r : Bytes} {n : Nat} (hl : l.length = n) : slice (l ++ r) 0 n = l := by
  rw [slice, List.drop_zero, Nat.sub_zero, List.take_left' hl]

/-- The size of a machine word that counts bytes. -/
def usizeLimit : Nat := 2 ^ 64

def checkedAdd (a b : Nat) : Option Nat := if a + b < usizeLimit then some (a + b) else none

def checkedMul (a b : Nat) : Option Nat := if a * b < usizeLimit then some (a * b) else none

theorem checkedAdd_some {a b : Nat} (h : a + b < usizeLimit) : checkedAdd a b = some (a + b) :=
  if_pos h

theorem checkedAdd_eq {a b c : Nat} (h : checkedAdd a b = some c) : c = a + b := by
  unfold checkedAdd at h
  split at h
  · exact (Option.some.inj h).symm
  · cases h

theorem checkedAdd_le {a b c : Nat} (h : checkedAdd a b = some c) : a + b ≤ 2 ^ 64 - 1 := by
  unfold checkedAdd at h
  split at h
  · next hlt =>
    simp only [usizeLimit] at hlt
    omega
  · cases h

theorem checkedMul_some {a b : Nat} (h : a * b < usizeLimit) : checkedMul a b = some (a * b) :=
  if_pos h

theorem map_ok {ε α β : Type} {x : Except ε α} {f : α → β} {b : β} (h : f <$> x = .ok b) :
    ∃ a, x = .ok a ∧ f a = b := by
  cases x with
  | error e => cases h
  | ok a => exact ⟨a, rfl, Except.ok.inj h⟩

theorem bind_ok {α β ε : Type} {x : Except ε α} {f : α → Except ε β} {b : β} (h : x >>= f = .ok b) :
    ∃ a, x = .ok a ∧ f a = .ok b := by
  cases x with
  | error e => cases h
  | ok a => exact ⟨a, rfl, h⟩

end

/-!
## Readers of a growing buffer

A reader waits with an error of its own while the buffer is too short for it. When its
answer is any other one, more input does not change the answer.
-/
section

variable {ε β γ : Type} {wait : ε} {xs : Bytes} {start n : Nat}

/-- The answer is final once it is not `wait`. -/
def Settled (wait : ε) (read : Bytes → Except ε β) : Prop :=
  ∀ xs ys, read xs ≠ .error wait → read (xs ++ ys) = read xs

theorem Settled.const (answer : Except ε β) : Settled wait fun _ => answer := fun _ _ _ => rfl

theorem Settled.bind {read : Bytes → Except ε β} {next : β → Bytes → Except ε γ}
    (hread : Settled wait read)
    (hnext : ∀ b, Settled wait (next b)) :
    Settled wait fun xs => read xs >>= fun b => next b xs := by
  intro xs ys h
  cases hfirst : read xs with
  | error e =>
    have hother : read xs ≠ .error wait := by
      intro hwait
      refine h ?_
      simp only [hwait]
      rfl
    simp only [hread xs ys hother, hfirst]
    rfl
  | ok b =>
    have hkept := hread xs ys (by rw [hfirst]; simp)
    simp only [hfirst] at h
    have hrest := hnext b xs ys h
    simp only [hkept, hfirst]
    exact hrest

/-- The `n` octets from `start` on. -/
def readAt (wait : ε) (input : Bytes) (start n : Nat) : Except ε Bytes :=
  if input.length < start + n then .error wait else .ok (slice input start (start + n))

theorem slice_of_append (ys : Bytes) (h : start + n ≤ xs.length) :
    slice (xs ++ ys) start (start + n) = slice xs start (start + n) := by
  rw [slice, slice, List.drop_append_of_le_length (by omega), List.take_append_of_le_length]
  rw [List.length_drop]
  omega

theorem readAt_settled (start n : Nat) : Settled wait fun xs => readAt wait xs start n := by
  intro xs ys h
  simp only [readAt] at h ⊢
  by_cases hshort : xs.length < start + n
  · rw [if_pos hshort] at h
    exact absurd rfl h
  · rw [if_neg hshort, if_neg (by rw [List.length_append]; omega), slice_of_append ys (by omega)]

theorem readAt_ok {answer : Bytes} (h : readAt wait xs start n = .ok answer) :
    start + n ≤ xs.length ∧ answer = slice xs start (start + n) := by
  unfold readAt at h
  split_ifs at h
  · exact ⟨by omega, (Except.ok.inj h).symm⟩

/-- A read on the boundaries of a field is that field. -/
theorem readAt_field {l m r : Bytes} (h : xs = l ++ (m ++ r)) (hl : l.length = start)
    (hm : m.length = n) :
    readAt wait xs start n = .ok m := by
  have hlength : start + n ≤ xs.length := by
    rw [h, List.length_append, List.length_append]
    omega
  rw [readAt, if_neg (by omega), slice_field h hl (by omega)]

/-- An error other than the reader's own, when a condition holds. -/
def failIf (condition : Bool) (error : ε) : Except ε Unit :=
  if condition then .error error else .ok ()

theorem failIf_false {condition : Bool} {error : ε} (h : condition = false) :
    failIf condition error = .ok () := by
  rw [failIf, h]
  rfl

theorem failIf_ok {condition : Bool} {error : ε} {u : Unit} (h : failIf condition error = .ok u) :
    condition = false := by
  unfold failIf at h
  split_ifs at h
  · next hfalse => simpa using hfalse

end

/-!
## Writing into a fixed buffer

`splice` copies octets over a buffer at an offset. Slices before the offset do not change,
and a slice that ends behind the copied octets ends with them.
-/
section

variable {buf bytes : Bytes} {pos start mid stop : Nat}

/-- `@memcpy(buf[pos..][0..bytes.len], bytes)`. -/
def splice (buf : Bytes) (pos : Nat) (bytes : Bytes) : Bytes :=
  buf.take pos ++ (bytes ++ buf.drop (pos + bytes.length))

theorem length_splice (h : pos + bytes.length ≤ buf.length) :
    (splice buf pos bytes).length = buf.length := by
  simp only [splice, List.length_append, List.length_take, List.length_drop]
  omega

theorem take_splice (h : pos ≤ buf.length) : (splice buf pos bytes).take pos = buf.take pos := by
  rw [splice, List.take_left' (by rw [List.length_take]; omega)]

theorem take_splice_through (h : pos ≤ buf.length) :
    (splice buf pos bytes).take (pos + bytes.length) = buf.take pos ++ bytes := by
  rw [splice, ← List.append_assoc,
    List.take_left' (by rw [List.length_append, List.length_take]; omega)]

theorem slice_eq_drop_take : slice buf start stop = (buf.take stop).drop start := by
  rw [slice, List.drop_take]

theorem length_slice (h : stop ≤ buf.length) : (slice buf start stop).length = stop - start := by
  rw [slice_eq_drop_take, List.length_drop, List.length_take]
  omega

theorem slice_self : slice buf start start = [] := by
  rw [slice, Nat.sub_self, List.take_zero]

theorem slice_empty (h : stop ≤ start) : slice buf start stop = [] := by
  rw [slice, Nat.sub_eq_zero_of_le h, List.take_zero]

theorem slice_append_slice (hstart : start ≤ mid) (hmid : mid ≤ stop) :
    slice buf start mid ++ slice buf mid stop = slice buf start stop := by
  have htail : buf.drop mid = (buf.drop start).drop (mid - start) := by
    rw [List.drop_drop]
    congr 1
    omega
  have hlen : stop - start = (mid - start) + (stop - mid) := by omega
  rw [slice, slice, slice, htail, hlen, List.take_add]

theorem slice_eq_of_take {other : Bytes} (h : buf.take mid = other.take mid) (hstop : stop ≤ mid) :
    slice buf start stop = slice other start stop := by
  have hprefix : buf.take stop = other.take stop := by
    have hcut := congrArg (List.take stop) h
    rwa [List.take_take, List.take_take, Nat.min_eq_left hstop] at hcut
  rw [slice_eq_drop_take, slice_eq_drop_take, hprefix]

theorem slice_splice_through (hstart : start ≤ pos) (hpos : pos ≤ buf.length) :
    slice (splice buf pos bytes) start (pos + bytes.length) = slice buf start pos ++ bytes := by
  rw [slice_eq_drop_take, take_splice_through hpos, slice_eq_drop_take,
    List.drop_append_of_le_length]
  rw [List.length_take]
  omega

theorem slice_splice_front (buf bytes : Bytes) :
    slice (splice buf 0 bytes) 0 bytes.length = bytes := by
  rw [slice_eq_drop_take, List.drop_zero, splice, List.take_zero, List.nil_append, List.take_left]

end

end OnyxServer.Lib
