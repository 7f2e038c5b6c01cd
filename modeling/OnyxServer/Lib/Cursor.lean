import OnyxServer.Lib.Bytes

/-!
# Signed words

Wall-clock times are 64-bit signed words. Sums of times are taken exactly and come back as
the nearest word. On the wire a signed word is its two's complement, most significant octet
first.
-/
namespace OnyxServer.Lib

section

instance instLinearOrderInt64 : LinearOrder Int64 where
  le_refl := Int64.le_refl
  le_trans _ _ _ := Int64.le_trans
  le_antisymm _ _ := Int64.le_antisymm
  le_total := Int64.le_total
  lt_iff_le_not_ge a b := by simp only [Int64.lt_iff_toInt_lt, Int64.le_iff_toInt_le]; omega
  toDecidableLE := inferInstance
  toDecidableEq := inferInstance
  toDecidableLT := inferInstance

def maxI64 : Int := 2 ^ 63 - 1
def minI64 : Int := -2 ^ 63

def saturateToI64 (value : Int) : Int64 :=
  if maxI64 < value then Int64.maxValue
  else if value < minI64 then Int64.minValue
  else Int64.ofInt value

variable {a b : Int64} {value other : Int}

theorem toInt_bounds (a : Int64) : minI64 ≤ a.toInt ∧ a.toInt ≤ maxI64 := by
  have hlow := Int64.le_toInt a
  have hhigh := Int64.toInt_lt a
  simp only [minI64, maxI64]
  omega

theorem toInt_saturateToI64 (value : Int) :
    (saturateToI64 value).toInt = max minI64 (min maxI64 value) := by
  unfold saturateToI64
  split
  · next h =>
    rw [min_eq_left h.le]
    rfl
  rename_i hhigh
  split
  · next h =>
    rw [min_eq_right (not_lt.mp hhigh), max_eq_left h.le]
    rfl
  · next hlow =>
    rw [min_eq_right (not_lt.mp hhigh), max_eq_right (not_lt.mp hlow)]
    simp only [minI64, maxI64] at hlow hhigh
    exact Int64.toInt_ofInt_of_le (by omega) (by omega)

/-- A word below an exact sum is below its nearest word. -/
theorem le_saturateToI64 (h : a.toInt ≤ value) : a ≤ saturateToI64 value := by
  have hbounds := toInt_bounds a
  rw [Int64.le_iff_toInt_le, toInt_saturateToI64]
  omega

theorem toInt_saturateToI64_le {bound : Int} (hlow : minI64 ≤ bound) (h : value ≤ bound) :
    (saturateToI64 value).toInt ≤ bound := by
  rw [toInt_saturateToI64]
  exact max_le hlow ((min_le_right _ _).trans h)

theorem toInt_max_le (ha : a.toInt ≤ value) (hb : b.toInt ≤ value) : (max a b).toInt ≤ value := by
  rcases le_total a b with h | h
  · rwa [max_eq_right h]
  · rwa [max_eq_left h]

def i64Bytes (a : Int64) : Bytes := beBytes 8 a.toUInt64.toNat

def i64OfBytes (bytes : Bytes) : Int64 := (UInt64.ofNat (beNat bytes)).toInt64

@[simp] theorem i64Bytes_length (a : Int64) : (i64Bytes a).length = 8 := beBytes_length 8 _

theorem i64_read (a : Int64) : i64OfBytes (i64Bytes a) = a := by
  rw [i64OfBytes, i64Bytes, u64_read]
  exact Int64.toInt64_toUInt64 a

end

/-!
## Cursors

A reader of a record takes octets from the front of what is left and leaves the rest. What
it can take is described by the field that was written: reading the field in front of any
rest answers the value and leaves that rest.
-/
section

variable {ε α β : Type}

/-- A reader of the octets that are left. -/
abbrev Cursor (ε α : Type) := StateT Bytes (Except ε) α

/-- The next `n` octets; `short` when there are fewer. -/
def takeBytes (short : ε) (n : Nat) : Cursor ε Bytes := fun rest =>
  if rest.length < n then .error short else .ok (rest.take n, rest.drop n)

theorem cursor_bind_ok {x : Cursor ε α} {f : α → Cursor ε β} {xs rest : Bytes} {b : β}
    (h : (x >>= f) xs = .ok (b, rest)) :
    ∃ a mid, x xs = .ok (a, mid) ∧ f a mid = .ok (b, rest) := by
  change (x xs >>= fun p => f p.1 p.2) = .ok (b, rest) at h
  cases hx : x xs with
  | error e =>
    rw [hx] at h
    cases h
  | ok p =>
    rw [hx] at h
    exact ⟨p.1, p.2, rfl, h⟩

theorem cursor_pure_ok {a b : α} {xs rest : Bytes} (h : (pure a : Cursor ε α) xs = .ok (b, rest)) :
    b = a ∧ rest = xs := by
  cases h
  exact ⟨rfl, rfl⟩

/-- The reader takes exactly this field, and answers `a`. -/
def Takes (read : Cursor ε α) (field : Bytes) (a : α) : Prop :=
  ∀ rest, read (field ++ rest) = .ok (a, rest)

variable {field : Bytes} {n : Nat}

theorem takes_takeBytes {short : ε} (h : field.length = n) :
    Takes (takeBytes short n) field field := by
  intro rest
  rw [takeBytes, if_neg (by rw [List.length_append]; omega), List.take_left' h, List.drop_left' h]

variable {read : Cursor ε α}

theorem Takes.map {a : α} (h : Takes read field a) (f : α → β) :
    Takes (f <$> read) field (f a) := by
  intro rest
  have hread := h rest
  change (read (field ++ rest) >>= fun p => Except.ok (f p.1, p.2)) = .ok (f a, rest)
  rw [hread]
  rfl

/-- The reader takes exactly this field, and answers as `answer` does. -/
def Reads (read : Cursor ε α) (field : Bytes) (answer : Except ε α) : Prop :=
  ∀ rest, read (field ++ rest) = answer.map fun a => (a, rest)

theorem Takes.reads {a : α} (h : Takes read field a) :
    Reads read field (.ok a) := h

variable {next : α → Cursor ε β} {answer : Except ε α}

theorem Reads.bind {field tail : Bytes}
    {f : α → Except ε β} (hread : Reads read field answer)
    (hnext : ∀ a, answer = .ok a → Reads (next a) tail (f a)) :
    Reads (read >>= next) (field ++ tail) (answer >>= f) := by
  intro rest
  change (read (field ++ tail ++ rest) >>= fun p => next p.1 p.2) = _
  rw [List.append_assoc, hread]
  cases answer with
  | error e => rfl
  | ok a => exact hnext a rfl rest

theorem Reads.map (h : Reads read field answer)
    (f : α → β) : Reads (f <$> read) field (answer >>= fun a => .ok (f a)) := by
  intro rest
  change (read (field ++ rest) >>= fun p => Except.ok (f p.1, p.2)) = _
  rw [h]
  cases answer with
  | error e => rfl
  | ok a => rfl

theorem Reads.last
    {f : α → Except ε β} (hread : Reads read field answer)
    (hnext : ∀ a, answer = .ok a → Reads (next a) [] (f a)) :
    Reads (read >>= next) field (answer >>= f) := by
  have h := hread.bind hnext
  rw [List.append_nil] at h
  exact h

theorem Takes.then {field tail : Bytes} {a : α}
    {answer : Except ε β} (hread : Takes read field a) (hnext : Reads (next a) tail answer) :
    Reads (read >>= next) (field ++ tail) answer :=
  hread.reads.bind (f := fun _ => answer) fun b hb => by
    rw [← Except.ok.inj hb]
    exact hnext

theorem Takes.last {a : α} {answer : Except ε β}
    (hread : Takes read field a) (hnext : Reads (next a) [] answer) :
    Reads (read >>= next) field answer := by
  have h := hread.then hnext
  rw [List.append_nil] at h
  exact h

/-- The reader leaves an end of what it was given. -/
def LeavesEnd (read : Cursor ε α) : Prop := ∀ xs a rest, read xs = .ok (a, rest) → rest <:+ xs

theorem leavesEnd_takeBytes (short : ε) (n : Nat) : LeavesEnd (takeBytes short n) := by
  intro xs a rest h
  unfold takeBytes at h
  split_ifs at h
  · cases h
    exact List.drop_suffix n xs

theorem leavesEnd_pure (a : α) : LeavesEnd (pure a : Cursor ε α) := by
  intro xs b rest h
  obtain ⟨-, rfl⟩ := cursor_pure_ok h
  exact List.suffix_refl _

theorem leavesEnd_throw (e : ε) : LeavesEnd (throw e : Cursor ε α) := fun _ _ _ h => nomatch h

theorem LeavesEnd.bind (hread : LeavesEnd read)
    (hnext : ∀ a, LeavesEnd (next a)) : LeavesEnd (read >>= next) := by
  intro xs b rest h
  obtain ⟨a, mid, hfirst, hsecond⟩ := cursor_bind_ok h
  exact (hnext a mid b rest hsecond).trans (hread xs a mid hfirst)

theorem LeavesEnd.map (hread : LeavesEnd read) (f : α → β) :
    LeavesEnd (f <$> read) := by
  intro xs b rest h
  obtain ⟨a, mid, hfirst, hsecond⟩ := cursor_bind_ok (f := fun a => pure (f a)) h
  rw [(cursor_pure_ok hsecond).2]
  exact hread xs a mid hfirst

theorem takeBytes_length {short : ε} {xs field rest : Bytes}
    (h : takeBytes short n xs = .ok (field, rest)) : field.length = n := by
  unfold takeBytes at h
  split_ifs at h with hlen
  cases h
  rw [List.length_take]
  omega

/-- The octets that are taken stand together in whatever the input is an end of. -/
theorem takeBytes_infix {short : ε} {whole xs field rest : Bytes} (hend : xs <:+ whole)
    (h : takeBytes short n xs = .ok (field, rest)) : field <:+: whole := by
  unfold takeBytes at h
  split_ifs at h
  · cases h
    exact (List.take_prefix n xs).isInfix.trans hend.isInfix

/-- The reader takes `n` octets, whatever it is given. -/
def Consumes (n : Nat) (read : Cursor ε α) : Prop :=
  ∀ xs a rest, read xs = .ok (a, rest) → xs.length = n + rest.length

theorem consumes_takeBytes (short : ε) (n : Nat) : Consumes n (takeBytes short n) := by
  intro xs a rest h
  unfold takeBytes at h
  split_ifs at h
  · cases h
    rw [List.length_drop]
    omega

theorem consumes_pure (a : α) : Consumes 0 (pure a : Cursor ε α) := by
  intro xs b rest h
  rw [(cursor_pure_ok h).2, Nat.zero_add]

theorem consumes_throw (n : Nat) (e : ε) : Consumes n (throw e : Cursor ε α) :=
  fun _ _ _ h => nomatch h

theorem Consumes.bind {n m : Nat} (hread : Consumes n read)
    (hnext : ∀ a, Consumes m (next a)) : Consumes (n + m) (read >>= next) := by
  intro xs b rest h
  obtain ⟨a, mid, hfirst, hsecond⟩ := cursor_bind_ok h
  rw [hread xs a mid hfirst, hnext a mid b rest hsecond, Nat.add_assoc]

theorem Consumes.map (hread : Consumes n read) (f : α → β) :
    Consumes n (f <$> read) := by
  intro xs b rest h
  obtain ⟨a, mid, hfirst, hsecond⟩ := cursor_bind_ok (f := fun a => pure (f a)) h
  rw [(cursor_pure_ok hsecond).2]
  exact hread xs a mid hfirst

def Answers (P : α → Prop) (read : Cursor ε α) : Prop := ∀ xs a rest, read xs = .ok (a, rest) → P a

theorem Answers.bind {P : β → Prop}
    (hnext : ∀ a, Answers P (next a)) : Answers P (read >>= next) := by
  intro xs b rest h
  obtain ⟨a, mid, -, hsecond⟩ := cursor_bind_ok h
  exact hnext a mid b rest hsecond

/-- What the first reader answers, the second one may rely on. -/
theorem Answers.andThen {P : α → Prop} {Q : β → Prop}
    (hread : Answers P read) (hnext : ∀ a, P a → Answers Q (next a)) :
    Answers Q (read >>= next) := by
  intro xs b rest h
  obtain ⟨a, mid, hfirst, hsecond⟩ := cursor_bind_ok h
  exact hnext a (hread xs a mid hfirst) mid b rest hsecond

end

end OnyxServer.Lib
