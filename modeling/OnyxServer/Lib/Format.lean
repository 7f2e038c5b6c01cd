import OnyxServer.Lib.Cursor

/-!
# Exact formats

A reader is exact when it accepts precisely the octets a writer makes of the values it
answers. A record's reader is then inverted field by field, and what it accepts is what
was written. Writers append to a buffer of bounded capacity.
-/
namespace OnyxServer.Lib

open List

variable {ε α β : Type}

/-- The reader answers `a` on exactly the octets that `write` makes of it, when `P a`. -/
def Exact (read : Cursor ε α) (P : α → Prop) (write : α → Bytes) : Prop :=
  ∀ xs a rest, read xs = .ok (a, rest) ↔ P a ∧ xs = write a ++ rest

theorem cursor_bind_iff {x : Cursor ε α} {f : α → Cursor ε β} {xs rest : Bytes} {b : β} :
    (x >>= f) xs = .ok (b, rest) ↔ ∃ a mid, x xs = .ok (a, mid) ∧ f a mid = .ok (b, rest) := by
  refine ⟨cursor_bind_ok, ?_⟩
  rintro ⟨a, mid, hx, hf⟩
  change (x xs >>= fun p => f p.1 p.2) = .ok (b, rest)
  rw [hx]
  exact hf

theorem cursor_pure_iff {a b : α} {xs rest : Bytes} :
    (pure a : Cursor ε α) xs = .ok (b, rest) ↔ b = a ∧ rest = xs := by
  refine ⟨cursor_pure_ok, ?_⟩
  rintro ⟨rfl, rfl⟩
  rfl

variable {write : α → Bytes} {read : Cursor ε α} {P : α → Prop}

theorem Exact.bind_iff (h : Exact read P write)
    {next : α → Cursor ε β} {xs rest : Bytes} {b : β} :
    (read >>= next) xs = .ok (b, rest) ↔ ∃ a mid, (P a ∧ xs = write a ++ mid) ∧
    next a mid = .ok (b, rest) := by
  rw [cursor_bind_iff]
  exact exists_congr fun a => exists_congr fun mid => and_congr_left' (h xs a mid)

/-- The reader fails unless the condition holds. -/
def require (condition : Prop) [Decidable condition] (error : ε) : Cursor ε Unit :=
  if condition then pure () else throw error

variable {next : Unit → Cursor ε β}

theorem require_bind_iff {condition : Prop} [Decidable condition] {error : ε}
    {xs rest : Bytes} {b : β} :
    (require condition error >>= next) xs = .ok (b, rest) ↔ condition ∧
    next () xs = .ok (b, rest) := by
  unfold require
  by_cases hcond : condition
  · rw [if_pos hcond]
    exact (and_iff_right hcond).symm
  · rw [if_neg hcond]
    exact ⟨fun h => (nomatch h), fun h => absurd h.1 hcond⟩

/-- A check of what was read so far. -/
def check (answer : Except ε Unit) : Cursor ε Unit := fun xs => answer.map fun u => (u, xs)

theorem check_bind_iff {answer : Except ε Unit} {xs rest : Bytes} {b : β} :
    (check answer >>= next) xs = .ok (b, rest) ↔ answer = .ok () ∧ next () xs = .ok (b, rest) := by
  cases answer with
  | error e =>
    constructor
    · intro h
      cases h
    · rintro ⟨h, -⟩
      cases h
  | ok u => exact (and_iff_right rfl).symm

theorem exact_takeBytes (short : ε) (n : Nat) :
    Exact (takeBytes short n) (fun field => field.length = n) fun field => field := by
  intro xs field rest
  constructor
  · intro h
    refine ⟨takeBytes_length h, ?_⟩
    unfold takeBytes at h
    split_ifs at h
    · cases h
      exact (take_append_drop n xs).symm
  · rintro ⟨hlen, rfl⟩
    exact takes_takeBytes hlen rest

theorem Exact.map (h : Exact read P write)
    {f : α → β} {g : β → α} (hfg : ∀ b, f (g b) = b) (hgf : ∀ a, P a → g (f a) = a) :
    Exact (f <$> read) (fun b => P (g b)) fun b => write (g b) := by
  intro xs b rest
  have hbind : (f <$> read) xs = (read >>= fun a => pure (f a)) xs := rfl
  rw [hbind, h.bind_iff]
  constructor
  · rintro ⟨a, mid, ⟨hP, rfl⟩, hpure⟩
    obtain ⟨rfl, rfl⟩ := cursor_pure_iff.mp hpure
    show P (g (f a)) ∧ write a ++ rest = write (g (f a)) ++ rest
    rw [hgf a hP]
    exact ⟨hP, rfl⟩
  · rintro ⟨hP, rfl⟩
    exact ⟨g b, rest, ⟨hP, rfl⟩, cursor_pure_iff.mpr ⟨(hfg b).symm, rfl⟩⟩

/-- So many values in a row. -/
def readEach (read : Cursor ε α) : Nat → Cursor ε (List α)
  | 0 => pure []
  | count + 1 => do
    let a ← read
    let rest ← readEach read count
    pure (a :: rest)

theorem Exact.each (h : Exact read P write) (count : Nat) :
    Exact (readEach read count) (fun items => items.length = count ∧ ∀ a ∈ items, P a) fun items =>
      items.flatMap write := by
  induction count with
  | zero =>
    intro xs items rest
    unfold readEach
    rw [cursor_pure_iff]
    constructor
    · rintro ⟨rfl, rfl⟩
      exact ⟨⟨rfl, nofun⟩, rfl⟩
    · rintro ⟨⟨hlen, -⟩, rfl⟩
      obtain rfl := length_eq_zero_iff.mp hlen
      exact ⟨rfl, rfl⟩
  | succ count ih =>
    intro xs items rest
    unfold readEach
    rw [h.bind_iff]
    constructor
    · rintro ⟨a, mid, ⟨ha, rfl⟩, hnext⟩
      obtain ⟨others, tail, ⟨⟨hlen, hall⟩, rfl⟩, hpure⟩ := ih.bind_iff.mp hnext
      obtain ⟨rfl, rfl⟩ := cursor_pure_iff.mp hpure
      exact ⟨⟨congrArg (· + 1) hlen, forall_mem_cons.mpr ⟨ha, hall⟩⟩, (append_assoc _ _ _).symm⟩
    · rintro ⟨⟨hlen, hall⟩, rfl⟩
      obtain ⟨a, others, rfl⟩ := exists_cons_of_length_eq_add_one hlen
      obtain ⟨ha, hothers⟩ := forall_mem_cons.mp hall
      refine ⟨a, others.flatMap write ++ rest, ⟨ha, append_assoc _ _ _⟩, ?_⟩
      exact ih.bind_iff.mpr ⟨others, rest, ⟨⟨Nat.succ.inj hlen, hothers⟩, rfl⟩, rfl⟩

/-- Appends to a buffer of bounded capacity. -/
abbrev Writer (ε α : Type) := StateT Bytes (Except ε) α

/-- One write; `full` when the octets do not fit. -/
def put (full : ε) (capacity : Nat) (bytes : Bytes) : Writer ε Unit := fun written =>
  if written.length + bytes.length ≤ capacity then .ok ((), written ++ bytes) else .error full

def putEach (write : α → Writer ε Unit) : List α → Writer ε Unit
  | [] => pure ()
  | x :: xs => do
    write x
    putEach write xs

/-- The writer appends `bytes`, or fails as one write of them does. -/
def Emits (full : ε) (capacity : Nat) (w : Writer ε Unit) (bytes : Bytes) : Prop :=
  ∀ written, written.length ≤ capacity → w written = put full capacity bytes written

variable {full : ε} {capacity : Nat} {v w : Writer ε Unit} {xs ys : Bytes}

theorem emits_put (full : ε) (capacity : Nat) (bytes : Bytes) :
    Emits full capacity (put full capacity bytes) bytes := fun _ _ => rfl

theorem emits_pure : Emits full capacity (pure ()) [] := by
  intro written h
  unfold put
  rw [length_nil, Nat.add_zero, if_pos h, append_nil]
  rfl

theorem Emits.bind (hv : Emits full capacity v xs) (hw : Emits full capacity w ys) :
    Emits full capacity (v >>= fun _ => w) (xs ++ ys) := by
  intro written h
  change (v written >>= fun p => w p.2) = put full capacity (xs ++ ys) written
  rw [hv written h]
  unfold put
  rw [length_append]
  by_cases hx : written.length + xs.length ≤ capacity
  · rw [if_pos hx]
    have hroom : (written ++ xs).length ≤ capacity := by rwa [length_append]
    have hnext := hw (written ++ xs) hroom
    unfold put at hnext
    rw [length_append, Nat.add_assoc, append_assoc] at hnext
    exact hnext
  · rw [if_neg hx, if_neg (by omega)]
    rfl

theorem Emits.each {write : α → Writer ε Unit} {field : α → Bytes} :
    ∀ {items : List α}, (∀ a ∈ items, Emits full capacity (write a) (field a)) →
      Emits full capacity (putEach write items) (items.flatMap field)
  | [], _ => emits_pure
  | a :: items, h => by
    rw [flatMap_cons]
    exact (h a mem_cons_self).bind (Emits.each fun b hb => h b (mem_cons_of_mem _ hb))

theorem Emits.run (h : Emits full capacity w xs) :
    w [] = if xs.length ≤ capacity then .ok ((), xs) else .error full := by
  rw [h [] (Nat.zero_le _), put, length_nil, Nat.zero_add, nil_append]

variable {written : Bytes}

theorem writer_bind_ok {w : Writer ε α} {next : α → Writer ε β} {b : β × Bytes}
    (h : (w >>= next) written = .ok b) : ∃ p, w written = .ok p ∧ next p.1 p.2 = .ok b := by
  change (w written >>= fun p => next p.1 p.2) = .ok b at h
  cases hw : w written with
  | error e =>
    rw [hw] at h
    cases h
  | ok p =>
    rw [hw] at h
    exact ⟨p, rfl, h⟩

theorem lift_bind_ok {x : Except ε α} {next : α → Writer ε β} {b : β × Bytes}
    (h : ((liftM x : Writer ε α) >>= next) written = .ok b) : ∃ a, x = .ok a ∧
    next a written = .ok b := by
  cases x with
  | error e => cases h
  | ok a => exact ⟨a, rfl, h⟩

theorem put_ok {p : Unit × Bytes} (h : put full capacity xs written = .ok p) :
    p.2 = written ++ xs := by
  unfold put at h
  split at h
  · rw [← Except.ok.inj h]
  · cases h

end OnyxServer.Lib
