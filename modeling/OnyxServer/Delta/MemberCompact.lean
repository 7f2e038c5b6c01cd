import OnyxServer.Delta.Codec

/-!
# The compact form of a member

The causal context is sent as its frontier, one highest counter a replica, with the live
adds. Both are sorted when they are written, and nothing else is read.
-/
namespace OnyxServer.Delta

open Lib

/-- The dots of a replica up to a counter. -/
structure VersionEntry where
  replica : UInt64
  counter : UInt64
  deriving DecidableEq

def VersionEntry.rank (entry : VersionEntry) : UInt64 ×ₗ UInt64 :=
  toLex (entry.replica, entry.counter)

namespace MemberCompact

def magic : Bytes := [0x47, 0x4d, 0x42, 0x43]
def maxContext : Nat := 65
def maxAdds : Nat := 128
def addValueLen : Nat := 25

/-- Upper bound on a single encoded compact member payload. -/
def maxBytes : Nat := 4 + 1 + 8 + 8 + 10 + maxContext * 16 + 10 + maxAdds * addValueLen

abbrev AddValue := FixedBytes 25

structure View where
  memberId : UInt64
  hlcKey : UInt64
  context : List VersionEntry
  adds : List AddValue
  deriving DecidableEq

def readAddU64 (add : AddValue) (offset : Nat) : UInt64 :=
  UInt64.ofNat (leNat ((add.val.drop offset).take 8))

def contextCounter (context : List VersionEntry) (replica : UInt64) : UInt64 :=
  match context.find? fun entry => entry.replica == replica with
  | some entry => entry.counter
  | none => 0

/-- A frontier has one counter a replica, in the order of the replicas. -/
def entryAllowed (prev : Option UInt64) (entry : VersionEntry) : Except CodecError Unit := do
  ensure (entry.counter ≠ 0) .invalidMember
  @ensure (∀ p ∈ prev, p < entry.replica) (Option.decidableForallMem prev) .invalidMember

def validateContext : Option UInt64 → List VersionEntry → Except CodecError Unit
  | _, [] => .ok ()
  | prev, entry :: rest => do
    entryAllowed prev entry
    validateContext (some entry.replica) rest

def validateAdds (context : List VersionEntry) :
    Option AddValue → List AddValue → Except CodecError Unit
  | _, [] => .ok ()
  | prev, add :: rest => do
    ensure (readAddU64 add 8 ≠ 0 ∧
      readAddU64 add 8 ≤ contextCounter context (readAddU64 add 0)) .invalidMember
    ensure (∀ p ∈ prev, p.val < add.val) .invalidMember
    ensure (∀ p ∈ prev, p.val.take 16 ≠ add.val.take 16) .invalidMember
    validateAdds context (some add) rest

def writeEntry (capacity : Nat) (entry : VersionEntry) : Out := do
  emit capacity (leBytes 8 entry.replica.toNat)
  emit capacity (leBytes 8 entry.counter.toNat)

def write (capacity : Nat) (view : View) : Out := do
  emit capacity magic
  emit capacity [version]
  emit capacity (leBytes 8 view.memberId.toNat)
  emit capacity (leBytes 8 view.hlcKey.toNat)
  emit capacity (countField view.context.length)
  putEach (writeEntry capacity) view.context
  emit capacity (countField view.adds.length)
  putEach (fun add => emit capacity add.val) view.adds

/-- Encodes into a buffer of `capacity` octets. -/
def encode (capacity : Nat) (memberId hlcKey : UInt64) (context : List VersionEntry)
    (adds : List AddValue) :
    Except CodecError Bytes := do
  ensure (context.length ≤ maxContext ∧ adds.length ≤ maxAdds) .oversize
  validateContext none (sortByKey VersionEntry.rank context)
  validateAdds (sortByKey VersionEntry.rank context) none (sortByKey Subtype.val adds)
  let (_, written) ← write capacity ⟨memberId, hlcKey, sortByKey VersionEntry.rank context,
    sortByKey Subtype.val adds⟩ []
  pure written

def readFrontier : Nat → Option UInt64 → Reader (List VersionEntry)
  | 0, _ => pure []
  | count + 1, prev => do
    let replica ← readU64Le
    let counter ← readU64Le
    check (entryAllowed prev ⟨replica, counter⟩)
    let rest ← readFrontier count (some replica)
    pure (⟨replica, counter⟩ :: rest)

def readFixed : Reader AddValue := FixedBytes.ofSlice 25 <$> takeBytes .truncated 25

def readMember : Reader View := do
  expectBytes .badMagic magic
  expectBytes .unsupportedVersion [version]
  let memberId ← readU64Le
  let hlcKey ← readU64Le
  let contextLen ← readBoundedCount 65
  let context ← readFrontier contextLen none
  let addsLen ← readBoundedCount 128
  let adds ← readEach readFixed addsLen
  check (validateAdds context none adds)
  pure ⟨memberId, hlcKey, context, adds⟩

def decode (input : Bytes) : Except CodecError View := do
  let (view, rest) ← readMember input
  ensure (rest = []) .trailingBytes
  pure view

def entryField (entry : VersionEntry) : Bytes :=
  leBytes 8 entry.replica.toNat ++ leBytes 8 entry.counter.toNat

def image (view : View) : Bytes :=
  magic ++ ([version] ++ (leBytes 8 view.memberId.toNat ++ (leBytes 8 view.hlcKey.toNat ++
    (countField view.context.length ++ (view.context.flatMap entryField ++
      (countField view.adds.length ++ view.adds.flatMap Subtype.val))))))

structure Canonical (view : View) : Prop where
  contextCount : view.context.length ≤ maxContext
  context : validateContext none view.context = .ok ()
  addsCount : view.adds.length ≤ maxAdds
  adds : validateAdds view.context none view.adds = .ok ()

theorem entryAllowed_ok {prev : Option UInt64} {entry : VersionEntry} :
    entryAllowed prev entry = .ok () ↔ entry.counter ≠ 0 ∧ ∀ p ∈ prev, p < entry.replica := by
  unfold entryAllowed
  rw [unit_bind_ok, ensure_ok, @ensure_ok _ (Option.decidableForallMem prev)]

variable {context : List VersionEntry}

theorem validateContext_ok {prev : Option UInt64} :
    validateContext prev context = .ok () ↔ context.Pairwise (fun a b => a.replica < b.replica) ∧
      (∀ entry ∈ context, entry.counter ≠ 0) ∧
      ∀ entry ∈ context, ∀ p ∈ prev, p < entry.replica := by
  induction context generalizing prev with
  | nil => simp [validateContext]
  | cons entry rest ih =>
    unfold validateContext
    rw [unit_bind_ok, entryAllowed_ok, ih, List.pairwise_cons, List.forall_mem_cons,
      List.forall_mem_cons]
    constructor
    · rintro ⟨⟨hcounter, hprev⟩, hrest, hcounters, habove⟩
      exact ⟨⟨fun e he => habove e he _ rfl, hrest⟩, ⟨hcounter, hcounters⟩, hprev,
        fun e he p hp => (hprev p hp).trans (habove e he _ rfl)⟩
    · rintro ⟨⟨hhead, hrest⟩, ⟨hcounter, hcounters⟩, hprev, -⟩
      refine ⟨⟨hcounter, hprev⟩, hrest, hcounters, fun e he p hp => ?_⟩
      obtain rfl := Option.mem_some_iff.mp hp
      exact hhead e he

theorem validateAdds_ok {prev : Option AddValue} {adds : List AddValue} :
    validateAdds context prev adds = .ok () ↔
      (∀ add ∈ adds, readAddU64 add 8 ≠ 0 ∧
        readAddU64 add 8 ≤ contextCounter context (readAddU64 add 0)) ∧
      (prev.toList ++ adds).IsChain fun a b => a.val < b.val ∧ a.val.take 16 ≠ b.val.take 16 := by
  induction adds generalizing prev with
  | nil => cases prev <;> simp [validateAdds]
  | cons add rest ih =>
    unfold validateAdds
    rw [unit_bind_ok, unit_bind_ok, unit_bind_ok, ensure_ok, ensure_ok, ensure_ok, ih,
      List.forall_mem_cons]
    cases prev with
    | none => simp [and_assoc]
    | some p =>
      simp only [Option.mem_some_iff, forall_eq', Option.toList_some, List.singleton_append,
        List.isChain_cons_cons]
      tauto

end MemberCompact

end OnyxServer.Delta

/-!
## The compact form is canonical

The reader is inverted field by field, and sorting leaves a canonical view as it is. So
the decoder accepts the images of canonical views, and the encoder writes them back.
-/
namespace OnyxServer.Delta.MemberCompact

open Lib

variable {capacity : Nat} {view : View}

theorem exact_readFrontier (count : Nat) (prev : Option UInt64) :
    Exact (readFrontier count prev)
    (fun entries => entries.length = count ∧ validateContext prev entries = .ok ())
      fun entries => entries.flatMap entryField := by
  induction count generalizing prev with
  | zero =>
    intro xs entries rest
    unfold readFrontier
    rw [cursor_pure_iff]
    constructor
    · rintro ⟨rfl, rfl⟩
      exact ⟨⟨rfl, rfl⟩, rfl⟩
    · rintro ⟨⟨hlen, -⟩, rfl⟩
      obtain rfl := List.length_eq_zero_iff.mp hlen
      exact ⟨rfl, rfl⟩
  | succ count ih =>
    intro xs entries rest
    unfold readFrontier
    rw [exact_readU64Le.bind_iff]
    constructor
    · rintro ⟨replica, m₁, ⟨-, rfl⟩, h₁⟩
      obtain ⟨counter, m₂, ⟨-, rfl⟩, h₂⟩ := exact_readU64Le.bind_iff.mp h₁
      obtain ⟨hallowed, h₃⟩ := check_bind_iff.mp h₂
      obtain ⟨others, m₃, ⟨⟨hlen, hvalid⟩, rfl⟩, h₄⟩ := (ih _).bind_iff.mp h₃
      obtain ⟨rfl, rfl⟩ := cursor_pure_iff.mp h₄
      refine ⟨⟨congrArg (· + 1) hlen, unit_bind_ok.mpr ⟨hallowed, hvalid⟩⟩, ?_⟩
      simp [entryField]
    · rintro ⟨⟨hlen, hvalid⟩, rfl⟩
      obtain ⟨entry, others, rfl⟩ := List.exists_cons_of_length_eq_add_one hlen
      obtain ⟨hallowed, hothers⟩ := unit_bind_ok.mp hvalid
      refine ⟨entry.replica, leBytes 8 entry.counter.toNat ++ (others.flatMap entryField ++ rest),
        ⟨trivial, ?_⟩, ?_⟩
      · simp [entryField]
      · refine exact_readU64Le.bind_iff.mpr
          ⟨entry.counter, _, ⟨trivial, rfl⟩, check_bind_iff.mpr ⟨hallowed, ?_⟩⟩
        exact (ih _).bind_iff.mpr ⟨others, rest, ⟨⟨Nat.succ.inj hlen, hothers⟩, rfl⟩, rfl⟩

theorem exact_readFixed : Exact readFixed (fun add => add.val.length = 25) fun add => add.val :=
  (exact_takeBytes CodecError.truncated 25).map FixedBytes.ofSlice_val fun field hfield => by
    show field.take 25 ++ List.replicate (25 - field.length) 0 = field
    rw [hfield, List.take_of_length_le hfield.le]
    simp

theorem readMember_iff {xs rest : Bytes} :
    readMember xs = .ok (view, rest) ↔ Canonical view ∧ xs = image view ++ rest := by
  unfold readMember
  rw [(exact_expectBytes _ _).bind_iff]
  constructor
  · rintro ⟨-, m₁, ⟨-, rfl⟩, h₁⟩
    obtain ⟨-, m₂, ⟨-, rfl⟩, h₂⟩ := (exact_expectBytes _ _).bind_iff.mp h₁
    obtain ⟨memberId, m₃, ⟨-, rfl⟩, h₃⟩ := exact_readU64Le.bind_iff.mp h₂
    obtain ⟨hlcKey, m₄, ⟨-, rfl⟩, h₄⟩ := exact_readU64Le.bind_iff.mp h₃
    obtain ⟨contextLen, m₅, ⟨hcontextLen, rfl⟩, h₅⟩ := (exact_readBoundedCount _).bind_iff.mp h₄
    obtain ⟨context, m₆, ⟨⟨rfl, hcontext⟩, rfl⟩, h₆⟩ := (exact_readFrontier _ _).bind_iff.mp h₅
    obtain ⟨addsLen, m₇, ⟨haddsLen, rfl⟩, h₇⟩ := (exact_readBoundedCount _).bind_iff.mp h₆
    obtain ⟨adds, m₈, ⟨⟨rfl, -⟩, rfl⟩, h₈⟩ := (exact_readFixed.each _).bind_iff.mp h₇
    obtain ⟨hadds, h₉⟩ := check_bind_iff.mp h₈
    obtain ⟨rfl, rfl⟩ := cursor_pure_iff.mp h₉
    exact ⟨⟨hcontextLen, hcontext, haddsLen, hadds⟩, by simp [image]⟩
  · rintro ⟨h, rfl⟩
    simp only [image, List.append_assoc]
    refine ⟨(), _, ⟨trivial, rfl⟩, (exact_expectBytes _ _).bind_iff.mpr ⟨(), _, ⟨trivial, rfl⟩, ?_⟩⟩
    refine exact_readU64Le.bind_iff.mpr ⟨view.memberId, _, ⟨trivial, rfl⟩, ?_⟩
    refine exact_readU64Le.bind_iff.mpr ⟨view.hlcKey, _, ⟨trivial, rfl⟩, ?_⟩
    refine (exact_readBoundedCount _).bind_iff.mpr
      ⟨view.context.length, _, ⟨h.contextCount, rfl⟩, ?_⟩
    refine (exact_readFrontier _ _).bind_iff.mpr ⟨view.context, _, ⟨⟨rfl, h.context⟩, rfl⟩, ?_⟩
    refine (exact_readBoundedCount _).bind_iff.mpr ⟨view.adds.length, _, ⟨h.addsCount, rfl⟩, ?_⟩
    refine (exact_readFixed.each _).bind_iff.mpr
      ⟨view.adds, rest, ⟨⟨rfl, fun add _ => add.property⟩, rfl⟩, ?_⟩
    exact check_bind_iff.mpr ⟨h.adds, rfl⟩

/-- The decoder accepts the images of canonical views and nothing else. -/
theorem decode_iff {input : Bytes} :
    decode input = .ok view ↔ Canonical view ∧ input = image view := by
  constructor
  · intro h
    obtain ⟨⟨read, rest⟩, hread, h₁⟩ := bind_ok h
    obtain ⟨hrest, h₂⟩ := unit_bind_ok.mp h₁
    obtain rfl := Except.ok.inj h₂
    obtain rfl := ensure_ok.mp hrest
    rw [readMember_iff, List.append_nil] at hread
    exact hread
  · rintro ⟨h, rfl⟩
    have hread : readMember (image view) = .ok (view, []) :=
      readMember_iff.mpr ⟨h, (List.append_nil _).symm⟩
    unfold decode
    rw [hread]
    rfl

/-- Canonical views are told apart by their images. -/
theorem Canonical.image_inj (h : Canonical view) {other : View} (hother : Canonical other)
    (heq : image view = image other) :
    view = other := by
  have hview : decode (image view) = .ok view := decode_iff.mpr ⟨h, rfl⟩
  have hsame : decode (image view) = .ok other := decode_iff.mpr ⟨hother, heq⟩
  exact Except.ok.inj (hview.symm.trans hsame)

theorem emits_write (view : View) :
    Emits .bufferTooSmall capacity (write capacity view) (image view) := by
  have hcontext : Emits .bufferTooSmall capacity (putEach (writeEntry capacity) view.context)
      (view.context.flatMap entryField) :=
        Emits.each fun entry _ => (emits_emit _).bind (emits_emit _)
  have hadds :
      Emits .bufferTooSmall capacity
      (putEach (fun add : AddValue => emit capacity add.val) view.adds)
      (view.adds.flatMap Subtype.val) := Emits.each fun add _ => emits_emit _
  unfold write
  refine (emits_emit _).bind ((emits_emit _).bind ((emits_emit _).bind ((emits_emit _).bind ?_)))
  exact (emits_emit _).bind (hcontext.bind ((emits_emit _).bind hadds))

/-- The view that the encoder writes. -/
def sortedView (memberId hlcKey : UInt64) (context : List VersionEntry) (adds : List AddValue) :
    View :=
  ⟨memberId, hlcKey, sortByKey VersionEntry.rank context, sortByKey Subtype.val adds⟩

theorem encode_of_canonical {memberId hlcKey : UInt64} {context : List VersionEntry}
    {adds : List AddValue} (h : Canonical (sortedView memberId hlcKey context adds)) :
    encode capacity memberId hlcKey context adds =
      if (image (sortedView memberId hlcKey context adds)).length ≤ capacity
      then .ok (image (sortedView memberId hlcKey context adds)) else .error .bufferTooSmall := by
  have hcount : ensure (context.length ≤ maxContext ∧ adds.length ≤ maxAdds) .oversize =
      .ok () := by
    have hcontext : (sortByKey VersionEntry.rank context).length ≤ maxContext := h.contextCount
    have hadds : (sortByKey Subtype.val adds).length ≤ maxAdds := h.addsCount
    rw [(sortByKey_perm _ _).length_eq] at hcontext hadds
    exact ensure_ok.mpr ⟨hcontext, hadds⟩
  have hvalidContext : validateContext none (sortByKey VersionEntry.rank context) =
      .ok () := h.context
  have hvalidAdds :
      validateAdds (sortByKey VersionEntry.rank context) none (sortByKey Subtype.val adds) =
        .ok () := h.adds
  unfold encode
  rw [hcount, hvalidContext, hvalidAdds]
  change (write capacity (sortedView memberId hlcKey context adds) [] >>= fun p => pure p.2) = _
  rw [(emits_write _).run]
  split <;> rfl

theorem chain_pairwise {adds : List AddValue} {P : AddValue → AddValue → Prop}
    (h : adds.IsChain fun a b => a.val < b.val ∧ P a b) :
    adds.Pairwise fun a b => a.val < b.val := by
  have : IsTrans AddValue fun a b => a.val < b.val := ⟨fun _ _ _ => lt_trans⟩
  exact List.isChain_iff_pairwise.mp (h.imp fun _ _ hab => hab.1)

theorem Canonical.sortedView_self (h : Canonical view) :
    sortedView view.memberId view.hlcKey view.context view.adds = view := by
  obtain ⟨hcontext, -, -⟩ := validateContext_ok.mp h.context
  have hchain := (validateAdds_ok.mp h.adds).2
  have hcontextOrder : view.context.Pairwise fun a b => a.rank ≤ b.rank :=
    hcontext.imp fun hlt => (Prod.Lex.lt_iff.mpr (.inl hlt)).le
  have haddsOrder : view.adds.Pairwise fun a b => a.val ≤ b.val :=
    (chain_pairwise hchain).imp le_of_lt
  unfold sortedView sortByKey
  rw [hcontextOrder.insertionSort_eq, haddsOrder.insertionSort_eq]

/-- What the decoder accepts is what its view encodes to. -/
theorem encode_of_decode {input : Bytes} (h : decode input = .ok view)
    (hroom : input.length ≤ capacity) :
    encode capacity view.memberId view.hlcKey view.context view.adds = .ok input := by
  obtain ⟨hcanonical, rfl⟩ := decode_iff.mp h
  have hsorted := hcanonical.sortedView_self
  rw [encode_of_canonical (hsorted.symm ▸ hcanonical), hsorted, if_pos hroom]

end OnyxServer.Delta.MemberCompact
