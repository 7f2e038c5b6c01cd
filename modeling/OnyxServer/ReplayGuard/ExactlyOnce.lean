import OnyxServer.Lib.Trace
import OnyxServer.ReplayGuard.Checkpoint

/-!
# Exactly-once admission over whole runs

An accepted event is settled: it is retained, or the watermark has passed it. No
step unsettles an event, and a settled event is never accepted again. Runs mix
admissions, allocation failures and restores of the guard from its own checkpoint.
-/
namespace OnyxServer.ReplayGuard

open Lib List AList Option

inductive Op where
  | offer (pubkey : PublicKey) (hlc : UInt64) (relayId : RelayId) (alloc : Allocator)
  | reseal (encodeAlloc decodeAlloc : Allocator)

abbrev Answer := Option (Except AllocError Decision)

def Op.run (blake3 : Blake3) (guard : Guard) : Op → Answer × Guard
  | .offer pubkey hlc relayId alloc =>
    let admitted := Guard.admit guard pubkey hlc relayId alloc
    (some admitted.1, admitted.2)
  | .reseal encodeAlloc decodeAlloc => (none, guard.reseal blake3 encodeAlloc decodeAlloc)

def Guard.Retains (guard : Guard) (pubkey : PublicKey) (entry : Entry) : Prop :=
  ∃ origin, guard.origins.lookup pubkey = some origin ∧ entry ∈ origin.entries

def Guard.Retired (guard : Guard) (pubkey : PublicKey) (hlc : UInt64) : Prop :=
  ∃ origin, guard.origins.lookup pubkey = some origin ∧ ¬ Above origin.retiredThroughHlc hlc

/-- The event can never be accepted again. -/
def Guard.Settled (guard : Guard) (pubkey : PublicKey) (entry : Entry) : Prop :=
  guard.Retains pubkey entry ∨ guard.Retired pubkey entry.hlc

def OriginState.Settled (origin : OriginState) (entry : Entry) : Prop :=
  entry ∈ origin.entries ∨ ¬ Above origin.retiredThroughHlc entry.hlc

variable {entry : Entry}

theorem Guard.settled_iff {guard : Guard} {pubkey : PublicKey} :
    guard.Settled pubkey entry ↔
      ∃ origin, guard.origins.lookup pubkey = some origin ∧ origin.Settled entry := by
  constructor
  · rintro (⟨origin, hlookup, hmem⟩ | ⟨origin, hlookup, hret⟩)
    · exact ⟨origin, hlookup, Or.inl hmem⟩
    · exact ⟨origin, hlookup, Or.inr hret⟩
  · rintro ⟨origin, hlookup, hmem | hret⟩
    · exact Or.inl ⟨origin, hlookup, hmem⟩
    · exact Or.inr ⟨origin, hlookup, hret⟩

theorem not_above_trans {watermark : Option UInt64} {a b : UInt64} (ha : Above watermark a)
    (hb : ¬ Above watermark b) : b ≤ a := by
  by_contra hlt
  exact hb fun w hw => (ha w hw).trans (not_le.mp hlt)

theorem not_above_of_le {w hlc : UInt64} (h : hlc ≤ w) : ¬ Above (some w) hlc :=
  fun habove => absurd (habove w rfl) (not_lt.mpr h)

section Known

variable {windowSize : Nat} {origin next : OriginState} {hlc : UInt64} {relayId : RelayId}
  {answer : Except AllocError Decision}

theorem KnownStep.accepted_mem (hs : KnownStep windowSize origin hlc relayId answer next)
    (h : answer = .ok .accepted) : ⟨hlc, relayId⟩ ∈ next.entries := by
  cases hs with
  | below => cases h
  | retained entry hmem hhlc =>
    split at h <;> cases h
  | noMemory => cases h
  | grow l r => exact mem_append_right l mem_cons_self
  | tooOld => cases h
  | evict oldest l r => exact mem_append_right l mem_cons_self

section

variable (hwf : origin.Wf windowSize) (hs : KnownStep windowSize origin hlc relayId answer next)
include hwf hs

theorem KnownStep.settled {entry : Entry}
    (h : origin.Settled entry) : next.Settled entry := by
  cases hs with
  | below => exact h
  | retained => exact h
  | noMemory => exact h
  | grow l r hsplit =>
    refine h.imp_left fun hmem => ?_
    rw [hsplit] at hmem
    rcases mem_append.mp hmem with hmem | hmem
    · exact mem_append_left _ hmem
    · exact mem_append_right _ (mem_cons_of_mem _ hmem)
  | tooOld hfull habove hall =>
    exact h.imp_right fun hret => not_above_of_le (not_above_trans habove hret)
  | evict oldest l r hsplit hfull habove hold hl hr =>
    have holdest : Above origin.retiredThroughHlc oldest.hlc :=
      hwf.above oldest (by rw [hsplit]; exact mem_cons_self)
    rcases h with hmem | hret
    · rw [hsplit] at hmem
      rcases mem_cons.mp hmem with rfl | hmem
      · exact Or.inr (not_above_of_le (le_refl _))
      refine Or.inl ?_
      rcases mem_append.mp hmem with hmem | hmem
      · exact mem_append_left _ hmem
      · exact mem_append_right _ (mem_cons_of_mem _ hmem)
    · exact Or.inr (not_above_of_le (not_above_trans holdest hret))

theorem KnownStep.answer_of_settled {entry : Entry}
    (hhlc : entry.hlc = hlc) (h : origin.Settled entry) :
    (entry ∈ origin.entries ∧
      answer = .ok (if entry.relayId = relayId then .duplicate else .equivocation)) ∨
    (¬ Above origin.retiredThroughHlc hlc ∧ answer = .ok .retired) := by
  subst hhlc
  -- A retained event is above the watermark, so the two alternatives exclude each other.
  rcases h with hmem | hret
  · refine Or.inl ⟨hmem, ?_⟩
    have hlive := hwf.above entry hmem
    cases hs with
    | below hnot => exact absurd hlive hnot
    | retained other hother hkey =>
      rw [hwf.ascending.eq_of_key hother hmem hkey]
    | noMemory _ _ hnew => exact absurd rfl (hnew entry hmem)
    | grow l r hsplit _ _ hl hr =>
      rw [hsplit] at hmem
      rcases mem_append.mp hmem with hmem | hmem
      · exact absurd (hl entry hmem) (lt_irrefl _)
      · exact absurd (hr entry hmem) (lt_irrefl _)
    | tooOld _ _ hall => exact absurd (hall entry hmem) (lt_irrefl _)
    | evict oldest l r hsplit _ _ hold hl hr =>
      rw [hsplit] at hmem
      rcases mem_cons.mp hmem with rfl | hmem
      · exact absurd hold (lt_irrefl _)
      · rcases mem_append.mp hmem with hmem | hmem
        · exact absurd (hl entry hmem) (lt_irrefl _)
        · exact absurd (hr entry hmem) (lt_irrefl _)
  · refine Or.inr ⟨hret, ?_⟩
    cases hs with
    | below => rfl
    | retained other hother hkey => exact absurd (hkey ▸ hwf.above other hother) hret
    | noMemory _ habove => exact absurd habove hret
    | grow l r _ _ habove => exact absurd habove hret
    | tooOld _ habove => exact absurd habove hret
    | evict oldest l r _ _ habove => exact absurd habove hret

end

end Known

section Step

variable {guard next : Guard} {pubkey : PublicKey} {hlc : UInt64} {relayId : RelayId}
  {answer : Except AllocError Decision}

theorem GuardStep.accepted_retains (hs : GuardStep guard pubkey hlc relayId answer next)
    (h : answer = .ok .accepted) : next.Retains pubkey ⟨hlc, relayId⟩ := by
  cases hs with
  | known origin state answer hlookup hk =>
    exact ⟨state, lookup_insert _, hk.accepted_mem h⟩
  | capacity => cases h
  | noMemory => cases h
  | fresh => exact ⟨_, lookup_insert _, mem_singleton_self _⟩

theorem GuardStep.settled (hwf : guard.Wf) (hs : GuardStep guard pubkey hlc relayId answer next)
    {key : PublicKey} {entry : Entry} (h : guard.Settled key entry) : next.Settled key entry := by
  rw [Guard.settled_iff] at h ⊢
  obtain ⟨origin, hkey, hset⟩ := h
  cases hs with
  | known known state answer hlookup hk =>
    by_cases heq : key = pubkey
    · subst heq
      obtain rfl := some.inj (hkey.symm.trans hlookup)
      exact ⟨state, lookup_insert _, hk.settled (hwf.origins key origin hkey) hset⟩
    · exact ⟨origin, by rw [lookup_insert_ne heq, hkey], hset⟩
  | capacity => exact ⟨origin, hkey, hset⟩
  | noMemory => exact ⟨origin, hkey, hset⟩
  | fresh hlookup hroom =>
    have heq : key ≠ pubkey := by
      rintro rfl
      rw [hlookup] at hkey
      cases hkey
    exact ⟨origin, by rw [lookup_insert_ne heq, hkey], hset⟩

theorem GuardStep.answer_of_settled (hwf : guard.Wf)
    (hs : GuardStep guard pubkey hlc relayId answer next) {id : RelayId}
    (h : guard.Settled pubkey ⟨hlc, id⟩) :
    (guard.Retains pubkey ⟨hlc, id⟩ ∧
      answer = .ok (if id = relayId then .duplicate else .equivocation)) ∨
    (guard.Retired pubkey hlc ∧ answer = .ok .retired) := by
  obtain ⟨origin, hkey, hset⟩ := Guard.settled_iff.mp h
  cases hs with
  | known known state answer hlookup hk =>
    obtain rfl := some.inj (hkey.symm.trans hlookup)
    rcases hk.answer_of_settled (hwf.origins pubkey origin hkey) rfl hset with
      ⟨hmem, hans⟩ | ⟨hret, hans⟩
    · exact Or.inl ⟨⟨origin, hkey, hmem⟩, hans⟩
    · exact Or.inr ⟨⟨origin, hkey, hret⟩, hans⟩
  | capacity hlookup => rw [hlookup] at hkey; cases hkey
  | noMemory hlookup => rw [hlookup] at hkey; cases hkey
  | fresh hlookup => rw [hlookup] at hkey; cases hkey

end Step

theorem Guard.Same.settled {a b : Guard} (hsame : a.Same b) {key : PublicKey}
    (h : a.Settled key entry) : b.Settled key entry := by
  rw [Guard.settled_iff] at h ⊢
  obtain ⟨origin, hkey, hset⟩ := h
  exact ⟨origin, hsame.lookup key ▸ hkey, hset⟩

variable (blake3 : Blake3)

theorem Op.run_wf (guard : Guard) (op : Op) (hwf : guard.Wf) : (op.run blake3 guard).2.Wf := by
  cases op with
  | offer pubkey hlc relayId alloc => exact (admit_step hwf pubkey hlc relayId alloc).wf hwf
  | reseal encodeAlloc decodeAlloc => exact (reseal_same blake3 hwf _ _).wf hwf

theorem Op.run_settled (guard : Guard) (op : Op) (hwf : guard.Wf) {key : PublicKey}
    (h : guard.Settled key entry) : (op.run blake3 guard).2.Settled key entry := by
  cases op with
  | offer pubkey hlc relayId alloc => exact (admit_step hwf pubkey hlc relayId alloc).settled hwf h
  | reseal encodeAlloc decodeAlloc => exact (reseal_same blake3 hwf _ _).settled h

/-- The visit accepted an event of `pubkey` at `hlc`. -/
def acceptedAt (pubkey : PublicKey) (hlc : UInt64) (visit : Visit Guard Op Answer) : Bool :=
  match visit.input, visit.output with
  | .offer key time _ _, some (.ok .accepted) => key = pubkey && time = hlc
  | _, _ => false

/-- What an accepting visit forces on every later one. -/
def Exact (v w : Visit Guard Op Answer) : Prop :=
  ∀ pubkey hlc id id' alloc alloc', v.input = .offer pubkey hlc id alloc →
    v.output = some (.ok .accepted) → w.input = .offer pubkey hlc id' alloc' →
    (w.before.Retains pubkey ⟨hlc, id⟩ ∧
      w.output = some (.ok (if id = id' then .duplicate else .equivocation))) ∨
    (w.before.Retired pubkey hlc ∧ w.output = some (.ok .retired))

theorem exact_of_init {config : Config} {guard : Guard} (hinit : Guard.init config = some guard)
    (ops : List Op) : (visits (Op.run blake3) guard ops).Pairwise Exact := by
  refine visits_pairwise (P := Guard.Wf)
    (Q := fun v state => ∀ pubkey hlc id alloc, v.input = .offer pubkey hlc id alloc →
      v.output = some (.ok .accepted) → state.Settled pubkey ⟨hlc, id⟩)
    (Op.run_wf blake3) ?_ ?_ ?_ (init_wf hinit) ops
  · rintro state _ hwf pubkey hlc id alloc rfl hout
    have hs := admit_step hwf pubkey hlc id alloc
    exact Or.inl (hs.accepted_retains (some.inj hout))
  · intro v state op hwf hq pubkey hlc id alloc hin hout
    exact op.run_settled blake3 state hwf (hq pubkey hlc id alloc hin hout)
  · rintro v state _ hwf hq pubkey hlc id id' alloc alloc' hin hout rfl
    rcases (admit_step hwf pubkey hlc id' alloc').answer_of_settled hwf
      (hq pubkey hlc id alloc hin hout) with ⟨hkeep, hans⟩ | ⟨hret, hans⟩
    · exact Or.inl ⟨hkeep, congrArg some hans⟩
    · exact Or.inr ⟨hret, congrArg some hans⟩

theorem acceptedAt_offer {pubkey : PublicKey} {hlc : UInt64} {v : Visit Guard Op Answer}
    (h : acceptedAt pubkey hlc v = true) :
    (∃ id alloc, v.input = .offer pubkey hlc id alloc) ∧ v.output = some (.ok .accepted) := by
  unfold acceptedAt at h
  split at h
  · rename_i key time id alloc hin hout
    simp only [Bool.and_eq_true, decide_eq_true_eq] at h
    obtain ⟨rfl, rfl⟩ := h
    exact ⟨⟨id, alloc, hin⟩, hout⟩
  · cases h

theorem accepted_once {visits : List (Visit Guard Op Answer)} (hex : visits.Pairwise Exact)
    (pubkey : PublicKey) (hlc : UInt64) : visits.countP (acceptedAt pubkey hlc) ≤ 1 := by
  have hnone : ∀ v w, acceptedAt pubkey hlc v = true → Exact v w →
      acceptedAt pubkey hlc w = false := by
    intro v w hv hvw
    by_contra hw
    obtain ⟨⟨id, alloc, hin⟩, hout⟩ := acceptedAt_offer hv
    obtain ⟨⟨id', alloc', hin'⟩, hout'⟩ := acceptedAt_offer (Bool.not_eq_false _ ▸ hw)
    rcases hvw pubkey hlc id id' alloc alloc' hin hout hin' with ⟨-, h⟩ | ⟨-, h⟩
    · rw [hout'] at h
      split at h <;> cases h
    · rw [hout'] at h
      cases h
  induction visits with
  | nil => simp
  | cons v rest ih =>
    obtain ⟨hv, hrest⟩ := pairwise_cons.mp hex
    cases hacc : acceptedAt pubkey hlc v with
    | false =>
      rw [countP_cons_of_neg (by simp [hacc])]
      exact ih hrest
    | true =>
      have hzero : rest.countP (acceptedAt pubkey hlc) = 0 := by
        rw [countP_eq_zero]
        intro w hw
        simpa using hnone v w hacc (hv w hw)
      rw [countP_cons_of_pos hacc, hzero]

/-- Exactly-once admission: the representation invariant holds after every run,
no `(pubkey, hlc)` is accepted twice, and a later arrival of an accepted event is a
duplicate, an equivocation or retired. -/
theorem admission_exactly_once {config : Config} {guard : Guard}
    (hinit : Guard.init config = some guard) (ops : List Op) :
    (final (Op.run blake3) guard ops).Wf ∧
      (∀ pubkey hlc, (visits (Op.run blake3) guard ops).countP (acceptedAt pubkey hlc) ≤ 1) ∧
      (visits (Op.run blake3) guard ops).Pairwise Exact :=
  ⟨final_invariant (Op.run_wf blake3) (init_wf hinit) ops,
    accepted_once (exact_of_init blake3 hinit ops), exact_of_init blake3 hinit ops⟩

/-- A window of one event: the second event evicts the first, whose capture is then
retired, also after a restore. -/
theorem admission_exactly_once_evicted :
    let key : PublicKey := FixedBytes.splat 32 1
    let first : RelayId := FixedBytes.splat 16 1
    let second : RelayId := FixedBytes.splat 16 2
    let zero : Blake3 := fun _ => FixedBytes.splat 32 0
    let guard : Guard := { config := ⟨1, 1⟩, origins := ∅ }
    let ops := [Op.offer key 5 first fun _ => true, .offer key 7 second fun _ => true,
      .reseal (fun _ => true) (fun _ => true), .offer key 5 first fun _ => true]
    (visits (Op.run zero) guard ops).map Visit.output =
        [some (.ok .accepted), some (.ok .accepted), none, some (.ok .retired)] ∧
      (visits (Op.run zero) guard ops).countP (acceptedAt key 5) ≤ 1 := by
  refine ⟨by decide +kernel, ?_⟩
  exact (@admission_exactly_once _ ⟨1, 1⟩ _ rfl _).2.1 _ _

end OnyxServer.ReplayGuard
