import Mathlib.Data.List.Pairwise
import OnyxServer.Lib.Search
import OnyxServer.OperGrant.Registry

/-!
# Freshness over runs

While no prune gives up the slot of an account, that slot holds a grant not lower than
any grant stored for the account before. A prune forgets the slot, and its freshness
with it: afterwards a lower grant of the account is taken again.
-/
namespace OnyxServer.OperGrant

open Lib Text List

variable {cap : Nat} {registry next : Registry cap} {f g h : GrantFields}

/-- The account of a grant as the registry compares it. -/
def GrantFields.key (fields : GrantFields) : Bytes := lowerString fields.account

/-- Two slots in use never hold grants of one account. -/
def DistinctSlots (slots : List (Option OwnedFields)) : Prop :=
  slots.Pairwise fun a b => ∀ x y, a = some x → b = some y → x.key ≠ y.key

theorem store_account (hfits : f.account.length ≤ maxFieldLen) :
    (OwnedFields.store f).account = f.account := take_of_length_le hfits

theorem store_key (hfits : f.account.length ≤ maxFieldLen) : (OwnedFields.store f).key = f.key :=
  congrArg lowerString (store_account hfits)

theorem lower_trans {a b c : GrantFields} (hab : Lower a b) (hbc : Lower b c) : Lower a c := by
  simp only [Lower, UInt64.lt_iff_toNat_lt, ← UInt64.toNat_inj] at *
  omega

theorem lower_irrefl (a : GrantFields) : ¬ Lower a a := by
  simp [Lower]

theorem supersedes_iff {stored : OwnedFields} :
    supersedes f stored = true ↔ Lower stored.view f := by
  unfold supersedes Lower OwnedFields.view
  split
  · rename_i hne
    simp [Ne.symm hne]
  · rename_i heq
    have heq := not_not.mp heq
    simp [heq]

/-- Every outcome of an upsert. -/
inductive UpsertStep (registry : Registry cap) (f : GrantFields) :
    UpsertResult → Registry cap → Prop
  | stale (stored : OwnedFields) (hmem : some stored ∈ registry.slots) (hkey : stored.key = f.key)
      (hnot : ¬ Lower stored.view f) : UpsertStep registry f .staleIgnored registry
  | full (hnew : ∀ stored, some stored ∈ registry.slots → stored.key ≠ f.key) :
    UpsertStep registry f .staleIgnored registry
  | superseded (l r : List (Option OwnedFields)) (stored : OwnedFields) (next : Registry cap)
      (hsplit : registry.slots = l ++ some stored :: r) (hkey : stored.key = f.key)
      (hlower : Lower stored.view f) (hnext : next.slots = l ++ some (OwnedFields.store f) :: r) :
    UpsertStep registry f .superseded next
  | inserted (l r : List (Option OwnedFields)) (next : Registry cap)
      (hnew : ∀ stored, some stored ∈ registry.slots → stored.key ≠ f.key)
      (hsplit : registry.slots = l ++ none :: r)
      (hnext : next.slots = l ++ some (OwnedFields.store f) :: r) :
    UpsertStep registry f .inserted next

@[simp] theorem setSlot_slots (idx : Nat) :
    (registry.setSlot idx f).slots = registry.slots.set idx (some (OwnedFields.store f)) := rfl

theorem findIndex_split {account : Bytes} {idx : Nat}
    (hfind : registry.findIndex account = some idx) :
    ∃ l r stored, registry.slots = l ++ some stored :: r ∧ l.length = idx ∧
      lowerString stored.account = lowerString account ∧ registry.slot idx = some stored := by
  obtain ⟨l, slot, r, hsplit, rfl, hp, -⟩ := findIdx?_split hfind
  cases slot with
  | none => cases hp
  | some stored =>
    refine ⟨l, r, stored, hsplit, rfl, eqlIgnoreCase_iff.mp hp, ?_⟩
    rw [Registry.slot, hsplit, getElem?_middle]
    rfl

theorem findIndex_none {account : Bytes} (hfind : registry.findIndex account = none)
    {stored : OwnedFields} (hmem : some stored ∈ registry.slots) :
    lowerString stored.account ≠ lowerString account := by
  have hp : eqlIgnoreCase stored.account account = false :=
    List.findIdx?_eq_none_iff.mp hfind _ hmem
  simpa [eqlIgnoreCase] using hp

theorem upsert_step (registry : Registry cap) (f : GrantFields) :
    UpsertStep registry f (registry.upsert f).1 (registry.upsert f).2 := by
  unfold Registry.upsert
  cases hfind : registry.findIndex f.account with
  | some idx =>
    obtain ⟨l, r, stored, hsplit, rfl, hkey, hslot⟩ := findIndex_split hfind
    simp only [hslot]
    by_cases hs : supersedes f stored = true
    · simp only [hs, Bool.not_true, Bool.false_eq_true, ↓reduceIte]
      refine .superseded l r stored _ hsplit hkey (supersedes_iff.mp hs) ?_
      rw [setSlot_slots, hsplit, set_split]
    · simp only [hs, Bool.not_false, ↓reduceIte]
      exact .stale stored (by rw [hsplit]; simp) hkey (mt supersedes_iff.mpr hs)
  | none =>
    have hnew : ∀ stored, some stored ∈ registry.slots → stored.key ≠ f.key :=
      fun stored hmem => findIndex_none hfind hmem
    cases hfree : registry.firstFree with
    | none => exact .full hnew
    | some free =>
      obtain ⟨l, slot, r, hsplit, rfl, hp, -⟩ := findIdx?_split hfree
      obtain rfl := Option.isNone_iff_eq_none.mp hp
      refine .inserted l r _ hnew hsplit ?_
      rw [setSlot_slots, hsplit, set_split]

variable {owned : OwnedFields} {nowMs : UInt64}

theorem mem_prune :
    some owned ∈ (registry.prune nowMs).2.slots ↔
      some owned ∈ registry.slots ∧ ¬ owned.expiryMs ≤ nowMs := by
  simp only [Registry.prune, mem_map, Option.filter_eq_some_iff, Registry.expired]
  constructor
  · rintro ⟨slot, hmem, rfl, hlive⟩
    exact ⟨hmem, by simpa using hlive⟩
  · rintro ⟨hmem, hlive⟩
    exact ⟨_, hmem, rfl, by simpa using hlive⟩

/-- The slots of a registry that was offered the grants `seen`. -/
structure Wf (seen : List GrantFields) (registry : Registry cap) : Prop where
  distinct : DistinctSlots registry.slots
  stored : ∀ owned, some owned ∈ registry.slots → ∃ f ∈ seen, owned = OwnedFields.store f

theorem DistinctSlots.unique {slots : List (Option OwnedFields)} (hd : DistinctSlots slots)
    {x y : OwnedFields} (hx : some x ∈ slots) (hy : some y ∈ slots) (hkey : x.key = y.key) :
    x = y := by
  by_contra hne
  have hsymm : Std.Symm fun a b : Option OwnedFields =>
      ∀ x y, a = some x → b = some y → x.key ≠ y.key :=
    ⟨fun a b hab x y hx hy => (hab y x hy hx).symm⟩
  exact List.Pairwise.forall hd hx hy (by simpa using hne) x y rfl rfl hkey

variable {l r : List (Option OwnedFields)}

theorem DistinctSlots.replace {a : Option OwnedFields}
    (hd : DistinctSlots (l ++ a :: r))
    (hnew : ∀ x, some x ∈ l ++ r → x.key ≠ owned.key) : DistinctSlots (l ++ some owned :: r) := by
  simp only [DistinctSlots, pairwise_append, pairwise_cons, mem_append,
    mem_cons, forall_eq_or_imp] at *
  obtain ⟨hl, ⟨-, hr⟩, hlr⟩ := hd
  refine ⟨hl, ⟨fun b hb x y hx hy => ?_, hr⟩, fun b hb => ⟨fun x y hx hy => ?_, (hlr b hb).2⟩⟩
  · cases hx
    exact (hnew y (.inr (hy ▸ hb))).symm
  · cases hy
    exact hnew x (.inl (hx ▸ hb))

theorem DistinctSlots.others {stored x : OwnedFields}
    (hd : DistinctSlots (l ++ some stored :: r)) (hx : some x ∈ l ++ r) : x.key ≠ stored.key := by
  simp only [DistinctSlots, pairwise_append, pairwise_cons, mem_append,
    mem_cons, forall_eq_or_imp] at hd hx
  obtain ⟨-, ⟨hr, -⟩, hlr⟩ := hd
  rcases hx with hx | hx
  · exact (hlr _ hx).1 x stored rfl rfl
  · exact (hr _ hx stored x rfl rfl).symm

variable {seen : List GrantFields}

theorem Wf.upsert (hwf : Wf seen registry)
    (hfits : f.account.length ≤ maxFieldLen) : Wf (seen ++ [f]) (registry.upsert f).2 := by
  have hkey := store_key hfits
  have hseen : ∀ owned, some owned ∈ registry.slots →
      ∃ g ∈ seen ++ [f], owned = OwnedFields.store g := by
    intro owned hmem
    obtain ⟨g, hg, heq⟩ := hwf.stored owned hmem
    exact ⟨g, mem_append_left _ hg, heq⟩
  have hput : ∀ {l r a}, registry.slots = l ++ a :: r →
      ∀ owned, some owned ∈ l ++ some (OwnedFields.store f) :: r →
        ∃ g ∈ seen ++ [f], owned = OwnedFields.store g := by
    intro l r a hsplit owned hmem
    rcases mem_append.mp hmem with hl | hr
    · exact hseen owned (by rw [hsplit]; exact mem_append_left _ hl)
    · rcases mem_cons.mp hr with heq | hr
      · exact ⟨f, by simp, Option.some.inj heq⟩
      · exact hseen owned (by rw [hsplit]; exact mem_append_right _ (mem_cons_of_mem _ hr))
  have hstep := upsert_step registry f
  revert hstep
  generalize registry.upsert f = out
  intro hstep
  obtain ⟨result, next⟩ := out
  cases hstep with
  | stale => exact ⟨hwf.distinct, hseen⟩
  | full => exact ⟨hwf.distinct, hseen⟩
  | superseded l r stored next hsplit hstored hlower hnext =>
    have hd := hwf.distinct
    rw [hsplit] at hd
    refine ⟨?_, hnext ▸ hput hsplit⟩
    rw [hnext]
    exact hd.replace fun x hx => by rw [hkey, ← hstored]; exact hd.others hx
  | inserted l r next hnew hsplit hnext =>
    have hd := hwf.distinct
    rw [hsplit] at hd
    refine ⟨?_, hnext ▸ hput hsplit⟩
    rw [hnext]
    refine hd.replace fun x hx => ?_
    rw [hkey]
    refine hnew x ?_
    rw [hsplit]
    rcases mem_append.mp hx with hx | hx
    · exact mem_append_left _ hx
    · exact mem_append_right _ (mem_cons_of_mem _ hx)

theorem Wf.prune (hwf : Wf seen registry) (nowMs : UInt64) :
    Wf seen (registry.prune nowMs).2 := by
  refine ⟨?_, fun owned hmem => hwf.stored owned (mem_prune.mp hmem).1⟩
  refine List.Pairwise.map _ (fun a b hab x y hx hy => ?_) hwf.distinct
  exact hab x y (Option.filter_eq_some_iff.mp hx).1 (Option.filter_eq_some_iff.mp hy).1

theorem offered_append (es fs : List Op) : offered (es ++ fs) = offered es ++ offered fs := by
  induction es with
  | nil => rfl
  | cons e es ih => cases e <;> simp [offered, ih]

theorem final_wf (hwf : Wf seen registry) (ops : List Op)
    (hfits : ∀ f ∈ offered ops, f.account.length ≤ maxFieldLen) :
    Wf (seen ++ offered ops) (final step registry ops) := by
  induction ops generalizing seen registry with
  | nil => simpa [offered, final] using hwf
  | cons op ops ih =>
    cases op with
    | upsert f =>
      simp only [offered, forall_mem_cons] at hfits
      have hrest := ih (hwf.upsert hfits.1) hfits.2
      rwa [append_assoc] at hrest
    | prune nowMs => exact ih (hwf.prune nowMs) hfits

theorem init_wf (cap : Nat) : Wf [] (Registry.init cap) := by
  have hnone : ∀ owned, some owned ∉ (Registry.init cap).slots := by
    intro owned hmem
    cases (eq_of_mem_replicate hmem)
  refine ⟨pairwise_of_forall_mem_list fun a ha b hb x y hx hy => ?_,
    fun owned hmem => absurd hmem (hnone owned)⟩
  exact absurd (hx ▸ ha) (hnone x)

/-! ## The freshness an account holds -/

/-- The slot of the account of `g` holds `g` or a grant that superseded it. -/
def Held (g : GrantFields) (registry : Registry cap) : Prop :=
  ∃ owned, some owned ∈ registry.slots ∧ owned.key = g.key ∧
    (owned = OwnedFields.store g ∨ Lower g owned.view)

theorem not_lower_of_held
    (hheld : owned = OwnedFields.store g ∨ Lower g owned.view) : ¬ Lower owned.view g := by
  rcases hheld with rfl | hlower
  · exact lower_irrefl g
  · exact fun h => lower_irrefl _ (lower_trans h hlower)

theorem upsert_held (hfits : f.account.length ≤ maxFieldLen)
    (hstored : (registry.upsert f).1 ≠ .staleIgnored) : Held f (registry.upsert f).2 := by
  have hstep := upsert_step registry f
  revert hstep hstored
  generalize registry.upsert f = out
  intro hstored hstep
  have hput : ∀ {l r : List (Option OwnedFields)} {next : Registry cap},
      next.slots = l ++ some (OwnedFields.store f) :: r → Held f next := fun hnext =>
    ⟨OwnedFields.store f, by rw [hnext]; simp, store_key hfits, .inl rfl⟩
  obtain ⟨result, next⟩ := out
  cases hstep with
  | stale => exact absurd rfl hstored
  | full => exact absurd rfl hstored
  | superseded l r stored next hsplit hkey hlower hnext => exact hput hnext
  | inserted l r next hnew hsplit hnext => exact hput hnext

/-- A step keeps what an account holds, unless it is a prune at which the grant held
has expired. -/
theorem held_step (hd : DistinctSlots registry.slots) (hheld : Held g registry) (op : Op)
    (hfits : ∀ f ∈ offered [op], f.account.length ≤ maxFieldLen) :
    Held g (step registry op).2 ∨
      ∃ nowMs owned, op = .prune nowMs ∧ some owned ∈ registry.slots ∧ owned.key = g.key ∧
        (owned = OwnedFields.store g ∨ Lower g owned.view) ∧ owned.expiryMs ≤ nowMs := by
  obtain ⟨owned, hmem, hkey, hfresh⟩ := hheld
  cases op with
  | prune nowMs =>
    by_cases hexp : owned.expiryMs ≤ nowMs
    · exact .inr ⟨nowMs, owned, rfl, hmem, hkey, hfresh, hexp⟩
    · exact .inl ⟨owned, mem_prune.mpr ⟨hmem, hexp⟩, hkey, hfresh⟩
  | upsert f =>
    left
    have hstep := upsert_step registry f
    simp only [step]
    revert hstep
    generalize registry.upsert f = out
    intro hstep
    obtain ⟨result, next⟩ := out
    cases hstep with
    | stale => exact ⟨owned, hmem, hkey, hfresh⟩
    | full => exact ⟨owned, hmem, hkey, hfresh⟩
    | superseded l r stored next hsplit hstored hlower hnext =>
      by_cases heq : owned = stored
      · subst heq
        refine ⟨OwnedFields.store f, by rw [hnext]; simp, ?_, .inr ?_⟩
        · rw [store_key (hfits f (by simp [offered])), ← hstored, hkey]
        · rcases hfresh with rfl | hold
          · exact hlower
          · exact lower_trans hold hlower
      · refine ⟨owned, ?_, hkey, hfresh⟩
        rw [hsplit] at hmem
        rw [hnext]
        simp only [mem_append, mem_cons, Option.some.injEq, heq, false_or] at hmem ⊢
        exact hmem.imp_right Or.inr
    | inserted l r next hnew hsplit hnext =>
      refine ⟨owned, ?_, hkey, hfresh⟩
      rw [hsplit] at hmem
      rw [hnext]
      simp only [mem_append, mem_cons, reduceCtorEq, false_or] at hmem ⊢
      exact hmem.imp_right Or.inr

theorem shown_slot (hshown : Shows registry nowMs h) :
    ∃ owned, some owned ∈ registry.slots ∧ owned.view = h ∧ nowMs < owned.expiryMs := by
  have hlive : ∀ owned : OwnedFields, (if owned.expiryMs ≤ nowMs then none else some owned.view) =
      some h → owned.view = h ∧ nowMs < owned.expiryMs := by
    intro owned heq
    split_ifs at heq
    · exact ⟨Option.some.inj heq, UInt64.not_le.mp ‹_›⟩
  rcases hshown with hmem | ⟨account, hlookup⟩
  · obtain ⟨slot, hmem, heq⟩ := mem_filterMap.mp hmem
    cases slot with
    | none => cases heq
    | some owned => exact ⟨owned, hmem, hlive owned heq⟩
  · unfold Registry.lookup at hlookup
    cases hfind : registry.findIndex account with
    | none => simp [hfind] at hlookup
    | some idx =>
      obtain ⟨l, r, owned, hsplit, -, -, hslot⟩ := findIndex_split hfind
      simp only [hfind, hslot] at hlookup
      exact ⟨owned, by rw [hsplit]; simp, hlive owned hlookup⟩

/-- What is shown for the account of `g` is not lower than `g` while the account holds. -/
theorem Held.shown (hd : DistinctSlots registry.slots) (hheld : Held g registry)
    (hshown : Shows registry nowMs h) (hsame : h.key = g.key) : ¬ Lower h g := by
  obtain ⟨owned, hmem, hkey, hfresh⟩ := hheld
  obtain ⟨shown, hshownMem, rfl, -⟩ := shown_slot hshown
  obtain rfl := hd.unique hmem hshownMem (hkey.trans hsame.symm)
  exact not_lower_of_held hfresh

/-- The run rule: from a state where the account holds, it holds at the end, unless a
prune gave its slot up. -/
theorem held_run (hwf : Wf seen registry) (hheld : Held g registry)
    (ops : List Op) (hfits : ∀ f ∈ offered ops, f.account.length ≤ maxFieldLen) :
    Held g (final step registry ops) ∨
      ∃ v ∈ visits step registry ops, ∃ nowMs owned, v.input = .prune nowMs ∧
        some owned ∈ v.before.slots ∧ owned.key = g.key ∧
        (owned = OwnedFields.store g ∨ Lower g owned.view) ∧ owned.expiryMs ≤ nowMs ∧
        ∃ f ∈ seen ++ offered ops, owned = OwnedFields.store f := by
  induction ops generalizing seen registry with
  | nil => exact .inl hheld
  | cons op ops ih =>
    have hoffered : offered (op :: ops) = offered [op] ++ offered ops := offered_append [op] ops
    rw [hoffered, forall_mem_append] at hfits
    rcases held_step hwf.distinct hheld op hfits.1 with hnext |
      ⟨nowMs, owned, rfl, hmem, hkey, hfresh, hexp⟩
    · have hstep : Wf (seen ++ offered [op]) (step registry op).2 := final_wf hwf [op] hfits.1
      rcases ih hstep hnext hfits.2 with hend | ⟨v, hv, hrest⟩
      · exact .inl hend
      · rw [append_assoc, ← hoffered] at hrest
        exact .inr ⟨v, mem_cons_of_mem _ hv, hrest⟩
    · obtain ⟨f, hf, heq⟩ := hwf.stored owned hmem
      exact .inr ⟨_, mem_cons_self, nowMs, owned, rfl, hmem, hkey, hfresh, hexp, f,
        mem_append_left _ hf, heq⟩

theorem visit_input {s : Registry cap} {ops : List Op} {v : Visit (Registry cap) Op Answer}
    (hv : v ∈ visits step s ops) : v.input ∈ ops := by
  obtain ⟨l, r, hsplit⟩ := append_of_mem hv
  obtain ⟨fs, gs, rfl, -, -⟩ := visits_split hsplit
  simp

/-- Once a grant is stored, nothing lower is shown for its account while no prune gives
the slot of the account up; and when a lower grant of an account never outlives a higher
one, nothing lower is shown at all at a clock not before those of the prunes. -/
theorem grants_never_roll_back {cap : Nat} (earlier later : List Op) (g h : GrantFields)
    (nowMs : UInt64)
    (hfits : ∀ f ∈ offered (earlier ++ .upsert g :: later), f.account.length ≤ maxFieldLen)
    (hstored : (Registry.upsert (final step (Registry.init cap) earlier) g).1 ≠ .staleIgnored)
    (hshown : Shows (final step (Registry.init cap) (earlier ++ .upsert g :: later)) nowMs h)
    (hsame : lowerString h.account = lowerString g.account) :
    ((∀ v ∈ visits step (final step (Registry.init cap) (earlier ++ [.upsert g])) later,
        ¬ Reclaims v.before g.account v.input) → ¬ Lower h g) ∧
    ((∀ a ∈ offered (earlier ++ .upsert g :: later), ∀ b ∈ offered (earlier ++ .upsert g :: later),
        lowerString a.account = lowerString b.account → Lower a b → a.expiryMs ≤ b.expiryMs) →
      (∀ t, .prune t ∈ later → t ≤ nowMs) → ¬ Lower h g) := by
  have hsplit : earlier ++ Op.upsert g :: later = (earlier ++ [.upsert g]) ++ later := by simp
  have hall : offered (earlier ++ .upsert g :: later) =
      offered (earlier ++ [.upsert g]) ++ offered later := by rw [hsplit, offered_append]
  rw [hsplit, final_append] at hshown
  rw [hall, forall_mem_append] at hfits
  have hgfits : g.account.length ≤ maxFieldLen :=
    hfits.1 g (by rw [offered_append]; simp [offered])
  have hwf : Wf (offered (earlier ++ [.upsert g]))
      (final step (Registry.init cap) (earlier ++ [.upsert g])) := by
    simpa using final_wf (init_wf cap) (earlier ++ [.upsert g]) hfits.1
  have hheld : Held g (final step (Registry.init cap) (earlier ++ [.upsert g])) := by
    rw [final_append]
    exact upsert_held hgfits hstored
  have hend := final_wf hwf later hfits.2
  rcases held_run hwf hheld later hfits.2 with hheldEnd |
    ⟨v, hv, t, owned, hinput, hmem, hkey, hfresh, hexp, f, hf, rfl⟩
  · exact ⟨fun _ => hheldEnd.shown hend.distinct hshown hsame,
      fun _ _ => hheldEnd.shown hend.distinct hshown hsame⟩
  refine ⟨fun hkept => ?_, fun hmono hclock hlower => ?_⟩
  · refine absurd ?_ (hkept v hv)
    rw [hinput]
    exact ⟨_, hmem, hkey, hexp⟩
  · -- The grant shown was offered too, so it had expired by the time of the prune.
    obtain ⟨shown, hshownMem, rfl, hlive⟩ := shown_slot hshown
    obtain ⟨e, he, rfl⟩ := hend.stored shown hshownMem
    have hfall := forall_mem_append.mpr hfits
    have hekey : lowerString e.account = lowerString g.account := by
      rw [← hsame]
      exact (store_key (hfall e he)).symm
    rw [hall] at hmono
    have hg : g ∈ offered (earlier ++ [.upsert g]) ++ offered later :=
      mem_append_left _ (by rw [offered_append]; simp [offered])
    have hle := hmono e he g hg hekey hlower
    have hgf : g.expiryMs ≤ f.expiryMs := by
      rcases hfresh with heq | hhigher
      · exact (congrArg (fun o : OwnedFields => o.expiryMs) heq).ge
      · refine hmono g hg f hf ?_ hhigher
        exact hkey.symm.trans (store_key (hfall f hf))
    have hnow : t ≤ nowMs := hclock t (hinput ▸ visit_input hv)
    exact absurd (hle.trans (hgf.trans (hexp.trans hnow))) (UInt64.not_le.mpr hlive)

def aliceAdmin : GrantFields :=
  { account := [0x61, 0x6C, 0x69, 0x63, 0x65], privilegeBits := 3, operClass := [0x61],
    title := [], issuerNode := [0x6E], incarnation := 1, issuedMs := 1, expiryMs := 30 }

/-- Alice authenticated again, with fewer privileges. -/
def aliceHelper : GrantFields :=
  { aliceAdmin with
    account := [0x41, 0x6C, 0x69, 0x63, 0x65], privilegeBits := 1, incarnation := 2,
    issuedMs := 2, expiryMs := 10 }

theorem grants_never_roll_back_replayed :
    Shows (final step (Registry.init 1)
        ([] ++ .upsert aliceAdmin :: [.upsert aliceHelper, .upsert aliceAdmin])) 5 aliceHelper ∧
      ¬ Lower aliceHelper aliceAdmin := by
  have hshown : Shows (final step (Registry.init 1)
      ([] ++ .upsert aliceAdmin :: [.upsert aliceHelper, .upsert aliceAdmin])) 5 aliceHelper :=
    .inr ⟨aliceHelper.account, by decide⟩
  refine ⟨hshown, (grants_never_roll_back [] [.upsert aliceHelper, .upsert aliceAdmin] aliceAdmin
    aliceHelper 5 (by decide) (by decide) hshown rfl).1 fun v hv => ?_⟩
  rcases mem_cons.mp hv with rfl | hv
  · exact id
  · obtain rfl := mem_singleton.mp hv
    exact id

def longAccount (n : Nat) : Bytes := List.replicate n 0x61

/-- The later grant expires first; once a prune drops its slot, the replay of the earlier
one is taken and shown. And an account that does not fit its buffer is cut to another
account's name. -/
theorem pruned_grant_rolls_back :
    ((Registry.upsert (final step (Registry.init defaultCapacity) [.upsert aliceAdmin])
        aliceHelper).1 = .superseded ∧
      (final step (Registry.init defaultCapacity) [.upsert aliceAdmin, .upsert aliceHelper,
        .prune 20, .upsert aliceAdmin]).lookup aliceHelper.account 25 = some aliceAdmin ∧
      Lower aliceAdmin aliceHelper) ∧
    (Registry.upsert (Registry.init defaultCapacity)
        { aliceHelper with account := longAccount 255 }).1 = .inserted ∧
      { aliceAdmin with account := longAccount 255 } ∈
        (final step (Registry.init defaultCapacity)
          [.upsert { aliceHelper with account := longAccount 255 },
            .upsert { aliceAdmin with account := longAccount 256 }]).liveIterator 5 := by
  decide +kernel

end OnyxServer.OperGrant
