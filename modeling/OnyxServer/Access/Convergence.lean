import Mathlib.Data.List.Perm.Basic
import OnyxServer.Access.Expiry

/-!
# Convergence of ACCESS stores

A store keeps of every identity the latest fact that it was delivered: as a row, or as a
marker when the fact is a delete or has lapsed. Two stores that were delivered the same
facts have the same live rows, up to their order and the case of their octets.
-/
namespace OnyxServer.Access

open Lib Text List

variable {store next : AccessStore} {facts seen : List RemoteFact} {fact : RemoteFact}
  {instant : UInt64}

/-- The fact was delivered and none delivered for its identity outranks it. -/
def Newest (seen : List RemoteFact) (fact : RemoteFact) : Prop :=
  Latest RemoteFact.rank (fun g => g ∈ seen ∧ g.identity = fact.identity) fact

/-- The expiry of a fact on every running clock. -/
def RemoteFact.expiresAt (fact : RemoteFact) : Option UInt64 :=
  anchoredExpiry 1 fact.hlc fact.duration

/-- The row holds the fact. -/
structure Holds (fact : RemoteFact) (e : Entry) : Prop where
  identity : e.identity = fact.identity
  setBy : e.setBy = fact.setBy
  duration : e.duration = fact.duration
  expiresAt : e.expiresAt = fact.expiresAt
  hlc : e.hlc = fact.hlc
  originNode : e.originNode = fact.originNode

variable {e : Entry}

theorem Holds.rank (h : Holds fact e) : e.rank = fact.rank := by
  rw [Entry.rank, h.hlc, h.originNode, RemoteFact.rank]

/-- The fact is not live at the instant: a delete, or timed and over. -/
def Gone (fact : RemoteFact) (instant : UInt64) : Prop :=
  fact.present = false ∨ ∃ expiry, fact.expiresAt = some expiry ∧ expiry ≤ instant

/-- The store keeps the newest fact of every identity that it was delivered. -/
structure Merged (seen : List RemoteFact) (instant : UInt64) (store : AccessStore) : Prop where
  wellFormed : WellFormed store
  rows : ∀ e ∈ store.entries, ∃ f, Newest seen f ∧ f.present = true ∧ Holds f e
  markers : ∀ t ∈ store.tombstones,
    ∃ f, Newest seen f ∧ f.identity = t.identity ∧ f.rank = t.rank ∧ Gone f instant
  known : ∀ f ∈ seen, Known store f.identity

theorem Newest.other {f g : RemoteFact} (h : Newest seen f) (hne : g.identity ≠ f.identity) :
    Newest (g :: seen) f :=
  h.congr fun z => by
    rw [mem_cons, or_and_right, or_iff_right]
    rintro ⟨rfl, hkey⟩
    exact hne hkey

theorem Newest.keep {f g : RemoteFact} (h : Newest seen f) (hkey : g.identity = f.identity)
    (hle : g.rank ≤ f.rank) : Newest (g :: seen) f :=
  (Latest.keep h hle).congr fun z => by
    rw [mem_cons, or_and_right, and_iff_left_of_imp fun heq => heq ▸ hkey]

/-- Everything seen of an identity is outranked by what outranks the store. -/
theorem Merged.newest (h : Merged seen instant store) (habove : Outranks fact store) :
    Newest (fact :: seen) fact := by
  refine (Latest.replace fun g hg => ?_).congr fun z => by
    rw [mem_cons, or_and_right, and_iff_left_of_imp fun heq => heq ▸ rfl]
  obtain ⟨hmem, hkey⟩ := hg
  rcases h.known g hmem with ⟨e, he, hX⟩ | ⟨t, ht, hX⟩
  · obtain ⟨f, hf, -, hholds⟩ := h.rows e he
    have hle := hf.max g ⟨hmem, hX.symm.trans hholds.identity⟩
    rw [← hholds.rank] at hle
    exact hle.trans (habove.row e he (hX.trans hkey)).le
  · obtain ⟨f, hf, hfkey, hrank, -⟩ := h.markers t ht
    have hle := hf.max g ⟨hmem, (hfkey.trans hX).symm⟩
    rw [hrank] at hle
    exact hle.trans (habove.marker t ht (hX.trans hkey)).le

theorem gone_of_lapsed (hnow : store.nowSeconds ≠ 0) (hle : store.nowSeconds ≤ instant)
    (h : store.originLapsed fact = true) : Gone fact instant := by
  rw [AccessStore.originLapsed, Bool.and_eq_true,
    anchoredExpiry_clock hnow (by decide : (1 : UInt64) ≠ 0)] at h
  obtain ⟨expiry, hexpiry, hlapsed⟩ := (Option.any_eq_true _ _).mp h.2
  exact .inr ⟨expiry, hexpiry, (of_decide_eq_true hlapsed).trans hle⟩

theorem gone_of_expired (hholds : Holds fact e) (hle : store.nowSeconds ≤ instant)
    (h : store.isExpired e = true) : Gone fact instant := by
  rw [AccessStore.isExpired, isExpiredAt, hholds.expiresAt] at h
  cases hexpiry : fact.expiresAt with
  | none =>
    rw [hexpiry] at h
    cases h
  | some expiry =>
    rw [hexpiry] at h
    exact .inr ⟨expiry, hexpiry, (of_decide_eq_true h).trans hle⟩

theorem holds_of_wrote (hnow : store.nowSeconds ≠ 0)
    (h : Wrote (AccessStore.factWrite fact) store.nowSeconds e) : Holds fact e :=
  ⟨h.identity, h.setBy, h.duration,
    h.expiresAt.trans (anchoredExpiry_clock hnow (by decide : (1 : UInt64) ≠ 0) _ _), h.hlc,
    h.originNode⟩

section

variable (h : Merged seen instant store)
include h

theorem Merged.stale (hknown : Known store fact.identity)
    (hrow : ∀ e ∈ store.entries, e.identity = fact.identity → fact.rank ≤ e.rank)
    (hmarker : ∀ t ∈ store.tombstones, t.identity = fact.identity → fact.rank ≤ t.rank) :
    Merged (fact :: seen) instant store where
  wellFormed := h.wellFormed
  rows e he := by
    obtain ⟨f, hf, hpresent, hholds⟩ := h.rows e he
    refine ⟨f, ?_, hpresent, hholds⟩
    by_cases hkey : fact.identity = f.identity
    · exact hf.keep hkey (hholds.rank ▸ hrow e he (hholds.identity.trans hkey.symm))
    · exact hf.other hkey
  markers t ht := by
    obtain ⟨f, hf, hfkey, hrank, hgone⟩ := h.markers t ht
    refine ⟨f, ?_, hfkey, hrank, hgone⟩
    by_cases hkey : fact.identity = f.identity
    · exact hf.keep hkey (hrank ▸ hmarker t ht (hfkey.symm.trans hkey.symm))
    · exact hf.other hkey
  known := forall_mem_cons.mpr ⟨hknown, h.known⟩

theorem Merged.merge (hnow : store.nowSeconds ≠ 0)
    (hle : store.nowSeconds ≤ instant) {outcome : ApplyOutcome}
    (hstep : MergeStep store fact (store.originLapsed fact) (.ok outcome) next)
    (hkeeps : ∀ X, Known store X → Known next X) : Merged (fact :: seen) instant next := by
  cases hstep with
  | staleMarker t hmem hkey hrank =>
    refine h.stale (.inr ⟨t, hmem, hkey⟩) (fun e he hX => ?_) (fun t' ht' hX => ?_)
    · exact absurd (hX.trans hkey.symm) (h.wellFormed.apart e he t hmem)
    · rwa [h.wellFormed.markers.eq_of_key ht' hmem (hX.trans hkey.symm)]
  | staleRow e hmem hkey hrank =>
    refine h.stale (.inl ⟨e, hmem, hkey⟩) (fun e' he' hX => ?_) (fun t ht hX => ?_)
    · rwa [h.wellFormed.rows.eq_of_key he' hmem (hX.trans hkey.symm)]
    · exact absurd (hkey.trans hX.symm) (h.wellFormed.apart e hmem t ht)
  | applied row next hpresent hlapsed habove hput =>
    refine ⟨hput.wellFormed, fun e he => ?_, fun t ht => ?_, ?_⟩
    · rcases (hput.rows e).mp he with rfl | ⟨hold, hne⟩
      · exact ⟨fact, h.newest habove, hpresent, holds_of_wrote hnow hput.wrote⟩
      · obtain ⟨f, hf, hfpresent, hholds⟩ := h.rows e hold
        exact ⟨f, hf.other fun heq => hne (hholds.identity.trans heq.symm), hfpresent, hholds⟩
    · obtain ⟨hold, hne⟩ := (hput.markers t).mp ht
      obtain ⟨f, hf, hfkey, hrank, hgone⟩ := h.markers t hold
      exact ⟨f, hf.other fun heq => hne (hfkey.symm.trans heq.symm), hfkey, hrank, hgone⟩
    · exact forall_mem_cons.mpr ⟨.inl ⟨row, (hput.rows row).mpr (.inl rfl), hput.wrote.identity⟩,
        fun g hg => hkeeps _ (h.known g hg)⟩
  | deleted next hgone habove hbury hknown =>
    refine ⟨hbury.wellFormed, fun e he => ?_, fun t ht => ?_, ?_⟩
    · obtain ⟨hold, hne⟩ := (hbury.rows e).mp he
      obtain ⟨f, hf, hfpresent, hholds⟩ := h.rows e hold
      exact ⟨f, hf.other fun heq => hne (hholds.identity.trans heq.symm), hfpresent, hholds⟩
    · cases hbury.markers t ht with
      | other hold hne =>
        obtain ⟨f, hf, hfkey, hrank, hfgone⟩ := h.markers t hold
        exact ⟨f, hf.other fun heq => hne (hfkey.symm.trans heq.symm), hfkey, hrank, hfgone⟩
      | kept hold hkey hrank => exact absurd hrank (not_le.mpr (habove.marker t hold hkey))
      | new hmarked =>
        refine ⟨fact, h.newest habove, hmarked.identity.symm, hmarked.rank.symm, ?_⟩
        exact hgone.elim .inl (gone_of_lapsed hnow hle)
    · obtain ⟨t, ht, hkey, -⟩ := hknown
      exact forall_mem_cons.mpr ⟨.inr ⟨t, ht, hkey⟩, fun g hg => hkeeps _ (h.known g hg)⟩

theorem Merged.prune (hle : store.nowSeconds ≤ instant)
    (hsweep : SweepStep store.isExpired AccessStore.lapseMark store next)
    (hkeeps : ∀ X, Known store X → Known next X) : Merged seen instant next where
  wellFormed := hsweep.wellFormed
  rows e he := h.rows e ((hsweep.rows e).mp he).1
  markers t ht := by
    rcases hsweep.markers t ht with hold | ⟨row, hrow, hexpired, hmarked⟩
    · exact h.markers t hold
    · obtain ⟨f, hf, -, hholds⟩ := h.rows row hrow
      exact ⟨f, hf, hholds.identity.symm.trans hmarked.identity.symm,
        hholds.rank.symm.trans hmarked.rank.symm, gone_of_expired hholds hle hexpired⟩
  known f hf := hkeeps _ (h.known f hf)

theorem Merged.withClock (hrows : next.entries = store.entries)
    (hmarkers : next.tombstones = store.tombstones) : Merged seen instant next where
  wellFormed := h.wellFormed.withClock hrows hmarkers
  rows e he := h.rows e (hrows ▸ he)
  markers t ht := h.markers t (hmarkers ▸ ht)
  known f hf := by
    rw [Known, hrows, hmarkers]
    exact h.known f hf

theorem Merged.congr {other : List RemoteFact}
    (hiff : ∀ f, f ∈ other ↔ f ∈ seen) : Merged other instant store where
  wellFormed := h.wellFormed
  rows e he := by
    obtain ⟨f, hf, hpresent, hholds⟩ := h.rows e he
    exact ⟨f, hf.congr fun z => and_congr_left' (hiff z), hpresent, hholds⟩
  markers t ht := by
    obtain ⟨f, hf, hrest⟩ := h.markers t ht
    exact ⟨f, hf.congr fun z => and_congr_left' (hiff z), hrest⟩
  known f hf := h.known f ((hiff f).mp hf)

end

/-- A step of a delivery: the clock is set, or under a clock that runs a fact arrives or
lapsed rows are pruned. -/
inductive DeliveryStep (facts : List RemoteFact) (instant : UInt64)
    (v : Visit AccessStore Op Answer) : Prop
  | clock (nowSeconds : UInt64) (hinput : v.input = .setClock nowSeconds)
  | fact (fact : RemoteFact) (alloc : Bool) (hinput : v.input = .applyRemote fact alloc)
      (hmem : fact ∈ facts) (hnow : v.before.nowSeconds ≠ 0) (hle : v.before.nowSeconds ≤ instant)
  | prune (alloc : Nat → Bool) (hinput : v.input = .pruneExpired alloc)
      (hnow : v.before.nowSeconds ≠ 0) (hle : v.before.nowSeconds ≤ instant)

/-- A run that delivers all the facts by the instant, where every operation succeeds and no
row or marker is given up. -/
structure Delivery (facts : List RemoteFact) (instant : UInt64) (store : AccessStore)
    (ops : List Op) : Prop where
  steps : ∀ v ∈ visits step store ops, DeliveryStep facts instant v
  succeeds : ∀ v ∈ visits step store ops, ∃ reply, v.output = .ok reply
  keeps : ∀ v ∈ visits step store ops, ∀ X, Known v.before X → Known v.after X
  all : ∀ fact ∈ facts, ∃ alloc, Op.applyRemote fact alloc ∈ ops

theorem Merged.step (h : Merged seen instant store) (op : Op)
    (hstep : DeliveryStep facts instant ⟨store, op, (step store op).1, (step store op).2⟩)
    (hok : ∃ reply, (step store op).1 = .ok reply)
    (hkeeps : ∀ X, Known store X → Known (step store op).2 X) :
    Merged (op.delivered.toList ++ seen) instant (step store op).2 := by
  cases hstep with
  | clock nowSeconds hinput =>
    obtain rfl : op = _ := hinput
    exact h.withClock rfl rfl
  | fact fact alloc hinput hmem hnow hle =>
    obtain rfl : op = _ := hinput
    obtain ⟨reply, hok⟩ := hok
    rcases remote_step h.wellFormed fact alloc with ⟨e, he⟩ | ⟨-, -, hmerge⟩
    · simp only [Access.step, he] at hok
      cases hok
    cases hanswer : (store.applyRemote fact alloc).1 with
    | error e =>
      simp only [Access.step, hanswer] at hok
      cases hok
    | ok outcome =>
      rw [hanswer] at hmerge
      exact Merged.merge (h.withClock rfl rfl : Merged seen instant (store.observeHlc fact.hlc))
        hnow hle hmerge hkeeps
  | prune alloc hinput hnow hle =>
    obtain rfl : op = _ := hinput
    exact h.prune hle (prune_step h.wellFormed alloc) hkeeps

theorem run_merged (ops : List Op) (h : Merged seen instant store)
    (hsteps : ∀ v ∈ visits step store ops, DeliveryStep facts instant v)
    (hok : ∀ v ∈ visits step store ops, ∃ reply, v.output = .ok reply)
    (hkeeps : ∀ v ∈ visits step store ops, ∀ X, Known v.before X → Known v.after X) :
    Merged ((ops.filterMap Op.delivered).reverse ++ seen) instant (final step store ops) := by
  induction ops generalizing store seen with
  | nil => exact h
  | cons op ops ih =>
    obtain ⟨hstep, hsteps⟩ := forall_mem_cons.mp hsteps
    obtain ⟨hok, hoks⟩ := forall_mem_cons.mp hok
    obtain ⟨hkeep, hkeeps⟩ := forall_mem_cons.mp hkeeps
    have hrest := ih (h.step op hstep hok hkeep) hsteps hoks hkeeps
    show Merged _ instant (final Access.step (Access.step store op).2 ops)
    refine hrest.congr fun f => ?_
    cases hdelivered : op.delivered <;> simp [hdelivered]

theorem merged_init (maxEntries maxTombstones : Nat) (ttl localNode instant : UInt64) :
    Merged [] instant (AccessStore.init maxEntries maxTombstones ttl localNode) :=
  ⟨wellFormed_init _ _ _ _, fun _ he => absurd he not_mem_nil,
    fun _ ht => absurd ht not_mem_nil, fun _ hf => absurd hf not_mem_nil⟩

theorem visited {op : Op} {ops : List Op} (h : op ∈ ops) :
    ∃ v ∈ visits step store ops, v.input = op := by
  obtain ⟨fs, gs, rfl⟩ := append_of_mem h
  rw [visits_append]
  exact ⟨_, mem_append_right _ mem_cons_self, rfl⟩

/-- A delivery leaves the newest fact of every identity. -/
theorem Delivery.merged {maxEntries maxTombstones : Nat} {ttl localNode : UInt64} {ops : List Op}
    (h : Delivery facts instant (AccessStore.init maxEntries maxTombstones ttl localNode) ops) :
    Merged facts instant
      (final step (AccessStore.init maxEntries maxTombstones ttl localNode) ops) := by
  refine (run_merged ops (merged_init _ _ _ _ _) h.steps h.succeeds h.keeps).congr fun f => ?_
  rw [append_nil, mem_reverse, mem_filterMap]
  constructor
  · intro hf
    obtain ⟨alloc, hmem⟩ := h.all f hf
    exact ⟨_, hmem, rfl⟩
  · rintro ⟨op, hop, hdelivered⟩
    obtain ⟨alloc, rfl⟩ := delivered_eq hdelivered
    obtain ⟨v, hv, hinput⟩ := visited hop
    cases h.steps v hv with
    | clock _ hinput' => cases hinput.symm.trans hinput'
    | prune _ hinput' => cases hinput.symm.trans hinput'
    | fact g _ hinput' hmem =>
      obtain rfl : f = g := by cases hinput.symm.trans hinput'; rfl
      exact hmem

/-- No two facts of one identity share both clock and node. -/
def UniqueRanks (facts : List RemoteFact) : Prop :=
  ∀ f ∈ facts, ∀ g ∈ facts, f.identity = g.identity → f.rank = g.rank → f = g

/-- A row as it is shown, up to the case of its channel and its mask. -/
def EntryView.folded (v : EntryView) : EntryView :=
  { v with channel := lowerString v.channel, mask := lowerString v.mask }

def Entry.shown (e : Entry) : EntryView := e.view.folded

theorem shown_iff {e e' : Entry} : e.shown = e'.shown ↔
    lowerString e.channel = lowerString e'.channel ∧ e.level = e'.level ∧
      lowerString e.mask = lowerString e'.mask ∧ e.setBy = e'.setBy ∧ e.duration = e'.duration ∧
      e.expiresAt = e'.expiresAt ∧ e.hlc = e'.hlc ∧ e.originNode = e'.originNode := by
  simp only [Entry.shown, EntryView.folded, Entry.view, EntryView.mk.injEq]

theorem Holds.shown_eq {e e' : Entry} (h : Holds fact e) (h' : Holds fact e') :
    e.shown = e'.shown := by
  have hkey := h.identity.trans h'.identity.symm
  simp only [Entry.identity, Access.identity, Identity.mk.injEq] at hkey
  exact shown_iff.mpr ⟨hkey.1, hkey.2.1, hkey.2.2, h.setBy.trans h'.setBy.symm,
    h.duration.trans h'.duration.symm, h.expiresAt.trans h'.expiresAt.symm, h.hlc.trans h'.hlc.symm,
    h.originNode.trans h'.originNode.symm⟩

variable {here there : AccessStore} {now : UInt64}

/-- A row that is live in one store is in the other. -/
theorem Merged.live_row (h : Merged facts instant here) (h' : Merged facts instant there)
    (hunique : UniqueRanks facts) (hle : instant ≤ now) (he : e ∈ here.entries)
    (hlive : isExpiredAt e now = false) : ∃ e' ∈ there.entries, e'.shown = e.shown := by
  obtain ⟨f, hf, hpresent, hholds⟩ := h.rows e he
  have same : ∀ g, Newest facts g → g.identity = f.identity → g = f := by
    intro g hg hkey
    have hf' : Latest RemoteFact.rank (fun z => z ∈ facts ∧ z.identity = g.identity) f :=
      hf.congr fun z => by rw [hkey]
    exact hunique g hg.mem.1 f hf.mem.1 hkey (hg.rank_eq hf')
  rcases h'.known f hf.mem.1 with ⟨e', he', hkey⟩ | ⟨t, ht, hkey⟩
  · obtain ⟨g, hg, -, hholds'⟩ := h'.rows e' he'
    obtain rfl := same g hg (hholds'.identity.symm.trans hkey)
    exact ⟨e', he', hholds'.shown_eq hholds⟩
  obtain ⟨g, hg, hgkey, -, hgone⟩ := h'.markers t ht
  obtain rfl := same g hg (hgkey.trans hkey)
  rcases hgone with habsent | ⟨expiry, hexpiry, hlapsed⟩
  · rw [hpresent] at habsent
    cases habsent
  · rw [isExpiredAt, hholds.expiresAt, hexpiry] at hlive
    exact absurd (hlapsed.trans hle) (of_decide_eq_false hlive)

/-- Rows are chosen by what is shown of them. -/
def Shows (p : Entry → Bool) : Prop := ∀ e e' : Entry, e.shown = e'.shown → p e = p e'

theorem shows_live (now : UInt64) : Shows fun e => !isExpiredAt e now := by
  intro e e' h
  simp only [isExpiredAt, (shown_iff.mp h).2.2.2.2.2.1]

theorem Shows.and {p q : Entry → Bool} (hp : Shows p) (hq : Shows q) : Shows fun e => p e && q e :=
  fun e e' h => congrArg₂ Bool.and (hp e e' h) (hq e e' h)

theorem shows_channel (channel : Bytes) : Shows fun e => eqlIgnoreCase e.channel channel := by
  intro e e' h
  simp only [eqlIgnoreCase, (shown_iff.mp h).1]

theorem shows_selector (selector : Selector) : Shows selector.matches := by
  intro e e' h
  obtain ⟨hchannel, hlevel, hmask, -⟩ := shown_iff.mp h
  simp only [Selector.matches, eqlIgnoreCase, hchannel, hlevel, hmask]

theorem shows_cloakMatch (derive : Derivation) (hostmask : Bytes) (ctx : Option CloakContext) :
    Shows fun e => cloakMatch derive e.mask hostmask ctx := by
  intro e e' h
  show cloakMatch derive e.mask hostmask ctx = cloakMatch derive e'.mask hostmask ctx
  rw [← cloakMatch_lower, (shown_iff.mp h).2.2.1, cloakMatch_lower]

theorem nodup_shown (hwf : WellFormed here) (p : Entry → Bool) :
    ((here.entries.filter p).map Entry.shown).Nodup := by
  have hkeys := hwf.rows.sublist (filter_sublist (p := p))
  refine (nodup_map_iff_inj_on ?_).mpr fun e he e' he' hshown =>
    hkeys.eq_of_key he he' ?_
  · exact hkeys.of_map _
  · obtain ⟨hchannel, hlevel, hmask, -⟩ := shown_iff.mp hshown
    rw [Entry.identity, Access.identity, hchannel, hlevel, hmask]
    rfl

/-- Two stores hold the same live rows, up to order and case. -/
theorem Merged.live_perm (h : Merged facts instant here) (h' : Merged facts instant there)
    (hunique : UniqueRanks facts) (hle : instant ≤ now) {p : Entry → Bool} (hp : Shows p)
    (hlive : ∀ e, p e = true → isExpiredAt e now = false) :
    ((here.entries.filter p).map Entry.shown).Perm ((there.entries.filter p).map Entry.shown) := by
  have sub : ∀ {a b : AccessStore}, Merged facts instant a → Merged facts instant b →
      ∀ v ∈ (a.entries.filter p).map Entry.shown, v ∈ (b.entries.filter p).map Entry.shown := by
    intro a b ha hb v hv
    obtain ⟨e, he, rfl⟩ := mem_map.mp hv
    obtain ⟨hmem, hpe⟩ := mem_filter.mp he
    obtain ⟨e', he', hshown⟩ := ha.live_row hb hunique hle hmem (hlive e hpe)
    exact mem_map.mpr ⟨e', mem_filter.mpr ⟨he', (hp e' e hshown).trans hpe⟩, hshown⟩
  rw [perm_ext_iff_of_nodup (nodup_shown h.wellFormed p) (nodup_shown h'.wellFormed p)]
  exact fun v => ⟨sub h h' v, sub h' h v⟩

/-! ## What two stores answer -/

/-- Two listings are refused alike or show the same rows. -/
def SameList : Except StoreError (List EntryView) → Except StoreError (List EntryView) → Prop
  | .error e, .error e' => e = e'
  | .ok rows, .ok rows' => (rows.map EntryView.folded).Perm (rows'.map EntryView.folded)
  | _, _ => False

theorem Merged.listMatching (h : Merged facts instant here) (h' : Merged facts instant there)
    (hunique : UniqueRanks facts) (hle : instant ≤ now) (selector : Selector) (outLen : Nat) :
    SameList ({ here with nowSeconds := now }.listMatching selector outLen)
      ({ there with nowSeconds := now }.listMatching selector outLen) := by
  have hperm : (({ here with nowSeconds := now }.selectedRows selector).map Entry.shown).Perm
      (({ there with nowSeconds := now }.selectedRows selector).map Entry.shown) :=
    h.live_perm h' hunique hle ((shows_live now).and (shows_selector selector))
      fun e he => by simpa [AccessStore.isExpired] using (Bool.and_eq_true_iff.mp he).1
  rw [AccessStore.listMatching, AccessStore.listMatching]
  cases validateSelector selector with
  | error e => rfl
  | ok _ =>
    generalize AccessStore.selectedRows _ selector = rows at hperm ⊢
    generalize AccessStore.selectedRows _ selector = rows' at hperm ⊢
    have hlength : rows.length = rows'.length := by simpa using hperm.length_eq
    by_cases hfull : outLen < rows.length
    · simp only [if_pos hfull, if_pos (hlength ▸ hfull)]
      rfl
    simp only [if_neg hfull, if_neg (hlength ▸ hfull)]
    show ((rows.map Entry.view).map EntryView.folded).Perm _
    rw [map_map, map_map]
    exact hperm

/-- The answer is a row of the highest precedence. -/
theorem bestRow_some {rows : List Entry} {best : Option Entry} {row : Entry}
    (h : AccessStore.bestRow rows best = some row) :
    (row ∈ rows ∨ best = some row) ∧ (∀ e ∈ rows, e.level.precedence ≤ row.level.precedence) ∧
      ∀ e ∈ best, e.level.precedence ≤ row.level.precedence := by
  induction rows generalizing best with
  | nil =>
    obtain rfl : best = some row := h
    exact ⟨.inr rfl, fun e he => absurd he not_mem_nil, fun e he => by
      rw [Option.mem_some_iff.mp he]⟩
  | cons entry rest ih =>
    rw [AccessStore.bestRow] at h
    split at h
    · rename_i hbest
      obtain ⟨hmem, hmax, hentry⟩ := ih h
      refine ⟨.inl ?_, forall_mem_cons.mpr ⟨hentry entry rfl, hmax⟩, fun e he => ?_⟩
      · rcases hmem with hmem | heq
        · exact mem_cons_of_mem _ hmem
        · exact mem_cons.mpr (.inl (Option.some.inj heq).symm)
      · obtain rfl := Option.mem_def.mp he
        exact (of_decide_eq_true hbest).le.trans (hentry entry rfl)
    · rename_i hbest
      obtain ⟨hmem, hmax, hold⟩ := ih h
      refine ⟨hmem.imp_left (mem_cons_of_mem _), forall_mem_cons.mpr ⟨?_, hmax⟩, hold⟩
      cases best with
      | none => exact absurd rfl hbest
      | some e =>
          exact (not_lt.mp (of_decide_eq_false (Bool.not_eq_true _ ▸ hbest))).trans (hold e rfl)

theorem bestRow_none {rows : List Entry} {best : Option Entry}
    (h : AccessStore.bestRow rows best = none) :
    rows = [] ∧ best = none := by
  induction rows generalizing best with
  | nil => exact ⟨rfl, h⟩
  | cons entry rest ih =>
    rw [AccessStore.bestRow] at h
    split at h
    · exact absurd (ih h).2 (by simp)
    · rename_i hbest
      rw [(ih h).2] at hbest
      exact absurd rfl hbest

/-- Two matches are refused alike, find nothing, or find rows of one precedence, which are
the same row unless several of the rows that match share that precedence. -/
def SameMatch (matching : List Entry) :
    Except StoreError (Option EntryView) → Except StoreError (Option EntryView) → Prop
  | .error e, .error e' => e = e'
  | .ok none, .ok none => True
  | .ok (some v), .ok (some v') =>
    v.level.precedence = v'.level.precedence ∧ v'.folded ∈ matching.map Entry.shown ∧
      ((∀ e ∈ matching, e.level.precedence = v.level.precedence → e.shown = v.folded) →
        v'.folded = v.folded)
  | _, _ => False

theorem sameMatch_best {rows rows' : List Entry}
    (hperm : (rows.map Entry.shown).Perm (rows'.map Entry.shown)) :
    SameMatch rows (.ok ((AccessStore.bestRow rows none).map Entry.view))
      (.ok ((AccessStore.bestRow rows' none).map Entry.view)) := by
  have below : ∀ {a b : List Entry} {x y : Entry}, (a.map Entry.shown).Perm (b.map Entry.shown) →
      AccessStore.bestRow a none = some x → AccessStore.bestRow b none = some y →
      y.shown ∈ a.map Entry.shown ∧ y.level.precedence ≤ x.level.precedence := by
    intro a b x y hperm hx hy
    obtain ⟨hmem | hnone, -⟩ := bestRow_some hy
    · have hshown := hperm.mem_iff.mpr (mem_map_of_mem hmem)
      obtain ⟨e, he, heq⟩ := mem_map.mp hshown
      rw [← (shown_iff.mp heq).2.1]
      exact ⟨hshown, (bestRow_some hx).2.1 e he⟩
    · cases hnone
  cases hx : AccessStore.bestRow rows none with
  | none =>
    obtain ⟨rfl, -⟩ := bestRow_none hx
    obtain rfl := map_eq_nil_iff.mp (nil_perm.mp hperm)
    trivial
  | some x =>
    cases hy : AccessStore.bestRow rows' none with
    | none =>
      obtain ⟨rfl, -⟩ := bestRow_none hy
      obtain rfl := map_eq_nil_iff.mp (perm_nil.mp hperm)
      cases hx
    | some y =>
      obtain ⟨hmem, hle⟩ := below hperm hx hy
      have hprecedence := le_antisymm (below hperm.symm hy hx).2 hle
      refine ⟨hprecedence, hmem, fun honly => ?_⟩
      obtain ⟨e, he, heq⟩ := mem_map.mp hmem
      have hlevel : e.level = y.level := (shown_iff.mp heq).2.1
      rw [← honly e he ((congrArg Level.precedence hlevel).trans hprecedence.symm)]
      exact heq.symm

theorem Merged.match (h : Merged facts instant here) (h' : Merged facts instant there)
    (hunique : UniqueRanks facts) (hle : instant ≤ now) (derive : Derivation)
    (channel hostmask : Bytes) (ctx : Option CloakContext) :
    SameMatch (here.matchingRows derive channel hostmask ctx now)
      (here.matchHostmaskWithCloakAt derive channel hostmask ctx now)
      (there.matchHostmaskWithCloakAt derive channel hostmask ctx now) := by
  have hperm := h.live_perm h' hunique hle
    (((shows_live now).and (shows_channel channel)).and (shows_cloakMatch derive hostmask ctx))
    fun e he => by simpa using (Bool.and_eq_true_iff.mp (Bool.and_eq_true_iff.mp he).1).1
  rw [AccessStore.matchHostmaskWithCloakAt, AccessStore.matchHostmaskWithCloakAt]
  cases validateChannel channel with
  | error e => rfl
  | ok _ =>
    cases validateObservedHostmask hostmask with
    | error e => rfl
    | ok _ => exact sameMatch_best hperm

/-- The two stores, each run in an order of its own from its own settings, list the same
live rows and match rows of one precedence at every instant after both deliveries. -/
theorem access_converges {facts : List RemoteFact} {instant now : UInt64}
    {maxEntries maxTombstones maxEntries' maxTombstones' : Nat}
    {ttl localNode ttl' localNode' : UInt64} {ops ops' : List Op} (hunique : UniqueRanks facts)
    (hhere : Delivery facts instant (AccessStore.init maxEntries maxTombstones ttl localNode) ops)
    (hthere : Delivery facts instant
      (AccessStore.init maxEntries' maxTombstones' ttl' localNode') ops')
    (hnow : instant ≤ now) :
    let here := final step (AccessStore.init maxEntries maxTombstones ttl localNode) ops
    let there := final step (AccessStore.init maxEntries' maxTombstones' ttl' localNode') ops'
    (∀ selector outLen, SameList ({ here with nowSeconds := now }.listMatching selector outLen)
        ({ there with nowSeconds := now }.listMatching selector outLen)) ∧
      (∀ channel outLen, SameList ({ here with nowSeconds := now }.list channel outLen)
        ({ there with nowSeconds := now }.list channel outLen)) ∧
      ∀ derive channel hostmask ctx,
        SameMatch (here.matchingRows derive channel hostmask ctx now)
          (here.matchHostmaskWithCloakAt derive channel hostmask ctx now)
          (there.matchHostmaskWithCloakAt derive channel hostmask ctx now) :=
  ⟨fun selector => hhere.merged.listMatching hthere.merged hunique hnow selector,
    fun channel => hhere.merged.listMatching hthere.merged hunique hnow ⟨channel, none, none⟩,
    fun derive channel hostmask ctx =>
      hhere.merged.match hthere.merged hunique hnow derive channel hostmask ctx⟩

/-- A host entry for every visitor of `#a`. -/
def hostFact : RemoteFact :=
  { present := true, channel := [0x23, 0x61], level := .host, mask := [0x2A, 0x21, 0x2A, 0x40, 0x2A]
    setBy := [0x6E], duration := none, hlc := 1000000, originNode := 3, originProof := none }

def grantFact : RemoteFact := { hostFact with level := .grant, hlc := 1000001, originNode := 4 }

def delivered (first second : RemoteFact) : List Op :=
  [.setClock 1000, .applyRemote first true, .applyRemote second true]

def pairFacts : List RemoteFact := [hostFact, grantFact]

def emptyStore : AccessStore := AccessStore.init 8 8 604800 1

theorem known_iff {X : Identity} : Known store X ↔
    X ∈ store.entries.map Entry.identity ++ store.tombstones.map Tombstone.identity := by
  simp [Known]

theorem visits_three {first second third : Op} {P : Visit AccessStore Op Answer → Prop} :
    (∀ v ∈ visits step store [first, second, third], P v) ↔
      P ⟨store, first, (step store first).1, (step store first).2⟩ ∧
        P ⟨final step store [first], second, (step (final step store [first]) second).1,
          final step store [first, second]⟩ ∧
        P ⟨final step store [first, second], third,
          (step (final step store [first, second]) third).1,
          final step store [first, second, third]⟩ := by
  simp [visits, final]

theorem delivery_pair {first second : RemoteFact}
    (h : (first, second) = (hostFact, grantFact) ∨ (first, second) = (grantFact, hostFact)) :
    Delivery pairFacts 1000 emptyStore (delivered first second) := by
  rcases h with h | h
  all_goals
    cases h
    constructor
    · exact visits_three.mpr ⟨.clock 1000 rfl, .fact _ true rfl (by decide) (by decide) (by decide),
        .fact _ true rfl (by decide) (by decide) (by decide)⟩
    · exact visits_three.mpr
        ⟨⟨.done, rfl⟩, ⟨.outcome .applied, by decide⟩, ⟨.outcome .applied, by decide⟩⟩
    · simp only [known_iff]
      exact visits_three.mpr ⟨by decide, by decide, by decide⟩
    · simp [pairFacts, delivered]

theorem uniqueRanks_pair : UniqueRanks pairFacts := by
  unfold UniqueRanks
  decide

theorem access_converges_pair :
    SameList ({ final step emptyStore (delivered hostFact grantFact) with nowSeconds := 2000 }.list
        [0x23, 0x41] 8)
      ({ final step emptyStore (delivered grantFact hostFact) with nowSeconds := 2000 }.list
        [0x23, 0x41] 8) :=
  (access_converges uniqueRanks_pair (delivery_pair (.inl rfl)) (delivery_pair (.inr rfl))
    (by decide)).2.1 [0x23, 0x41] 8

/-- The first row wins a tie of precedence, and it is the one that arrived first. -/
theorem match_order_dependent :
    UniqueRanks pairFacts ∧ Delivery pairFacts 1000 emptyStore (delivered hostFact grantFact) ∧
      Delivery pairFacts 1000 emptyStore (delivered grantFact hostFact) ∧
      (final step emptyStore (delivered hostFact grantFact)).matchHostmaskWithCloakAt
          (fun _ _ _ _ _ _ => none) [0x23, 0x61] [0x6E, 0x21, 0x75, 0x40, 0x68] none 1000 ≠
        (final step emptyStore (delivered grantFact hostFact)).matchHostmaskWithCloakAt
          (fun _ _ _ _ _ _ => none) [0x23, 0x61] [0x6E, 0x21, 0x75, 0x40, 0x68] none 1000 :=
  ⟨uniqueRanks_pair, delivery_pair (.inl rfl), delivery_pair (.inr rfl), by decide⟩

end OnyxServer.Access
