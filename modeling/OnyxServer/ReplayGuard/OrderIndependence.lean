import Mathlib.Data.List.Dedup
import OnyxServer.Lib.Trace
import OnyxServer.ReplayGuard.Checkpoint

/-!
# The window is a function of the delivered set

Whatever the order and the repetitions of the deliveries, an origin ends in the
normal form of the set of events delivered to it: the greatest `windowSize` events
above, and the greatest of the others as the watermark. Two guards with the same
delivered sets seal to the same bytes.
-/
namespace OnyxServer.ReplayGuard

open Lib List AList

structure Offer where
  pubkey : PublicKey
  hlc : UInt64
  relayId : RelayId
  alloc : Allocator

def Offer.entry (offer : Offer) : Entry := ⟨offer.hlc, offer.relayId⟩

def feed (guard : Guard) (offer : Offer) : Except AllocError Decision × Guard :=
  Guard.admit guard offer.pubkey offer.hlc offer.relayId offer.alloc

/-- The events of `key` whose call was answered, allocation failures left out. -/
def delivered (key : PublicKey) (run : List (Visit Guard Offer (Except AllocError Decision))) :
    List Entry :=
  (run.filter fun v => v.input.pubkey = key ∧ v.output ≠ .error .outOfMemory).map
    fun v => v.input.entry

/-- The events of `key` among the offers. -/
def offered (key : PublicKey) (offers : List Offer) : List Entry :=
  (offers.filter fun offer => offer.pubkey = key).map Offer.entry

/-- The state an origin must have after a set of events: nothing for no event, else
the greatest `windowSize` of them and the greatest of the rest. -/
def normalForm (windowSize : Nat) (events : List Entry) : Option OriginState :=
  let sorted := sortByKey Entry.hlc events.dedup
  if sorted = [] then none
  else
    let excess := sorted.length - windowSize
    some { retiredThroughHlc := (sorted.take excess).getLast?.map Entry.hlc,
           entries := sorted.drop excess }

/-- `origin` keeps the top of `sorted` and the watermark is the event just below. -/
structure Normal (windowSize : Nat) (sorted : List Entry) (origin : OriginState) : Prop where
  split : ∃ old, sorted = old ++ origin.entries ∧
    origin.retiredThroughHlc = old.getLast?.map Entry.hlc ∧
    (old = [] ∨ origin.entries.length = windowSize)
  bounded : origin.entries.length ≤ windowSize

variable {windowSize : Nat}

theorem Normal.eq {sorted : List Entry} {origin : OriginState}
    (h : Normal windowSize sorted origin) :
    origin = { retiredThroughHlc :=
                 (sorted.take (sorted.length - windowSize)).getLast?.map Entry.hlc,
               entries := sorted.drop (sorted.length - windowSize) } := by
  obtain ⟨old, hsplit, hret, hor⟩ := h.split
  have hb := h.bounded
  have hlen : sorted.length - windowSize = old.length := by
    rw [hsplit, length_append]
    rcases hor with rfl | hfull
    · simp only [length_nil]
      omega
    · omega
  rw [hlen, hsplit, take_left' rfl, drop_left' rfl, ← hret]

theorem above_getLast {old : List Entry} (hasc : Ascending Entry.hlc old) {hlc : UInt64}
    (h : Above (old.getLast?.map Entry.hlc) hlc) : ∀ x ∈ old, x.hlc < hlc := by
  intro x hx
  rcases eq_nil_or_concat old with rfl | ⟨init, last, rfl⟩
  · cases hx
  have hlast := h last.hlc (by simp)
  rw [concat_eq_append] at hx hasc
  rcases mem_append.mp hx with hx | hx
  · exact ((ascending_append.mp hasc).2.2 x hx last (by simp)).trans hlast
  · rw [mem_singleton.mp hx]
    exact hlast

/-- One answered delivery adds the event to the set and keeps the normal form. -/
theorem KnownStep.normal {sorted : List Entry} {origin next : OriginState}
    {entry : Entry} {answer : Except AllocError Decision}
    (hs : KnownStep windowSize origin entry.hlc entry.relayId answer next)
    (hasc : Ascending Entry.hlc sorted) (hn : Normal windowSize sorted origin)
    (hdistinct : ∀ other ∈ sorted, other.hlc = entry.hlc → other = entry)
    (hmemory : answer ≠ .error .outOfMemory) :
    ∃ sorted', Ascending Entry.hlc sorted' ∧ (∀ x, x ∈ sorted' ↔ x = entry ∨ x ∈ sorted) ∧
      Normal windowSize sorted' next := by
  obtain ⟨old, hsplit, hret, hor⟩ := hn.split
  obtain ⟨hold, hentries, hcross⟩ := ascending_append.mp (hsplit ▸ hasc)
  have hseen : entry ∈ sorted → ∀ x, x ∈ sorted ↔ x = entry ∨ x ∈ sorted := fun hmem x =>
    ⟨Or.inr, fun h => h.elim (fun he => he ▸ hmem) id⟩
  have hput : ∀ l r : List Entry, sorted = l ++ r →
      ∀ x, x ∈ l ++ entry :: r ↔ x = entry ∨ x ∈ sorted := by
    rintro l r rfl x
    simp only [mem_append, mem_cons]
    exact or_left_comm
  cases hs with
  | below hnot =>
    by_cases hmem : entry ∈ sorted
    · exact ⟨sorted, hasc, hseen hmem, hn⟩
    · -- The event falls among those already passed, and the last of these stays last.
      have hlast : ∃ init last, old = init ++ [last] ∧ entry.hlc < last.hlc := by
        rcases eq_nil_or_concat old with rfl | ⟨init, last, rfl⟩
        · exact absurd (fun w hw => by rw [hret] at hw; cases hw) hnot
        refine ⟨init, last, concat_eq_append, ?_⟩
        rw [concat_eq_append] at hret hsplit
        have hle : entry.hlc ≤ last.hlc := by
          by_contra hlt
          refine hnot fun w hw => ?_
          rw [hret] at hw
          simp only [List.getLast?_concat, Option.map_some, Option.some.injEq] at hw
          exact hw ▸ not_le.mp hlt
        refine lt_of_le_of_ne hle fun heq => hmem ?_
        have hlast : last ∈ sorted := by rw [hsplit]; simp
        exact hdistinct last hlast heq.symm ▸ hlast
      obtain ⟨init, last, rfl, hlt⟩ := hlast
      rcases (ascending_append.mp hold).1.locate entry.hlc with
        ⟨l, x, r, hinit, hx, -⟩ | ⟨l, r, hinit, -, hl, hr⟩
      · have hxs : x ∈ sorted := by rw [hsplit, hinit]; simp
        exact absurd (hdistinct x hxs hx ▸ hxs) hmem
      have hs' : sorted = l ++ (r ++ [last] ++ origin.entries) := by rw [hsplit, hinit]; simp
      refine ⟨l ++ entry :: (r ++ [last] ++ origin.entries), ?_, hput _ _ hs', ?_, hn.bounded⟩
      · refine (hs' ▸ hasc).insert hl fun y hy => ?_
        rcases mem_append.mp hy with hy | hy
        · rcases mem_append.mp hy with hy | hy
          · exact hr y hy
          · exact mem_singleton.mp hy ▸ hlt
        · exact hlt.trans (hcross last (by simp) y hy)
      · refine ⟨l ++ entry :: r ++ [last], by simp, ?_, Or.inr ?_⟩
        · rw [hret, List.getLast?_concat, List.getLast?_concat]
        · exact hor.resolve_left (by simp)
  | retained other hother hhlc =>
    have hmem : other ∈ sorted := by rw [hsplit]; exact mem_append_right _ hother
    rw [hdistinct other hmem hhlc] at hmem
    exact ⟨sorted, hasc, hseen hmem, hn⟩
  | noMemory => exact absurd rfl hmemory
  | grow l r hlr hroom habove hl hr =>
    obtain rfl : old = [] := hor.resolve_right (by omega)
    rw [nil_append, hlr] at hsplit
    refine ⟨l ++ entry :: r, (hsplit ▸ hasc).insert hl hr, hput l r hsplit, ?_, ?_⟩
    · exact ⟨[], rfl, hret, Or.inl rfl⟩
    · rw [hlr, length_append] at hroom
      simp only [length_append, length_cons]
      omega
  | tooOld hfull habove hall =>
    refine ⟨old ++ entry :: origin.entries, ?_, hput _ _ hsplit, ?_, hn.bounded⟩
    · exact (hsplit ▸ hasc).insert (above_getLast hold (hret ▸ habove)) hall
    · exact ⟨old ++ [entry], by simp, by simp, Or.inr (Nat.le_antisymm hn.bounded hfull)⟩
  | evict oldest l r hlr hfull habove hlt hl hr =>
    have hs' : sorted = (old ++ oldest :: l) ++ r := by rw [hsplit, hlr]; simp
    have hlen : origin.entries.length = l.length + r.length + 1 := by rw [hlr]; simp
    have hb := hn.bounded
    refine ⟨(old ++ oldest :: l) ++ entry :: r, ?_, hput _ _ hs', ?_, ?_⟩
    · refine (hs' ▸ hasc).insert (fun y hy => ?_) hr
      rcases mem_append.mp hy with hy | hy
      · exact above_getLast hold (hret ▸ habove) y hy
      · rcases mem_cons.mp hy with rfl | hy
        · exact hlt
        · exact hl y hy
    · refine ⟨old ++ [oldest], by simp, by simp, Or.inr ?_⟩
      simp only [length_append, length_cons]
      omega
    · simp only [length_append, length_cons]
      omega

/-! ## The whole table -/

abbrev FeedVisit := Visit Guard Offer (Except AllocError Decision)

/-- What the table holds for `key` when `events` were delivered to it. -/
def Holds (windowSize : Nat) (events : List Entry) : Option OriginState → Prop
  | none => events = []
  | some origin => ∃ sorted, sorted ≠ [] ∧ Ascending Entry.hlc sorted ∧
      (∀ x, x ∈ sorted ↔ x ∈ events) ∧ Normal windowSize sorted origin

theorem Holds.eq_normalForm {events : List Entry} {state : Option OriginState}
    (hdistinct : ∀ a ∈ events, ∀ b ∈ events, a.hlc = b.hlc → a = b)
    (h : Holds windowSize events state) : state = normalForm windowSize events := by
  cases state with
  | none =>
    obtain rfl : events = [] := h
    rfl
  | some origin =>
    obtain ⟨sorted, hne, hasc, hmem, hn⟩ := h
    have hnodup : (events.dedup.map Entry.hlc).Nodup := by
      refine List.Nodup.map_on (fun a ha b hb => ?_) events.nodup_dedup
      exact hdistinct a (mem_dedup.mp ha) b (mem_dedup.mp hb)
    have hsort : sortByKey Entry.hlc events.dedup = sorted :=
      (sortByKey_ascending hnodup).ext hasc fun x => by
        rw [(sortByKey_perm _ _).mem_iff, mem_dedup, hmem]
    simp only [normalForm, hsort, if_neg hne]
    exact congrArg some hn.eq

theorem delivered_append (key : PublicKey) (a b : List FeedVisit) :
    delivered key (a ++ b) = delivered key a ++ delivered key b := by
  simp [delivered]

theorem delivered_singleton (key : PublicKey) (v : FeedVisit) :
    delivered key [v] =
      if v.input.pubkey = key ∧ v.output ≠ .error .outOfMemory then [v.input.entry] else [] := by
  unfold delivered
  split <;> rename_i h
  · rw [filter_cons_of_pos (by simpa using h)]
    rfl
  · rw [filter_cons_of_neg (by simpa using h)]
    rfl

theorem mem_delivered {key : PublicKey} {run : List FeedVisit} {entry : Entry}
    (h : entry ∈ delivered key run) :
    ∃ v ∈ run, v.input.pubkey = key ∧ v.input.entry = entry := by
  obtain ⟨v, hv, rfl⟩ := mem_map.mp h
  obtain ⟨hrun, hcond⟩ := mem_filter.mp hv
  exact ⟨v, hrun, (of_decide_eq_true hcond).1, rfl⟩

variable {guard : Guard}

/-- A known origin never runs into the capacity of the table, and an unknown one
does not while the keys seen so far leave room. -/
theorem feed_holds (hwf : guard.Wf) (offer : Offer) {before : List FeedVisit}
    (hall : ∀ key, Holds guard.config.windowSize (delivered key before) (guard.origins.lookup key))
    (hdistinct : ∀ other ∈ delivered offer.pubkey before, other.hlc = offer.hlc →
      other = offer.entry)
    (hroom : guard.origins.lookup offer.pubkey = none → guard.count < guard.config.maxOrigins)
    (key : PublicKey) :
    Holds guard.config.windowSize
      (delivered key (before ++ [⟨guard, offer, (feed guard offer).1, (feed guard offer).2⟩]))
      ((feed guard offer).2.origins.lookup key) := by
  have hs := admit_step hwf offer.pubkey offer.hlc offer.relayId offer.alloc
  change GuardStep guard offer.pubkey offer.hlc offer.relayId (feed guard offer).1
    (feed guard offer).2 at hs
  rw [delivered_append, delivered_singleton]
  generalize (feed guard offer).1 = answer at hs ⊢
  generalize (feed guard offer).2 = next at hs ⊢
  cases hs with
  | known origin state answer hlookup hk =>
    by_cases hkey : key = offer.pubkey
    · subst hkey
      rw [lookup_insert]
      have hold := hall offer.pubkey
      rw [hlookup] at hold
      obtain ⟨sorted, hne, hasc, hmem, hn⟩ := hold
      by_cases hoom : answer = .error .outOfMemory
      · rw [if_neg (by simp [hoom]), append_nil]
        have hsame : state = origin := by
          cases hk with
          | noMemory => rfl
          | retained => split at hoom <;> cases hoom
          | _ => cases hoom
        exact hsame ▸ ⟨sorted, hne, hasc, hmem, hn⟩
      · rw [if_pos ⟨rfl, hoom⟩]
        obtain ⟨sorted', hasc', hmem', hn'⟩ := (show KnownStep _ _ offer.entry.hlc
          offer.entry.relayId _ _ from hk).normal hasc hn
          (fun other hother => hdistinct other ((hmem other).mp hother)) hoom
        refine ⟨sorted', ?_, hasc', fun x => ?_, hn'⟩
        · exact ne_nil_of_mem ((hmem' offer.entry).mpr (Or.inl rfl))
        · rw [hmem', hmem, mem_append, mem_singleton, or_comm]
    · rw [lookup_insert_ne hkey, if_neg (fun h => hkey h.1.symm), append_nil]
      exact hall key
  | capacity hlookup hfull => exact absurd (hroom hlookup) (Nat.not_lt.mpr hfull)
  | noMemory hlookup =>
    rw [if_neg (by simp), append_nil]
    exact hall key
  | fresh hlookup hcap =>
    by_cases hkey : key = offer.pubkey
    · subst hkey
      have hold := hall offer.pubkey
      rw [hlookup] at hold
      have hnil : delivered offer.pubkey before = [] := hold
      rw [lookup_insert, hnil, if_pos ⟨rfl, by simp⟩]
      refine ⟨[offer.entry], by simp, pairwise_singleton _ _, fun x => Iff.rfl, ?_, ?_⟩
      · exact ⟨[], rfl, rfl, Or.inl rfl⟩
      · exact (Config.valid_iff.mp hwf.valid).1.1
    · rw [lookup_insert_ne hkey, if_neg (fun h => hkey h.1.symm), append_nil]
      exact hall key

/-- Events of one origin have distinct clocks, and the origins fit the table. -/
structure Feedable (config : Config) (offers : List Offer) : Prop where
  distinct : ∀ a ∈ offers, ∀ b ∈ offers, a.pubkey = b.pubkey → a.hlc = b.hlc →
    a.relayId = b.relayId
  capacity : (offers.map Offer.pubkey).dedup.length ≤ config.maxOrigins

theorem feed_wf (offer : Offer) (hwf : guard.Wf) : (feed guard offer).2.Wf :=
  (admit_step hwf offer.pubkey offer.hlc offer.relayId offer.alloc).wf hwf

theorem feed_config (offer : Offer) (hwf : guard.Wf) :
    (feed guard offer).2.config = guard.config :=
  (admit_step hwf offer.pubkey offer.hlc offer.relayId offer.alloc).config

/-- While every known key is one of `keys`, an unknown key of `keys` finds room. -/
theorem count_lt_of_new {keys : List PublicKey} {pubkey : PublicKey}
    (hkeys : ∀ key, guard.origins.lookup key ≠ none → key ∈ keys) (hmem : pubkey ∈ keys)
    (hnew : guard.origins.lookup pubkey = none) : guard.count < keys.dedup.length := by
  have hnodup : (pubkey :: guard.origins.keys).Nodup :=
    nodup_cons.mpr ⟨fun h => lookup_eq_none.mp hnew (mem_keys.mpr h), guard.origins.keys_nodup⟩
  have hsub : pubkey :: guard.origins.keys ⊆ keys.dedup := by
    intro key hkey
    rw [mem_dedup]
    rcases mem_cons.mp hkey with rfl | hkey
    · exact hmem
    · exact hkeys key fun h => lookup_eq_none.mp h (mem_keys.mpr hkey)
  have hle := (subperm_of_subset hnodup hsub).length_le
  have hlen : guard.origins.keys.length = guard.count := length_map _
  rw [length_cons, hlen] at hle
  exact hle

theorem Holds.nonempty {events : List Entry} {state : Option OriginState}
    (h : Holds windowSize events state) (hstate : state ≠ none) : ∃ entry, entry ∈ events := by
  cases state with
  | none => exact absurd rfl hstate
  | some origin =>
    obtain ⟨sorted, hne, -, hmem, -⟩ := h
    obtain ⟨x, hx⟩ := exists_mem_of_ne_nil sorted hne
    exact ⟨x, (hmem x).mp hx⟩

theorem final_holds {all : List Offer} {config : Config} (hfeed : Feedable config all) :
    ∀ (offers : List Offer) (guard : Guard) (before : List FeedVisit), guard.Wf →
      guard.config = config →
      (∀ key, Holds config.windowSize (delivered key before) (guard.origins.lookup key)) →
      (∀ v ∈ before, v.input ∈ all) → (∀ offer ∈ offers, offer ∈ all) →
      (final feed guard offers).Wf ∧ (final feed guard offers).config = config ∧
        ∀ key, Holds config.windowSize (delivered key (before ++ visits feed guard offers))
          ((final feed guard offers).origins.lookup key) := by
  intro offers
  induction offers with
  | nil =>
    intro guard before hwf hconfig hall _ _
    refine ⟨hwf, hconfig, ?_⟩
    simpa [visits, final] using hall
  | cons offer offers ih =>
    rintro guard before hwf rfl hall hbefore hoffers
    have hoffer := hoffers offer mem_cons_self
    have hdistinct : ∀ other ∈ delivered offer.pubkey before, other.hlc = offer.hlc →
        other = offer.entry := by
      intro other hother hhlc
      obtain ⟨v, hv, hkey, rfl⟩ := mem_delivered hother
      have hid := hfeed.distinct _ (hbefore v hv) _ hoffer hkey hhlc
      simp only [Offer.entry] at hhlc ⊢
      rw [hhlc, hid]
    have hkeys : ∀ key, guard.origins.lookup key ≠ none → key ∈ all.map Offer.pubkey := by
      intro key hkey
      obtain ⟨entry, hentry⟩ := (hall key).nonempty hkey
      obtain ⟨v, hv, hvkey, -⟩ := mem_delivered hentry
      exact mem_map.mpr ⟨v.input, hbefore v hv, hvkey⟩
    have hroom : guard.origins.lookup offer.pubkey = none →
        guard.count < guard.config.maxOrigins := fun hnew =>
      (count_lt_of_new hkeys (mem_map_of_mem hoffer) hnew).trans_le hfeed.capacity
    have hstep := feed_holds hwf offer hall hdistinct hroom
    have hrest := ih (feed guard offer).2
      (before ++ [⟨guard, offer, (feed guard offer).1, (feed guard offer).2⟩])
      (feed_wf offer hwf) (feed_config offer hwf) hstep ?_
      (fun o ho => hoffers o (mem_cons_of_mem _ ho))
    · simpa [visits, final] using hrest
    · intro v hv
      rcases mem_append.mp hv with hv | hv
      · exact hbefore v hv
      · rw [mem_singleton.mp hv]
        exact hoffer

variable {offers : List Offer}

theorem visits_input_mem {v : FeedVisit}
    (hv : v ∈ visits feed guard offers) : v.input ∈ offers := by
  induction offers generalizing guard with
  | nil => cases hv
  | cons offer offers ih =>
    rcases mem_cons.mp hv with rfl | hv
    · exact mem_cons_self
    · exact mem_cons_of_mem _ (ih hv)

theorem delivered_distinct {config : Config} (hfeed : Feedable config offers)
    (key : PublicKey) :
    ∀ a ∈ delivered key (visits feed guard offers), ∀ b ∈ delivered key (visits feed guard offers),
      a.hlc = b.hlc → a = b := by
  intro a ha b hb hhlc
  obtain ⟨v, hv, hvkey, rfl⟩ := mem_delivered ha
  obtain ⟨w, hw, hwkey, rfl⟩ := mem_delivered hb
  have hid := hfeed.distinct _ (visits_input_mem hv) _ (visits_input_mem hw)
    (hvkey.trans hwkey.symm) hhlc
  simp only [Offer.entry] at hhlc ⊢
  rw [hhlc, hid]

theorem normalForm_congr {a b : List Entry}
    (hdistinct : ∀ x ∈ a, ∀ y ∈ a, x.hlc = y.hlc → x = y) (h : ∀ x, x ∈ a ↔ x ∈ b) :
    normalForm windowSize a = normalForm windowSize b := by
  have hnodup : ∀ events : List Entry, (∀ x, x ∈ events ↔ x ∈ a) →
      (events.dedup.map Entry.hlc).Nodup := by
    intro events hev
    refine List.Nodup.map_on (fun x hx y hy => ?_) events.nodup_dedup
    exact hdistinct x ((hev x).mp (mem_dedup.mp hx)) y ((hev y).mp (mem_dedup.mp hy))
  have hsort : sortByKey Entry.hlc a.dedup = sortByKey Entry.hlc b.dedup :=
    (sortByKey_ascending (hnodup a fun _ => Iff.rfl)).ext
      (sortByKey_ascending (hnodup b fun x => (h x).symm)) fun x => by
        rw [(sortByKey_perm _ _).mem_iff, (sortByKey_perm _ _).mem_iff, mem_dedup, mem_dedup, h]
  simp only [normalForm, hsort]

theorem Guard.Same.encodeCheckpoint (blake3 : Blake3) {a b : Guard} (h : a.Same b) (hwf : a.Wf)
    (alloc : Allocator) : a.encodeCheckpoint blake3 alloc = b.encodeCheckpoint blake3 alloc := by
  have hbody : a.body = b.body := congrArg encodeOrigins h.orderedOrigins
  have hpre : a.sealedPrefix = b.sealedPrefix := by
    rw [Guard.sealedPrefix, Guard.sealedPrefix, hbody, h.orderedOrigins, h.config]
  rw [encodeCheckpoint_eq blake3 hwf, encodeCheckpoint_eq blake3 (h.wf hwf), hbody, hpre]

/-- With memory at every reservation each call is answered. -/
theorem feed_memory {offer : Offer} (halloc : ∀ n, offer.alloc n = true) :
    (feed guard offer).1 ≠ .error .outOfMemory := by
  unfold feed Guard.admit
  cases guard.origins.lookup offer.pubkey with
  | some origin =>
    simp only [admitKnown, halloc, ↓reduceIte]
    split
    · simp
    split
    · simp
    split
    · simp
    · split
      · simp
      · split <;> simp
  | none =>
    simp only [halloc, Bool.not_true, Bool.false_eq_true, ↓reduceIte]
    split <;> simp

theorem delivered_of_memory
    (halloc : ∀ offer ∈ offers, ∀ n, offer.alloc n = true) (guard : Guard) (key : PublicKey) :
    delivered key (visits feed guard offers) = offered key offers := by
  induction offers generalizing guard with
  | nil => rfl
  | cons offer offers ih =>
    have hrest := ih (fun o ho => halloc o (mem_cons_of_mem _ ho)) (feed guard offer).2
    have hanswer := @feed_memory guard offer (halloc offer mem_cons_self)
    have hcons : visits feed guard (offer :: offers) =
        [⟨guard, offer, (feed guard offer).1, (feed guard offer).2⟩] ++
          visits feed (feed guard offer).2 offers := rfl
    rw [hcons, delivered_append, delivered_singleton, hrest]
    by_cases hkey : offer.pubkey = key
    · simp [offered, hkey, hanswer]
    · simp [offered, hkey]

/-- Order independence: the table is the normal form of what was delivered (with
memory, of everything offered), and the same delivered sets seal to the same bytes. -/
theorem feed_order_independent {config : Config} {guard : Guard}
    (hinit : Guard.init config = some guard) {offers : List Offer}
    (hfeed : Feedable config offers) :
    (∀ key, (final feed guard offers).origins.lookup key =
      normalForm config.windowSize (delivered key (visits feed guard offers))) ∧
    ((∀ offer ∈ offers, ∀ n, offer.alloc n = true) →
      ∀ key, delivered key (visits feed guard offers) = offered key offers) ∧
    ∀ offers', Feedable config offers' →
      (∀ key entry, entry ∈ delivered key (visits feed guard offers) ↔
        entry ∈ delivered key (visits feed guard offers')) →
      ∀ blake3 alloc, (final feed guard offers).encodeCheckpoint blake3 alloc =
        (final feed guard offers').encodeCheckpoint blake3 alloc := by
  have hwf := init_wf hinit
  have hguard : guard = { config, origins := ∅ } := by
    unfold Guard.init at hinit
    split at hinit
    · exact (Option.some.inj hinit).symm
    · cases hinit
  have hrun : ∀ offers', Feedable config offers' → (final feed guard offers').Wf ∧
      (final feed guard offers').config = config ∧
      ∀ key, (final feed guard offers').origins.lookup key =
        normalForm config.windowSize (delivered key (visits feed guard offers')) := by
    intro offers' hfeed'
    obtain ⟨hwf', hconfig', hholds⟩ := final_holds hfeed' offers' guard [] hwf
      (by rw [hguard]) (fun key => by rw [hguard, lookup_empty]; rfl)
      (fun v hv => by cases hv) (fun o ho => ho)
    exact ⟨hwf', hconfig', fun key => (hholds key).eq_normalForm (delivered_distinct hfeed' key)⟩
  obtain ⟨hwf1, hconfig1, hform1⟩ := hrun offers hfeed
  refine ⟨hform1, fun halloc => delivered_of_memory halloc guard,
    fun offers' hfeed' hsets blake3 alloc => ?_⟩
  obtain ⟨-, hconfig2, hform2⟩ := hrun offers' hfeed'
  have hsame : (final feed guard offers).Same (final feed guard offers') := by
    refine ⟨hconfig1.trans hconfig2.symm, fun key => ?_⟩
    rw [hform1, hform2]
    exact normalForm_congr (delivered_distinct hfeed key) (hsets key)
  exact hsame.encodeCheckpoint blake3 hwf1 alloc

/-- Three events at a window of two, in two orders and with a repetition. -/
theorem feed_order_independent_three :
    let key : PublicKey := FixedBytes.splat 32 1
    let event (hlc : UInt64) (byte : UInt8) : Offer :=
      ⟨key, hlc, FixedBytes.splat 16 byte, fun _ => true⟩
    let offers := [event 5 1, event 7 2, event 6 3]
    let offers' := [event 6 3, event 7 2, event 6 3, event 5 1]
    let guard : Guard := { config := ⟨2, 1⟩, origins := ∅ }
    Feedable ⟨2, 1⟩ offers ∧ Feedable ⟨2, 1⟩ offers' ∧
      ∀ blake3 alloc, (final feed guard offers).encodeCheckpoint blake3 alloc =
        (final feed guard offers').encodeCheckpoint blake3 alloc := by
  intro key event offers offers' guard
  have hfeed : Feedable ⟨2, 1⟩ offers := ⟨by decide, by decide⟩
  have hfeed' : Feedable ⟨2, 1⟩ offers' := ⟨by decide, by decide⟩
  have hinit : Guard.init ⟨2, 1⟩ = some guard := rfl
  have hmem : ∀ offer ∈ offers, ∀ n, offer.alloc n = true := by simp [offers, event]
  have hmem' : ∀ offer ∈ offers', ∀ n, offer.alloc n = true := by simp [offers', event]
  have hresult := feed_order_independent hinit hfeed
  refine ⟨hfeed, hfeed', hresult.2.2 offers' hfeed' fun key' entry => ?_⟩
  rw [hresult.2.1 hmem, (feed_order_independent hinit hfeed').2.1 hmem']
  by_cases hkey : key = key'
  · simp [offered, offers, offers', event, hkey, Offer.entry]
    tauto
  · simp [offered, offers, offers', event, hkey]

/-- One slot in the origin table: whichever origin arrives first keeps it, so the
same two events in the other order leave another table and other bytes. -/
theorem feed_order_dependent_at_capacity :
    let a : Offer := ⟨FixedBytes.splat 32 1, 5, FixedBytes.splat 16 1, fun _ => true⟩
    let b : Offer := ⟨FixedBytes.splat 32 2, 6, FixedBytes.splat 16 2, fun _ => true⟩
    let zero : Blake3 := fun _ => FixedBytes.splat 32 0
    let guard : Guard := { config := ⟨1, 1⟩, origins := ∅ }
    Guard.init ⟨1, 1⟩ = some guard ∧ [a, b].Perm [b, a] ∧
      (final feed guard [a, b]).origins.lookup b.pubkey = none ∧
      (final feed guard [a, b]).encodeCheckpoint zero (fun _ => true) ≠
        (final feed guard [b, a]).encodeCheckpoint zero (fun _ => true) := by
  refine ⟨rfl, List.Perm.swap _ _ _, by decide +kernel, by decide +kernel⟩

end OnyxServer.ReplayGuard
