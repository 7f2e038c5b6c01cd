import OnyxServer.Access.LocalWrites

/-!
# The rows that a copy writes

Every staged row is written once, over the row of its identity or as a new one, and no other
row is touched. The stamps are past those of all rows that the store holds.
-/
namespace OnyxServer.Access

open Lib Text List

variable {store next : AccessStore} {destination source : Bytes}

/-- What a copy does to a row of the destination: it is the write of its staged row. -/
structure Copied (store : AccessStore) (staged row : Entry) : Prop where
  identity : row.identity = staged.identity
  duration : row.duration = store.stampDuration staged.duration row.hlc
  expiresAt : row.expiresAt = anchoredExpiry store.nowSeconds row.hlc row.duration

/-- The write of a staged row in full: the setter is copied, the stamp is the store's own, and
a row that was there keeps the octets of its names. -/
structure CopyOf (store : AccessStore) (staged row : Entry) :
    Prop extends Copied store staged row where
  setBy : row.setBy = staged.setBy
  originNode : row.originNode = store.localNode
  originProof : row.originProof = none
  stamp : store.hlc < row.hlc ∨ (store.hlc = topHlc ∧ row.hlc = topHlc)
  kept : ∀ old ∈ store.entries, old.identity = staged.identity → row.channel = old.channel ∧
    row.mask = old.mask
  fresh : (∀ old ∈ store.entries, old.identity ≠ staged.identity) →
    row.channel = staged.channel ∧ row.mask = staged.mask

/-- All staged rows are written, and nothing else. -/
structure CopiedAll (store : AccessStore) (staged : List Entry) (next : AccessStore) : Prop where
  wellFormed : WellFormed next
  nowSeconds : next.nowSeconds = store.nowSeconds
  written : ∀ row ∈ staged, ∃ e ∈ next.entries, CopyOf store row e
  kept : ∀ e ∈ store.entries, (∀ row ∈ staged, row.identity ≠ e.identity) → e ∈ next.entries
  only : ∀ e ∈ next.entries, (∃ row ∈ staged, CopyOf store row e) ∨
    (e ∈ store.entries ∧ ∀ row ∈ staged, row.identity ≠ e.identity)

theorem drop_rows (store : AccessStore) (channel : Bytes) (level : Level) (mask : Bytes) :
    (store.dropTombstone channel level mask).entries = store.entries ∧
      (store.dropTombstone channel level mask).maxEntries = store.maxEntries := by
  have hdrop := drop_step store channel level mask
  generalize store.dropTombstone channel level mask = next at hdrop
  cases hdrop <;> exact ⟨rfl, rfl⟩

/-- An unsigned write keeps the octets of the row that it replaces. -/
theorem upsert_octets (hwf : WellFormed store) {w : Write} {alloc : Bool} (hproof : w.proof = none)
    (h : store.upsert w alloc = (.ok (), next)) {row : Entry} (hrow : row ∈ next.entries)
    (hkey : row.identity = w.identity) :
    (∀ old ∈ store.entries, old.identity = w.identity → row.channel = old.channel ∧
      row.mask = old.mask) ∧
      ((∀ old ∈ store.entries, old.identity ≠ w.identity) → row.channel = w.channel ∧
        row.mask = w.mask) := by
  have hrows := hwf.rows
  unfold AccessStore.upsert at h
  cases hfind : store.findIndex w.channel w.level w.mask with
  | some idx =>
    obtain ⟨l, old, r, hsplit, rfl, hold⟩ := findIndex_split hfind
    have hget : store.entries[l.length]? = some old := by
      rw [hsplit]
      exact getElem?_middle l r old
    rw [hsplit] at hrows
    obtain ⟨-, hne⟩ := (distinctKeys_split Entry.identity l r old).mp hrows
    simp only [hfind, hget] at h
    split at h
    · cases h
    cases h
    simp only [hsplit, set_split] at hrow
    rcases mem_split.mp hrow with rfl | hother
    · refine ⟨fun old' hmem hkey' => ?_,
        fun hnone => absurd hold (hnone old (by rw [hsplit]; simp))⟩
      rw [hsplit] at hmem
      obtain rfl := hrows.eq_of_key hmem (mem_split.mpr (.inl rfl)) (hkey'.trans hold.symm)
      simp [hproof]
    · exact absurd (hkey.trans hold.symm) (hne row hother)
  | none =>
    have hnone := findIndex_none hfind
    simp only [hfind] at h
    split at h
    · cases h
    split at h
    · cases h
    cases h
    rcases mem_append.mp hrow with hmem | hmem
    · exact absurd hkey (hnone row hmem)
    · obtain rfl := mem_singleton.mp hmem
      exact ⟨fun old hmem hkey' => absurd hkey' (hnone old hmem), fun _ => ⟨rfl, rfl⟩⟩

theorem copyRow_step (hwf : WellFormed store) {first : Entry}
    (hchannel : first.channel = destination) {alloc : Bool} {middle : AccessStore}
    (hput : store.nextHlc.2.upsert
      { channel := destination, level := first.level, mask := first.mask, setBy := first.setBy
        duration := store.nextHlc.2.stampDuration first.duration store.nextHlc.1, hlc :=
          store.nextHlc.1
        originNode := store.nextHlc.2.localNode, proof := none } alloc = (.ok (), middle)) :
    ∃ row, CopyOf store first row ∧
    WellFormed (middle.dropTombstone destination first.level first.mask) ∧
      SameClock store.nextHlc.2 (middle.dropTombstone destination first.level first.mask) ∧
      ∀ e, e ∈ (middle.dropTombstone destination first.level first.mask).entries ↔
        e = row ∨ (e ∈ store.entries ∧ e.identity ≠ first.identity) := by
  have hclocked := (LocalStep.nextHlc hwf).wellFormed
  obtain ⟨row, hstep⟩ := put_step hclocked hput
  have hfirst : first.identity = identity destination first.level first.mask := by
    rw [Entry.identity, hchannel]
  have hkey : row.identity = first.identity := hstep.wrote.identity.trans hfirst.symm
  have hrow : row ∈ middle.entries := by
    rw [← (drop_rows middle destination first.level first.mask).1]
    exact (hstep.rows row).mpr (.inl rfl)
  obtain ⟨hover, hfresh⟩ := upsert_octets hclocked rfl hput hrow hstep.wrote.identity
  refine ⟨row, ⟨⟨hkey, ?_, ?_⟩, hstep.wrote.setBy, hstep.wrote.originNode, hstep.wrote.originProof,
    ?_, ?_, ?_⟩, hstep.wellFormed, hstep.clock, fun e => ?_⟩
  · rw [hstep.wrote.duration, hstep.wrote.hlc]
    rfl
  · rw [hstep.wrote.expiresAt, hstep.wrote.hlc, hstep.wrote.duration]
    rfl
  · rw [hstep.wrote.hlc]
    exact nextHlc_above store
  · exact fun old hold hsame => hover old hold (hsame.trans hfirst)
  · intro hnone
    rw [hchannel]
    exact hfresh fun old hold hsame => hnone old hold (hsame.trans hfirst.symm)
  · rw [hfirst]
    exact hstep.rows e

theorem CopyOf.before {row e first : Entry} (h : CopyOf next row e)
    (hnow : next.nowSeconds = store.nowSeconds)
    (hnode : next.localNode = store.localNode) (hhlc : store.hlc ≤ next.hlc)
    (hrows : ∀ e', e' ∈ next.entries ↔ e' = first ∨
      (e' ∈ store.entries ∧ e'.identity ≠ first.identity))
    (hne : row.identity ≠ first.identity) : CopyOf store row e where
  identity := h.identity
  duration := by
    rw [h.duration]
    simp only [AccessStore.stampDuration, hnow]
  expiresAt := hnow ▸ h.expiresAt
  setBy := h.setBy
  originNode := h.originNode.trans hnode
  originProof := h.originProof
  stamp := by
    rcases h.stamp with habove | ⟨htop, hlast⟩
    · exact .inl (lt_of_le_of_lt hhlc habove)
    · rcases eq_or_lt_of_le hhlc with heq | hlt
      · exact .inr ⟨heq.trans htop, hlast⟩
      · exact .inl (by rw [hlast, ← htop]; exact hlt)
  kept old hold hsame := h.kept old ((hrows old).mpr (.inr ⟨hold, hsame ▸ hne⟩)) hsame
  fresh hnone := by
    refine h.fresh fun old hold hsame => ?_
    rcases (hrows old).mp hold with rfl | ⟨hmem, -⟩
    · exact hne hsame.symm
    · exact hnone old hmem hsame

theorem copyRows_all {alloc : Nat → Bool} {staged : List Entry} {copied count : Nat}
    (hwf : WellFormed store)
    (hdistinct : DistinctKeys Entry.identity staged)
    (hchannel : ∀ row ∈ staged, row.channel = destination)
    (hok : (AccessStore.copyRows destination alloc staged copied store).1 = .ok count) :
    CopiedAll store staged (AccessStore.copyRows destination alloc staged copied store).2 := by
  induction staged generalizing store copied with
  | nil => exact ⟨hwf, rfl, nofun, fun e he _ => he, fun e he => .inr ⟨he, nofun⟩⟩
  | cons first staged ih =>
    obtain ⟨hrest, hfirst⟩ := (distinctKeys_split Entry.identity [] staged first).mp hdistinct
    obtain ⟨hfirstChannel, hrestChannel⟩ := forall_mem_cons.mp hchannel
    unfold AccessStore.copyRows at hok ⊢
    dsimp only at hok ⊢
    split at hok
    · cases hok
    rename_i middle hput
    obtain ⟨row, hrow, hwf', hclock, hrows⟩ := copyRow_step hwf hfirstChannel hput
    have hall := ih hwf' hrest hrestChannel hok
    rw [← hrow.identity] at hfirst
    have hsame : ∀ e, e ∈ (middle.dropTombstone destination first.level first.mask).entries ↔
        e = row ∨ (e ∈ store.entries ∧ e.identity ≠ row.identity) := fun e => by
      rw [hrow.identity]
      exact hrows e
    have hback : ∀ later ∈ staged, ∀ e,
        CopyOf (middle.dropTombstone destination first.level first.mask) later e →
          CopyOf store later e :=
      fun later hlater e hcopy => hcopy.before hclock.nowSeconds hclock.localNode
        (hclock.hlc ▸ le_nextHlc store) hsame (hfirst later hlater)
    refine ⟨hall.wellFormed, hall.nowSeconds.trans hclock.nowSeconds, ?_, ?_, ?_⟩
    · refine forall_mem_cons.mpr ⟨⟨row, ?_, hrow⟩, fun later hlater => ?_⟩
      · exact hall.kept row ((hrows row).mpr (.inl rfl)) hfirst
      · obtain ⟨e, he, hcopy⟩ := hall.written later hlater
        exact ⟨e, he, hback later hlater e hcopy⟩
    · intro e he hne
      obtain ⟨hne, hne'⟩ := forall_mem_cons.mp hne
      exact hall.kept e ((hrows e).mpr (.inr ⟨he, Ne.symm hne⟩)) hne'
    · intro e he
      rcases hall.only e he with ⟨later, hlater, hcopy⟩ | ⟨hmem, hne⟩
      · exact .inl ⟨later, mem_cons_of_mem first hlater, hback later hlater e hcopy⟩
      · rcases (hrows e).mp hmem with rfl | ⟨hold, hother⟩
        · exact .inl ⟨first, mem_cons_self, hrow⟩
        · exact .inr ⟨hold, forall_mem_cons.mpr ⟨Ne.symm hother, hne⟩⟩

/-- What tells the rows of one channel apart. -/
def Entry.rowKey (e : Entry) : Level × Bytes := (e.level, lowerString e.mask)

theorem template_channel {e : Entry} (h : e ∈ store.template source) :
    lowerString e.channel = lowerString source :=
  eqlIgnoreCase_iff.mp (Bool.and_eq_true_iff.mp (mem_filter.mp h).2).2

theorem template_keys_nodup (hwf : WellFormed store) (source : Bytes) :
    ((store.template source).map Entry.rowKey).Nodup := by
  have hsub : (store.template source).Nodup := (hwf.rows.of_map _).sublist filter_sublist
  refine List.Nodup.map_on (fun e he e' he' heq => ?_) hsub
  obtain ⟨hlevel, hmask⟩ := Prod.mk.inj heq
  refine hwf.rows.eq_of_key (mem_filter.mp he).1 (mem_filter.mp he').1 ?_
  rw [Entry.identity, Entry.identity, identity, identity, template_channel he, template_channel he',
    hlevel, hmask]

/-- The rows of one channel stay apart when they are staged for another. -/
theorem staged_distinct (hwf : WellFormed store) (destination source : Bytes) :
    DistinctKeys Entry.identity ((store.template source).map (store.stagedRow destination)) := by
  have hnodup := (template_keys_nodup hwf source).map
    (f := fun key : Level × Bytes => (⟨lowerString destination, key.1, key.2⟩ : Identity))
    (fun key key' heq => Prod.ext (congrArg Identity.level heq) (congrArg Identity.mask heq))
  rw [map_map] at hnodup
  rw [DistinctKeys, map_map]
  exact hnodup

/-- A copy that succeeds writes the live rows of the source. -/
theorem copyTemplate_all (hwf : WellFormed store) {removed : Nat} {allocs : AccessStore.CopyAllocs}
    {result : CopyResult}
    (hok : (store.copyTemplate destination source removed allocs).1 = .ok result) :
    CopiedAll store ((store.template source).map (store.stagedRow destination))
      (store.copyTemplate destination source removed allocs).2 := by
  unfold AccessStore.copyTemplate at hok ⊢
  dsimp only at hok ⊢
  split at hok
  · cases hok
  rename_i hroom
  split at hok
  · cases hok
  rename_i hstage
  split at hok
  · cases hok
  rename_i count next hcopy
  rw [if_neg hroom, if_neg hstage]
  have hcopied : (AccessStore.copyRows destination allocs.write
      ((store.template source).map (store.stagedRow destination)) 0 store).1 = .ok count := by
    rw [hcopy]
  have hall := copyRows_all hwf (staged_distinct hwf destination source)
    (fun row hrow => by obtain ⟨e, -, rfl⟩ := mem_map.mp hrow; rfl) hcopied
  rwa [hcopy] at hall

end OnyxServer.Access
