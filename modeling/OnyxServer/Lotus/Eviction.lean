import OnyxServer.Lotus.Accounting

/-!
# Eviction and admission

Every round of the eviction loop drops one entry, and once nothing is left the new entry
fits, because its budget was checked first. The loop therefore ends, finds an entry in every
round, and never meets the entry that is appended behind it.
-/
namespace OnyxServer.Lotus

open Lib List AList Option

variable {params : Params} {blake3 : Blake3} {store : Lotus}

theorem foldl_oldest {older : EvictionCandidate → EvictionCandidate → Bool}
    {all : List EvictionCandidate} {start : Option EvictionCandidate} :
    let oldest := all.foldl (fun oldest candidate =>
      match oldest with
      | none => some candidate
      | some current => if older candidate current then some candidate else some current) start
    (oldest = none → all = [] ∧ start = none) ∧ ∀ candidate, oldest = some candidate →
      candidate ∈ all ∨ start = some candidate := by
  induction all generalizing start with
  | nil => exact ⟨fun h => ⟨rfl, h⟩, fun candidate h => .inr h⟩
  | cons first rest ih =>
    simp only [foldl_cons]
    constructor
    · intro h
      have hstart := (ih.1 h).2
      split at hstart
      · cases hstart
      · split at hstart <;> cases hstart
    · intro candidate h
      rcases ih.2 candidate h with hmem | hstart
      · exact .inl (mem_cons_of_mem _ hmem)
      split at hstart
      · cases hstart
        exact .inl mem_cons_self
      split at hstart
      · cases hstart
        exact .inl mem_cons_self
      · exact .inr hstart

theorem mem_candidates {candidate : EvictionCandidate} (h : candidate ∈ store.candidates params) :
    ∃ log, store.targets.lookup candidate.target = some log ∧ candidate.index < log.len := by
  obtain ⟨row, hrow, hcandidate⟩ := mem_flatMap.mp h
  obtain ⟨index, hindex, rfl⟩ := List.mem_map.mp hcandidate
  exact ⟨row.2, mem_lookup_iff.mpr hrow, mem_range.mp hindex⟩

theorem candidates_nil (h : store.candidates params = []) : store.totalStoredCount = 0 := by
  rw [Lotus.totalStoredCount, tableSum]
  refine List.sum_eq_zero_iff_forall_eq_nat.mpr fun len hlen => ?_
  obtain ⟨row, hrow, rfl⟩ := List.mem_map.mp hlen
  have hnil := flatMap_eq_nil_iff.mp h row hrow
  rw [map_eq_nil_iff, range_eq_nil] at hnil
  exact hnil

section Evict

variable {incoming : Bytes} {newEntryLen : Nat}

/-- What eviction for `incoming` leaves behind. -/
structure Drained (params : Params) (blake3 : Blake3) (incoming : Bytes) (before after : Lotus) :
    Prop where
  draining : Draining params blake3 (some incoming) after
  present : (after.targets.lookup incoming).isNone = (before.targets.lookup incoming).isNone
  shorter : ∀ log ∈ after.targets.lookup incoming, ∃ old ∈ before.targets.lookup incoming,
    log.len ≤ old.len
  count : after.count ≤ before.count

theorem Drained.trans {a b c : Lotus} (hab : Drained params blake3 incoming a b)
    (hbc : Drained params blake3 incoming b c) :
    Drained params blake3 incoming a c := by
  refine ⟨hbc.draining, hbc.present.trans hab.present, fun log hlog => ?_,
    hbc.count.trans hab.count⟩
  obtain ⟨middle, hmiddle, hle⟩ := hbc.shorter log hlog
  obtain ⟨old, hold, hle'⟩ := hab.shorter middle hmiddle
  exact ⟨old, hold, hle.trans hle'⟩

theorem evictGlobalOldest_spec (hstore : Draining params blake3 (some incoming) store)
    (htotal : store.totalStoredCount ≠ 0) :
    ∃ after, store.evictGlobalOldest params incoming = some after ∧
      store.totalStoredCount = after.totalStoredCount + 1 ∧
      Drained params blake3 incoming store after := by
  have hfold := @foldl_oldest isOlder (store.candidates params) none
  cases holdest : store.globalOldest params with
  | none => exact absurd (candidates_nil (hfold.1 holdest).1) htotal
  | some candidate =>
    have hmem : candidate ∈ store.candidates params := by
      rcases hfold.2 candidate holdest with hmem | hnone
      · exact hmem
      · cases hnone
    obtain ⟨log, hlog, hindex⟩ := mem_candidates hmem
    have hwf := hstore.logs candidate.target log hlog
    rw [Lotus.evictGlobalOldest, holdest]
    simp only [hlog]
    have hisSome : (store.targets.lookup candidate.target).isSome = true := by rw [hlog]; rfl
    by_cases hkeep : log.len - 1 ≠ 0 ∨ candidate.target = incoming
    · rw [if_pos hkeep]
      refine ⟨_, rfl, totalStoredCount_dropEntry hlog hwf hindex, ?_⟩
      have hdraining :
          Draining params blake3 (some incoming)
          (store.dropEntry params candidate.target log candidate.index) := by
        refine hstore.dropEntry hlog hindex fun hother => ?_
        rcases hkeep with hlong | hsame
        · exact hlong
        · exact absurd (congrArg some hsame.symm) hother
      refine ⟨hdraining, ?_, fun found hfound => ?_, (HashMap.count_insert_old hisSome).le⟩
      · by_cases hsame : incoming = candidate.target
        · rw [Lotus.dropEntry, hsame, lookup_insert, hlog]
          rfl
        · rw [Lotus.dropEntry, lookup_insert_ne hsame]
      · by_cases hsame : incoming = candidate.target
        · rw [Lotus.dropEntry, hsame, lookup_insert] at hfound
          cases hfound
          refine ⟨log, by rw [hsame]; exact hlog, ?_⟩
          rw [(view_dropEntry hwf hindex).2]
          omega
        · rw [Lotus.dropEntry, lookup_insert_ne hsame] at hfound
          exact ⟨found, hfound, le_rfl⟩
    · rw [if_neg hkeep]
      rw [not_or, not_not] at hkeep
      obtain ⟨hlast, hother⟩ := hkeep
      obtain ⟨hdraining, hcount⟩ := hstore.dropTarget hlog hindex hlast
      have hne : incoming ≠ candidate.target := Ne.symm hother
      have hlookup : ((store.dropEntry params candidate.target log candidate.index).dropTarget
          candidate.target).targets.lookup incoming = store.targets.lookup incoming := by
        rw [Lotus.dropTarget, lookup_erase_ne hne, Lotus.dropEntry, lookup_insert_ne hne]
      refine ⟨_, rfl, hcount, hdraining, by rw [hlookup], fun found hfound => ?_, ?_⟩
      · rw [hlookup] at hfound
        exact ⟨found, hfound, le_rfl⟩
      · exact ((kerase_sublist _ _).length_le).trans (HashMap.count_insert_old hisSome).le

/-- Where nothing is left, at most the ring of the incoming target takes up anything. -/
theorem bodyBytes_empty (hstore : Draining params blake3 (some incoming) store)
    (htotal : store.totalStoredCount = 0) :
    bodyBytes params store + addedLen store incoming newEntryLen =
      checkpointTargetPrefixLen + incoming.length + newEntryLen := by
  have hempty : ∀ target log, store.targets.lookup target = some log → log.len = 0 := by
    intro target log h
    have hle : log.len ≤ store.totalStoredCount := @tableSum_le _ _ _ (fun _ log => log.len) _ _ _ h
    omega
  have honly : ∀ target log, store.targets.lookup target = some log → target = incoming := by
    intro target log h
    by_contra hne
    have hpos := hstore.nonempty target log h fun heq => hne (some.inj heq).symm
    have hzero := hempty target log h
    omega
  rw [addedLen]
  cases hlookup : store.targets.lookup incoming with
  | none =>
    have hnil : store.targets.entries = [] := by
      rw [eq_nil_iff_forall_not_mem]
      intro row hrow
      have hrowLookup : store.targets.lookup row.1 = some row.2 := mem_lookup_iff.mpr hrow
      rw [honly _ _ hrowLookup, hlookup] at hrowLookup
      cases hrowLookup
    rw [bodyBytes, tableSum, hnil]
    simp
  | some log =>
    have hrest : (store.targets.erase incoming).entries = [] := by
      rw [eq_nil_iff_forall_not_mem]
      intro row hrow
      have hrowLookup : (store.targets.erase incoming).lookup row.1 = some row.2 :=
        mem_lookup_iff.mpr hrow
      by_cases hsame : row.1 = incoming
      · rw [hsame, lookup_erase] at hrowLookup
        cases hrowLookup
      · rw [lookup_erase_ne hsame] at hrowLookup
        exact hsame (honly _ _ hrowLookup)
    have hview : log.view params.maxPerTarget = [] := by
      rw [← length_eq_zero_iff, RingBuffer.length_view, hempty incoming log hlookup]
    rw [bodyBytes, tableSum_erase hlookup, tableSum, hrest, logBytes, hview]
    simp

/-- The loop ends with room for the entry. -/
theorem evictLoop_spec
    (hminimum : checkpointBodyFits (checkpointTargetPrefixLen + incoming.length + newEntryLen)
      params.maxCheckpointBytes = true)
    {rounds : Nat} (hstore : Draining params blake3 (some incoming) store)
    (hrounds : store.totalStoredCount ≤ rounds) (evicted : Bool) :
    ∃ after flag, evictLoop params incoming newEntryLen rounds store evicted = .done (after, flag) ∧
      after.appendFitsCheckpoint params incoming newEntryLen = true ∧
      Drained params blake3 incoming store after := by
  induction rounds generalizing store evicted with
  | zero =>
    have hfits : store.appendFitsCheckpoint params incoming newEntryLen = true := by
      rw [appendFitsCheckpoint_iff, hstore.counted, bodyBytes_empty hstore (by omega)]
      exact hminimum
    exact ⟨store, evicted, by
      rw [evictLoop, if_pos hfits], hfits, hstore, rfl, fun log hlog => ⟨log, hlog, le_rfl⟩, le_rfl⟩
  | succ rounds ih =>
    cases hfits : store.appendFitsCheckpoint params incoming newEntryLen with
    | true =>
      exact ⟨store, evicted, by
        rw [evictLoop, if_pos hfits], hfits, hstore, rfl, fun log hlog =>
        ⟨log, hlog, le_rfl⟩, le_rfl⟩
    | false =>
      have htotal : store.totalStoredCount ≠ 0 := by
        intro hzero
        rw [← Bool.not_eq_true, appendFitsCheckpoint_iff, hstore.counted,
          bodyBytes_empty hstore hzero] at hfits
        exact hfits hminimum
      obtain ⟨next, hnext, hcount, hdrained⟩ := evictGlobalOldest_spec hstore htotal
      obtain ⟨after, flag, hloop, hfit, hrest⟩ := ih hdrained.draining (by omega) true
      refine ⟨after, flag, ?_, hfit, hdrained.trans hrest⟩
      rw [evictLoop, hfits, if_neg (by simp)]
      simp only [hnext]
      exact hloop

end Evict

section Append

variable {target : Bytes} {stored : StoredMessage} {newEntryLen : Nat}

/-- The newest entry of a target. -/
def newest (params : Params) (store : Lotus) (target : Bytes) : Option StoredMessage :=
  (store.targets.lookup target).bind fun log => (log.view params.maxPerTarget).getLast?

/-- What an append that goes through leaves behind. -/
structure Appended (params : Params) (blake3 : Blake3) (store : Lotus) (target : Bytes)
    (stored : StoredMessage) (answer : Outcome Error AppendResult × Lotus) : Prop where
  done : ∃ result, answer.1 = .done result
  wf : Wf params blake3 answer.2
  newest : newest params answer.2 target = some stored

variable {log : TargetLog}

theorem logBytes_appendTake (hlen : log.len < params.maxPerTarget) :
    logBytes params target (log.appendTake params.maxPerTarget stored) =
      logBytes params target log + checkpointStoredEntryBodyLen stored := by
  rw [logBytes, RingBuffer.view_appendTake hlen, map_append, sum_append, logBytes]
  simp only [map_cons, map_nil, sum_cons, sum_nil]
  omega

theorem LogWf.appendTake (hlog : LogWf params blake3 target log)
    (hlen : log.len < params.maxPerTarget)
    (hstored : stored.Wf params blake3) :
    LogWf params blake3 target (log.appendTake params.maxPerTarget stored) := by
  refine ⟨hlog.targetNonempty, hlog.targetBound, ?_, fun message hmessage => ?_⟩
  · rw [RingBuffer.appendTake, if_neg (by omega)]
    exact hlen
  · rw [RingBuffer.view_appendTake hlen] at hmessage
    rcases mem_append.mp hmessage with hold | hnew
    · exact hlog.messages message hold
    · rw [mem_singleton.mp hnew]
      exact hstored

theorem len_appendTake (hlen : log.len < params.maxPerTarget) :
    (log.appendTake params.maxPerTarget stored).len = log.len + 1 := by
  rw [RingBuffer.appendTake, if_neg (by omega)]

/-- One more message in the ring of the target, where the bytes and the targets add up. -/
theorem Draining.insertTake {body : Nat} (hstore : Draining params blake3 (some target) store)
    (hlog : LogWf params blake3 target log) (hlen : log.len < params.maxPerTarget)
    (hstored : stored.Wf params blake3)
    (hcounted : body =
      tableSum (logBytes params)
      (store.targets.insert target (log.appendTake params.maxPerTarget stored)))
    (hfits : checkpointBodyFits body params.maxCheckpointBytes = true)
    (hcount :
      (store.targets.insert target (log.appendTake params.maxPerTarget stored)).entries.length ≤
      params.maxTargets) :
    Wf params blake3
      ⟨store.targets.insert target (log.appendTake params.maxPerTarget stored), body⟩ ∧
      newest params ⟨store.targets.insert target (log.appendTake params.maxPerTarget stored),
        body⟩ target =
        some stored := by
  constructor
  · refine hstore.inserted (hlog.appendTake hlen hstored) hcounted hfits hcount (fun _ => ?_)
      fun other hother _ heq => hother (some.inj heq).symm
    rw [len_appendTake hlen]
    exact Nat.succ_pos _
  · simp only [newest, lookup_insert, bind_some, RingBuffer.view_appendTake hlen,
      List.getLast?_append, List.getLast?_singleton, some_or]

/-- Appending to a ring that is there, once there is room. -/
theorem Draining.insertPresent (hstore : Draining params blake3 (some target) store)
    (hlookup : store.targets.lookup target = some log) (hlen : log.len < params.maxPerTarget)
    (hstored : stored.Wf params blake3) (hlenEq : checkpointStoredEntryBodyLen stored = newEntryLen)
    (hfits : store.appendFitsCheckpoint params target newEntryLen = true) :
    Wf params blake3 ⟨store.targets.insert target (log.appendTake params.maxPerTarget stored),
        store.checkpointBodyLen + newEntryLen⟩ ∧
      newest params ⟨store.targets.insert target (log.appendTake params.maxPerTarget stored),
        store.checkpointBodyLen + newEntryLen⟩ target = some stored := by
  have hlog := hstore.logs target log hlookup
  have hisSome : (store.targets.lookup target).isSome = true := by rw [hlookup]; rfl
  refine hstore.insertTake hlog hlen hstored ?_ ?_
    ((HashMap.count_insert_old hisSome).trans_le hstore.targetsBound)
  · rw [tableSum_insert, logBytes_appendTake hlen, hstore.counted, bodyBytes,
      tableSum_erase hlookup, hlenEq]
    omega
  · rw [appendFitsCheckpoint_iff, addedLen, hlookup] at hfits
    simpa using hfits

theorem Draining.insertAbsent (hstore : Draining params blake3 (some target) store)
    (hlookup : store.targets.lookup target = none) (hcap : 0 < params.maxPerTarget)
    (htarget : 0 < target.length)
    (htargetBound : target.length ≤ params.maxTarget) (hcount : store.count < params.maxTargets)
    (hstored : stored.Wf params blake3) (hlenEq : checkpointStoredEntryBodyLen stored = newEntryLen)
    (hfits : store.appendFitsCheckpoint params target newEntryLen = true)
    (slots : Nat → StoredMessage) :
    Wf params blake3
        ⟨store.targets.insert target
            ((⟨slots, 0, 0⟩ : TargetLog).appendTake params.maxPerTarget stored),
          store.checkpointBodyLen + (checkpointTargetPrefixLen + target.length + newEntryLen)⟩ ∧
      newest params
        ⟨store.targets.insert target
            ((⟨slots, 0, 0⟩ : TargetLog).appendTake params.maxPerTarget stored),
          store.checkpointBodyLen + (checkpointTargetPrefixLen + target.length + newEntryLen)⟩
        target = some stored := by
  have hempty : LogWf params blake3 target ⟨slots, 0, 0⟩ :=
    ⟨htarget, htargetBound, Nat.zero_le _, nofun⟩
  have hlen : (⟨slots, 0, 0⟩ : TargetLog).len < params.maxPerTarget := hcap
  refine hstore.insertTake hempty hlen hstored ?_ ?_ ?_
  · rw [tableSum_insert_new hlookup, logBytes_appendTake hlen, hstore.counted, bodyBytes, hlenEq]
    show _ = checkpointTargetPrefixLen + target.length + 0 + newEntryLen + _
    omega
  · rw [appendFitsCheckpoint_iff, addedLen, hlookup] at hfits
    exact hfits
  · rw [entries_insert_of_notMem (lookup_eq_none.mp hlookup)]
    exact hcount

theorem Wf.draining (h : Wf params blake3 store) (incoming : Bytes) :
    Draining params blake3 (some incoming) store :=
  ⟨h.counted, h.fits, h.targetsBound, h.logs,
    fun target log hlookup _ => h.nonempty target log hlookup nofun⟩

section

variable (hcap : 0 < params.maxPerTarget) (h : Wf params blake3 store)
variable (hlookup : store.targets.lookup target = some log)
include hcap h hlookup

/-- The ring has room before anything is evicted for the budget. -/
theorem makeRoom_spec :
    Draining params blake3 (some target) (store.makeRoom params target log).1 ∧
      ∃ roomy, (store.makeRoom params target log).1.targets.lookup target = some roomy ∧
        roomy.len < params.maxPerTarget := by
  have hlog := h.logs target log hlookup
  rw [Lotus.makeRoom]
  by_cases hfull : log.len = params.maxPerTarget
  · rw [if_pos hfull]
    have hindex : 0 < log.len := by omega
    refine ⟨(h.draining target).dropEntry hlookup hindex fun hne => absurd rfl hne, _,
      lookup_insert _, ?_⟩
    rw [(view_dropEntry hlog hindex).2]
    omega
  · rw [if_neg hfull]
    have hbound := hlog.lenBound
    exact ⟨h.draining target, log, hlookup, by omega⟩

/-- The eviction for an append to a ring that is there leaves the ring there, with room. -/
theorem appendPresent_room
    (hminimum : checkpointBodyFits (checkpointTargetPrefixLen + target.length + newEntryLen)
      params.maxCheckpointBytes = true) :
    ∃ after flag found,
      evictLoop params target newEntryLen (store.makeRoom params target log).1.totalStoredCount
        (store.makeRoom params target log).1 (store.makeRoom params target log).2 =
          .done (after, flag) ∧
      after.appendFitsCheckpoint params target newEntryLen = true ∧
      Draining params blake3 (some target) after ∧
      after.targets.lookup target = some found ∧ found.len < params.maxPerTarget := by
  obtain ⟨hdraining, roomy, hroomy, hless⟩ := makeRoom_spec hcap h hlookup
  obtain ⟨after, flag, hloop, hfits, hdrained⟩ :=
    evictLoop_spec hminimum hdraining le_rfl (store.makeRoom params target log).2
  have hpresent := hdrained.present
  rw [hroomy] at hpresent
  obtain ⟨found, hfound⟩ := isSome_iff_exists.mp (isNone_eq_false_iff.mp hpresent)
  obtain ⟨old, hold, hle⟩ := hdrained.shorter found hfound
  rw [hroomy] at hold
  cases hold
  exact ⟨after, flag, found, hloop, hfits, hdrained.draining, hfound, hle.trans_lt hless⟩

theorem appendPresent_spec (hstored : stored.Wf params blake3)
    (hlenEq : checkpointStoredEntryBodyLen stored = newEntryLen)
    (hminimum : checkpointBodyFits (checkpointTargetPrefixLen + target.length + newEntryLen)
      params.maxCheckpointBytes = true) :
    Appended params blake3 store target stored
      (store.appendPresent params target log newEntryLen stored) := by
  obtain ⟨after, flag, found, hloop, hfits, hdraining, hfound, hless⟩ :=
    appendPresent_room hcap h hlookup hminimum
  obtain ⟨hwf, hnewest⟩ := hdraining.insertPresent hfound hless hstored hlenEq hfits
  rw [Lotus.appendPresent]
  simp only [hloop, hfound]
  exact ⟨⟨_, rfl⟩, hwf, hnewest⟩

end

theorem appendAbsent_spec (hcap : 0 < params.maxPerTarget) (h : Wf params blake3 store)
    (hlookup : store.targets.lookup target = none) (htarget : 0 < target.length)
    (htargetBound : target.length ≤ params.maxTarget) (hcount : store.count < params.maxTargets)
    (hstored : stored.Wf params blake3) (hlenEq : checkpointStoredEntryBodyLen stored = newEntryLen)
    (hminimum : checkpointBodyFits (checkpointTargetPrefixLen + target.length + newEntryLen)
      params.maxCheckpointBytes = true) :
    Appended params blake3 store target stored
      (store.appendAbsent params target newEntryLen stored) := by
  obtain ⟨after, flag, hloop, hfits, hdrained⟩ :=
    evictLoop_spec hminimum (h.draining target) le_rfl false
  have hpresent := hdrained.present
  rw [hlookup] at hpresent
  have hafter : after.targets.lookup target = none := isNone_iff_eq_none.mp hpresent
  obtain ⟨hwf, hnewest⟩ := hdrained.draining.insertAbsent hafter hcap htarget htargetBound
    (hdrained.count.trans_lt hcount) hstored hlenEq hfits fun _ => stored
  rw [Lotus.appendAbsent]
  simp only [hloop]
  exact ⟨⟨_, rfl⟩, hwf, hnewest⟩

end Append

end OnyxServer.Lotus
