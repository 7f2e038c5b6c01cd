import OnyxServer.Lotus.History

/-!
# Exact-once retention

The rows under one id are counted over all rings. Eviction, redaction, edits and removals
never raise the count, and the insertion of a message comes only where it is zero.
-/
namespace OnyxServer.Lotus

open Lib List Option

variable {params : Params} {blake3 : Blake3} {store : Lotus} {target : Bytes} {log : TargetLog}
    {index : Nat}

def ids (params : Params) (log : TargetLog) : List Bytes :=
  (log.view params.maxPerTarget).map StoredMessage.msgid

/-- The retained rows under an id, over all targets. -/
def idCount (params : Params) (msgid : Bytes) (store : Lotus) : Nat :=
  tableSum (fun _ log => (ids params log).count msgid) store.targets

theorem length_sameId (msgid : Bytes) :
    (store.sameId params msgid).length = idCount params msgid store := by
  rw [Lotus.sameId, length_flatMap, idCount, tableSum]
  congr 1
  refine map_congr_left fun row _ => ?_
  rw [length_map, ids, List.count, countP_map, countP_eq_length_filter]
  rfl

theorem idCount_dropEntry (hlog : LogWf params blake3 target log)
    (hlookup : store.targets.lookup target = some log) (hindex : index < log.len) (msgid : Bytes) :
    idCount params msgid (store.dropEntry params target log index) ≤
      idCount params msgid store := by
  obtain ⟨hview, -⟩ := view_dropEntry hlog hindex
  have hids : (ids params (log.removeAt params.maxPerTarget index)).count msgid ≤
      (ids params log).count msgid := by
    rw [ids, hview]
    exact ((eraseIdx_sublist _ _).map _).count_le _
  show tableSum _ (store.targets.insert target _) ≤ tableSum _ store.targets
  rw [tableSum_insert, tableSum_erase hlookup]
  omega

theorem idCount_dropTarget (hlookup : store.targets.lookup target = some log) (msgid : Bytes) :
    idCount params msgid (store.dropTarget target) ≤ idCount params msgid store := by
  show tableSum _ (store.targets.erase target) ≤ tableSum _ store.targets
  rw [tableSum_erase hlookup]
  exact Nat.le_add_left _ _

theorem idCount_setEntry (hlog : LogWf params blake3 target log)
    (hlookup : store.targets.lookup target = some log)
    (hindex : index < log.len) {message : StoredMessage} (bodyLen : Nat)
    (hmsgid : message.msgid = (log.entry params.maxPerTarget index).msgid) (msgid : Bytes) :
    idCount params msgid
        { targets := store.targets.insert target (log.setEntry params.maxPerTarget index message)
          checkpointBodyLen := bodyLen } = idCount params msgid store := by
  have hids : ids params (log.setEntry params.maxPerTarget index message) = ids params log := by
    have hentry : (ids params log)[index]? = some message.msgid := by
      rw [ids, List.getElem?_map, RingBuffer.getElem?_view hindex, hmsgid]
      rfl
    rw [ids, RingBuffer.view_setEntry hlog.lenBound hindex, map_set]
    obtain ⟨hlt, hget⟩ := List.getElem?_eq_some_iff.mp hentry
    rw [← hget]
    exact set_getElem_self hlt
  show tableSum _ (store.targets.insert target _) = tableSum _ store.targets
  rw [tableSum_insert, tableSum_erase hlookup, hids]

theorem evictGlobalOldest_ids {incoming : Bytes} {next : Lotus}
    (hstore : Draining params blake3 (some incoming) store)
    (h : store.evictGlobalOldest params incoming = some next) (msgid : Bytes) :
    Draining params blake3 (some incoming) next ∧
    idCount params msgid next ≤ idCount params msgid store := by
  have hfold := @foldl_oldest isOlder (store.candidates params) none
  have hunfold := h
  rw [Lotus.evictGlobalOldest] at hunfold
  cases holdest : store.globalOldest params with
  | none =>
    rw [holdest] at hunfold
    cases hunfold
  | some candidate =>
    have hmem : candidate ∈ store.candidates params := by
      rcases hfold.2 candidate holdest with hmem | hnone
      · exact hmem
      · cases hnone
    obtain ⟨log, hlog, hindex⟩ := mem_candidates hmem
    have htotal : store.totalStoredCount ≠ 0 := by
      have hle : log.len ≤ store.totalStoredCount :=
        @tableSum_le _ _ _ (fun _ log => log.len) _ _ _ hlog
      omega
    obtain ⟨after, hafter, -, hdrained⟩ := evictGlobalOldest_spec hstore htotal
    obtain rfl := some.inj (hafter.symm.trans h)
    refine ⟨hdrained.draining, ?_⟩
    have hentry := idCount_dropEntry (hstore.logs candidate.target log hlog) hlog hindex msgid
    simp only [holdest, hlog] at hunfold
    split at hunfold
    · cases hunfold
      exact hentry
    cases hunfold
    have hlookup :
        (store.dropEntry params candidate.target log candidate.index).targets.lookup
        candidate.target =
        some (log.removeAt params.maxPerTarget candidate.index) := AList.lookup_insert _
    exact (idCount_dropTarget hlookup msgid).trans hentry

theorem evictLoop_ids {incoming : Bytes} {newEntryLen rounds : Nat} {evicted flag : Bool}
    {after : Lotus} (hstore : Draining params blake3 (some incoming) store)
    (h : evictLoop params incoming newEntryLen rounds store evicted = .done (after, flag))
    (msgid : Bytes) :
    idCount params msgid after ≤ idCount params msgid store := by
  induction rounds generalizing store evicted with
  | zero =>
    rw [evictLoop] at h
    split at h
    · cases h
      exact le_rfl
    · cases h
  | succ rounds ih =>
    rw [evictLoop] at h
    split at h
    · cases h
      exact le_rfl
    split at h
    · cases h
    · next next hnext =>
      obtain ⟨hdraining, hle⟩ := evictGlobalOldest_ids hstore hnext msgid
      exact (ih hdraining h).trans hle

section Insert

variable {stored : StoredMessage} {newEntryLen : Nat}

theorem count_ids_appendTake (hlen : log.len < params.maxPerTarget) (msgid : Bytes) :
    (ids params (log.appendTake params.maxPerTarget stored)).count msgid =
      (ids params log).count msgid + if stored.msgid = msgid then 1 else 0 := by
  rw [ids, RingBuffer.view_appendTake hlen, map_append, count_append]
  congr 1
  simp [count_singleton]

section

variable (hcap : 0 < params.maxPerTarget) (h : Wf params blake3 store)
include hcap h

theorem appendPresent_ids (hlookup : store.targets.lookup target = some log)
    (hminimum : checkpointBodyFits (checkpointTargetPrefixLen + target.length + newEntryLen)
      params.maxCheckpointBytes = true) (msgid : Bytes) :
    idCount params msgid (store.appendPresent params target log newEntryLen stored).2 ≤
      idCount params msgid store + if stored.msgid = msgid then 1 else 0 := by
  have hroom : idCount params msgid (store.makeRoom params target log).1 ≤
      idCount params msgid store := by
    rw [Lotus.makeRoom]
    split
    · next hfull => exact idCount_dropEntry (h.logs target log hlookup) hlookup (by omega) msgid
    · exact le_rfl
  obtain ⟨hdraining, -⟩ := makeRoom_spec hcap h hlookup
  obtain ⟨after, flag, found, hloop, -, -, hfound, hless⟩ :=
    appendPresent_room hcap h hlookup hminimum
  have hevicted := (evictLoop_ids hdraining hloop msgid).trans hroom
  rw [Lotus.appendPresent]
  simp only [hloop, hfound]
  show tableSum _ (after.targets.insert target _) ≤ _
  rw [idCount, tableSum_erase hfound] at hevicted
  rw [tableSum_insert, count_ids_appendTake hless]
  omega

theorem appendAbsent_ids (hlookup : store.targets.lookup target = none)
    (hminimum : checkpointBodyFits (checkpointTargetPrefixLen + target.length + newEntryLen)
      params.maxCheckpointBytes = true) (msgid : Bytes) :
    idCount params msgid (store.appendAbsent params target newEntryLen stored).2 ≤
      idCount params msgid store + if stored.msgid = msgid then 1 else 0 := by
  obtain ⟨after, flag, hloop, -, hdrained⟩ :=
    evictLoop_spec hminimum (h.draining target) le_rfl false
  have hevicted := evictLoop_ids (h.draining target) hloop msgid
  have hpresent := hdrained.present
  rw [hlookup] at hpresent
  have hafter : after.targets.lookup target = none := Option.isNone_iff_eq_none.mp hpresent
  rw [Lotus.appendAbsent]
  simp only [hloop]
  show tableSum _ (after.targets.insert target _) ≤ _
  have hring :
      (ids params
        ((⟨fun _ => stored, 0, 0⟩ : TargetLog).appendTake params.maxPerTarget stored)).count msgid =
      if stored.msgid = msgid then 1 else 0 :=
    (@count_ids_appendTake params ⟨fun _ => stored, 0, 0⟩ stored hcap msgid).trans (Nat.zero_add _)
  rw [tableSum_insert_new hafter, hring]
  exact (Nat.add_comm _ _).trans_le (Nat.add_le_add_right hevicted _)

theorem appendState_ids (msg : InputMessage)
    (tombstone : Bool) (alloc : Allocator) (msgid : Bytes) :
    idCount params msgid (store.appendState params blake3 target msg tombstone alloc).2 ≤
      idCount params msgid store + if msg.msgid = msgid then 1 else 0 := by
  rcases @appendState_cases params blake3 store target msg tombstone alloc with
    ⟨e, -, he⟩ | ⟨-, newEntryLen, -, hfits, ⟨log, hlookup, happend⟩ | ⟨hlookup, -, happend⟩⟩
  · rw [he]
    exact Nat.le_add_right _ _
  · rw [happend]
    exact appendPresent_ids hcap h hlookup hfits msgid
  · rw [happend]
    exact appendAbsent_ids hcap h hlookup hfits msgid

end

end Insert

/-- Every way to add a row but `append`, and every way to change one. -/
def Op.ExactOnly : Op → Prop
  | .append .. => False
  | _ => True

/-- The counted message is stored only where its id is free. -/
theorem ingestExactOnce_ids (hcap : 0 < params.maxPerTarget) (h : Wf params blake3 store)
    (hunique : ∀ msgid, idCount params msgid store ≤ 1) (msg : ExactInputMessage)
    (alloc : Allocator) (msgid : Bytes) :
    idCount params msgid (store.ingestExactOnce params blake3 target msg alloc).2 ≤ 1 := by
  rw [Lotus.ingestExactOnce]
  split
  · exact hunique msgid
  split
  · exact hunique msgid
  simp only
  split
  · exact hunique msgid
  split
  · exact hunique msgid
  rename_i hfree
  rw [Bool.not_eq_true, Bool.not_eq_false', List.isEmpty_iff] at hfree
  have hzero : idCount params msg.msgid store = 0 := by
    rw [← length_sameId, hfree]
    rfl
  have hids :=
    @appendState_ids params blake3 store target hcap h msg.toInputMessage msg.tombstone alloc msgid
  have hbound : idCount params msgid store + (if msg.msgid = msgid then 1 else 0) ≤ 1 := by
    split
    · next hsame =>
      rw [← hsame, hzero]
    · exact hunique msgid
  generalize store.appendState params blake3 target msg.toInputMessage msg.tombstone alloc =
    answer at hids
  obtain ⟨result, after⟩ := answer
  cases result <;> exact hids.trans hbound

theorem redact_ids (h : Wf params blake3 store) (id msgid : Bytes) :
    idCount params msgid (store.redact params target id).2 = idCount params msgid store := by
  rw [Lotus.redact]
  split
  · rfl
  rename_i log index hfind
  obtain ⟨hlookup, hindex⟩ := findNewest_ok hfind
  refine idCount_setEntry (h.logs target log hlookup) hlookup hindex _ ?_ msgid
  rfl

theorem edit_ids (h : Wf params blake3 store) (id newText : Bytes) (alloc : Allocator)
    (msgid : Bytes) :
    idCount params msgid (store.edit params blake3 target id newText alloc).2 =
      idCount params msgid store := by
  rw [Lotus.edit]
  split
  · rfl
  split
  · rfl
  rename_i log index hfind
  obtain ⟨hlookup, hindex⟩ := findNewest_ok hfind
  simp only
  split
  · rfl
  split
  · rfl
  · refine idCount_setEntry (h.logs target log hlookup) hlookup hindex _ ?_ msgid
    rfl

theorem forget_ids (h : Wf params blake3 store) (id msgid : Bytes) :
    idCount params msgid (store.forget params target id).2 ≤ idCount params msgid store := by
  rw [Lotus.forget]
  split
  · exact le_rfl
  rename_i log index hfind
  obtain ⟨hlookup, hindex⟩ := findNewest_ok hfind
  have hentry := idCount_dropEntry (h.logs target log hlookup) hlookup hindex msgid
  have hdropped : (store.dropEntry params target log index).targets.lookup target =
      some (log.removeAt params.maxPerTarget index) := AList.lookup_insert _
  simp only
  split
  · exact hentry
  · exact (idCount_dropTarget hdropped msgid).trans hentry

/-- No two rows of the store have an id in common. -/
structure Unique (params : Params) (blake3 : Blake3) (store : Lotus) : Prop where
  wf : Wf params blake3 store
  ids : ∀ msgid, idCount params msgid store ≤ 1

theorem Unique.step (hcap : 0 < params.maxPerTarget) (h : Unique params blake3 store) {op : Op}
    (hop : op.ExactOnly) :
    Unique params blake3 (step params blake3 store op).2 := by
  refine ⟨(step_spec hcap h.wf op).1, fun msgid => ?_⟩
  cases op with
  | append target msg alloc => exact hop.elim
  | ingestExactOnce target msg alloc => exact ingestExactOnce_ids hcap h.wf h.ids msg alloc msgid
  | edit target id newText alloc =>
      exact (edit_ids h.wf id newText alloc msgid).trans_le (h.ids msgid)
  | redact target id => exact (redact_ids h.wf id msgid).trans_le (h.ids msgid)
  | forget target id => exact (forget_ids h.wf id msgid).trans (h.ids msgid)

/-- The fields that an exact replay repeats. -/
structure SameMessage (existing : StoredMessage) (incoming : ExactInputMessage) : Prop where
  sender : existing.sender = incoming.sender
  text : existing.text = incoming.text
  timestamp : existing.timestamp = incoming.timestamp
  command : existing.command = incoming.command
  clientTags : existing.clientTags = incoming.clientTags
  tombstone : existing.tombstone = incoming.tombstone

/-- The kept hash decides nothing of its own. -/
theorem storedMatchesExact_iff {existing : StoredMessage} (hexisting : existing.Wf params blake3)
    (incoming : ExactInputMessage) :
    Lotus.storedMatchesExact blake3 existing incoming = true ↔ SameMessage existing incoming := by
  simp only [Lotus.storedMatchesExact, Bool.and_eq_true, beq_iff_eq, hexisting.hash]
  constructor
  · rintro ⟨⟨⟨⟨⟨⟨hsender, htext⟩, htimestamp⟩, hcommand⟩, htags⟩, htombstone⟩, -⟩
    exact ⟨hsender, htext, htimestamp, hcommand, htags, htombstone⟩
  · intro h
    exact ⟨⟨⟨⟨⟨⟨h.sender, h.text⟩, h.timestamp⟩, h.command⟩, h.clientTags⟩, h.tombstone⟩,
      congrArg blake3 h.text⟩

theorem sameId_wf (h : Wf params blake3 store) {msgid : Bytes} {row : Bytes × StoredMessage}
    (hrow : row ∈ store.sameId params msgid) :
    row.2.Wf params blake3 ∧ validateTargetForParams params row.1 = .ok () ∧
    row.2.msgid = msgid := by
  obtain ⟨ring, hring, hrow⟩ := mem_flatMap.mp hrow
  obtain ⟨existing, hexisting, rfl⟩ := mem_map.mp hrow
  obtain ⟨hview, hid⟩ := mem_filter.mp hexisting
  have hlog := h.logs ring.1 ring.2 (AList.mem_lookup_iff.mpr hring)
  have hpos := hlog.targetNonempty
  have hbound := hlog.targetBound
  refine ⟨hlog.messages existing hview, ?_, beq_iff_eq.mp hid⟩
  show validateTargetForParams params ring.1 = _
  rw [validateTargetForParams, if_neg (by omega), if_neg (by omega)]

/-- The arguments keep their bounds. -/
def Validates (params : Params) (target : Bytes) (msg : ExactInputMessage) : Prop :=
  validateTargetForParams params target = .ok () ∧
    validateMessage params msg.toInputMessage = .ok ()

/-- Why an ingestion fails. An id that a row has is never refused for room or memory. -/
inductive Refused (params : Params) (store : Lotus) (target : Bytes) (msg : ExactInputMessage)
    (alloc : Allocator) : Error → Prop where
  | target {e : Error} (h : validateTargetForParams params target = .error e) :
      Refused params store target msg alloc e
  | message {e : Error} (h : validateMessage params msg.toInputMessage = .error e) :
      Refused params store target msg alloc e
  | cramped {e : Error} (hfree : store.sameId params msg.msgid = [])
      (h : Cramped params store target msg.toInputMessage alloc e) :
        Refused params store target msg alloc e

/-- What ingestion answers for a message, and what it leaves where it inserts nothing. -/
structure Classifies (params : Params) (store : Lotus) (target : Bytes) (msg : ExactInputMessage)
    (alloc : Allocator) (answer : Outcome Error ExactOnceResult × Lotus) : Prop where
  ends : (∃ result, answer.1 = .done result) ∨ ∃ e, answer.1 = .failed e
  inserted : (∃ r, answer.1 = .done (.inserted r)) ↔
    store.sameId params msg.msgid = [] ∧ ∀ e, ¬ Refused params store target msg alloc e
  exactDuplicate : answer.1 = .done .exactDuplicate ↔
    ∃ row ∈ store.sameId params msg.msgid, row.1 = target ∧ SameMessage row.2 msg
  equivocation : answer.1 = .done .equivocation ↔ Validates params target msg ∧
    ∃ row ∈ store.sameId params msg.msgid, ¬ (row.1 = target ∧ SameMessage row.2 msg)
  failed : ∀ e, answer.1 = .failed e → Refused params store target msg alloc e
  unchanged : (¬ ∃ r, answer.1 = .done (.inserted r)) → answer.2 = store

theorem Unique.sameId (h : Unique params blake3 store) (msgid : Bytes) :
    store.sameId params msgid = [] ∨ ∃ row, store.sameId params msgid = [row] := by
  have hlen := (length_sameId msgid).trans_le (h.ids msgid)
  match hrows : store.sameId params msgid, hlen with
  | [], _ => exact .inl rfl
  | [row], _ => exact .inr ⟨row, rfl⟩

section Classify

variable {msg : ExactInputMessage} {alloc : Allocator}

/-- A replay keeps the bounds that its row kept. -/
theorem SameMessage.validates (h : Wf params blake3 store) {row : Bytes × StoredMessage}
    (hrow : row ∈ store.sameId params msg.msgid) (htarget : row.1 = target)
    (hsame : SameMessage row.2 msg) : Validates params target msg := by
  obtain ⟨hwf, hvalid, hmsgid⟩ := sameId_wf h hrow
  refine ⟨htarget ▸ hvalid, @validateMessage_ok _ blake3 _ ⟨rfl, ?_, ?_, ?_, ?_, ?_⟩⟩
  · exact (congrArg length hsame.text).symm.trans_le hwf.text
  · exact (congrArg length hmsgid).symm.trans_le hwf.msgid
  · exact (congrArg length hsame.sender).symm.trans_le hwf.sender
  · exact (congrArg length hsame.command).symm.trans_le hwf.command
  · exact fun tags hmem => hwf.clientTags tags (hsame.clientTags.trans hmem)

theorem Refused.not_validates {e : Error} (h : Refused params store target msg alloc e)
    (hvalid : Validates params target msg) : store.sameId params msg.msgid = [] ∧
      Cramped params store target msg.toInputMessage alloc e := by
  cases h with
  | target h => cases h.symm.trans hvalid.1
  | message h => cases h.symm.trans hvalid.2
  | cramped hfree h => exact ⟨hfree, h⟩

theorem classifies_invalid (h : Wf params blake3 store) {e : Error}
    (hinvalid : ¬ Validates params target msg)
    (hrefused : Refused params store target msg alloc e) :
    Classifies params store target msg alloc (.failed e, store) where
  ends := .inr ⟨e, rfl⟩
  inserted := ⟨nofun, fun hroom => absurd hrefused (hroom.2 e)⟩
  exactDuplicate := ⟨nofun, fun ⟨_, hrow, htarget, hsame⟩ =>
    absurd (hsame.validates h hrow htarget) hinvalid⟩
  equivocation := ⟨nofun, fun ⟨hvalid, _⟩ => absurd hvalid hinvalid⟩
  failed := by
    rintro _ ⟨⟩
    exact hrefused
  unchanged _ := rfl

theorem classifies_cramped {e : Error} (hfree : store.sameId params msg.msgid = [])
    (hcramped : Cramped params store target msg.toInputMessage alloc e) :
    Classifies params store target msg alloc (.failed e, store) where
  ends := .inr ⟨e, rfl⟩
  inserted := ⟨nofun, fun hroom => absurd (.cramped hfree hcramped) (hroom.2 e)⟩
  exactDuplicate := by simp [hfree]
  equivocation := by simp [hfree]
  failed := by
    rintro _ ⟨⟩
    exact .cramped hfree hcramped
  unchanged _ := rfl

theorem classifies_inserted {r : AppendResult} {after : Lotus}
    (hfree : store.sameId params msg.msgid = [])
    (hroom : ∀ e, ¬ Refused params store target msg alloc e) :
    Classifies params store target msg alloc (.done (.inserted r), after) where
  ends := .inl ⟨_, rfl⟩
  inserted := ⟨fun _ => ⟨hfree, hroom⟩, fun _ => ⟨r, rfl⟩⟩
  exactDuplicate := by simp [hfree]
  equivocation := by simp [hfree]
  failed := nofun
  unchanged hnone := absurd ⟨r, rfl⟩ hnone

/-- The one row under the id decides. -/
theorem classifies_found {row : Bytes × StoredMessage} (hvalid : Validates params target msg)
    (hrow : store.sameId params msg.msgid = [row]) :
    (row.1 = target ∧ SameMessage row.2 msg →
      Classifies params store target msg alloc (.done .exactDuplicate, store)) ∧
    (¬ (row.1 = target ∧ SameMessage row.2 msg) →
      Classifies params store target msg alloc (.done .equivocation, store)) := by
  constructor
  · intro hsame
    exact ⟨.inl ⟨_, rfl⟩, by simp [hrow], by simp [hrow, hsame], by simp [hrow, hsame], nofun,
      fun _ => rfl⟩
  · intro hother
    refine ⟨.inl ⟨_, rfl⟩, by simp [hrow], ?_, ?_, nofun, fun _ => rfl⟩
    · simpa [hrow] using hother
    · simpa [hrow, hvalid] using hother

theorem Unique.classifies (hcap : 0 < params.maxPerTarget) (h : Unique params blake3 store)
    (target : Bytes) (msg : ExactInputMessage) (alloc : Allocator) :
    Classifies params store target msg alloc
      (store.ingestExactOnce params blake3 target msg alloc) := by
  rw [Lotus.ingestExactOnce]
  split
  · next htarget =>
    refine classifies_invalid h.wf (fun hvalid => ?_) (.target htarget)
    cases htarget.symm.trans hvalid.1
  rename_i htarget
  split
  · next hmsg =>
    refine classifies_invalid h.wf (fun hvalid => ?_) (.message hmsg)
    cases hmsg.symm.trans hvalid.2
  rename_i hmsg
  have hvalid : Validates params target msg := ⟨htarget, hmsg⟩
  rcases h.sameId msg.msgid with hfree | ⟨row, hrow⟩
  · simp only [hfree, any_nil, Bool.false_eq_true, ↓reduceIte, isEmpty_nil, Bool.not_true]
    obtain ⟨hpos, hbound⟩ := validateTargetForParams_spec htarget
    have hstored := @validateMessage_spec _ blake3 _ hmsg msg.tombstone
    rcases appendState_spec hcap h.wf hpos hbound hstored alloc with
      ⟨e, hcramped, he⟩ | ⟨hroom, happended⟩
    · rw [he]
      exact classifies_cramped hfree hcramped
    obtain ⟨r, hr⟩ := happended.done
    generalize store.appendState params blake3 target msg.toInputMessage msg.tombstone alloc =
      answer at hr
    obtain ⟨result, after⟩ := answer
    obtain rfl : result = .done r := hr
    exact classifies_inserted hfree fun e hrefused => hroom e (hrefused.not_validates hvalid).2
  · obtain ⟨hwf, -, -⟩ := sameId_wf h.wf (hrow ▸ mem_singleton_self row)
    have hmatch := storedMatchesExact_iff hwf msg
    obtain ⟨hduplicate, hequivocation⟩ :=
      @classifies_found params store target msg alloc row hvalid hrow
    simp only [hrow, any_cons, any_nil, Bool.or_false, isEmpty_cons, Bool.not_false, ↓reduceIte]
    split
    · next hother =>
      refine hequivocation fun hsame => ?_
      simp [hsame.1, hmatch.mpr hsame.2] at hother
    · next hsame =>
      simp only [Bool.or_eq_true, bne_iff_ne, Bool.not_eq_true', not_or, not_not,
        Bool.not_eq_false] at hsame
      exact hduplicate ⟨hsame.1, hmatch.mp hsame.2⟩

end Classify

/-- In a store whose rows all came by ingestion, whatever was redacted, edited or removed
since, an id is retained at most once over all targets. The answer of the next ingestion is
read off the row under its id, and only an insertion changes the store. -/
theorem ingestion_exact_once (params : Params) (blake3 : Blake3) (hvalid : params.valid = true)
    (ops : List Op) (hops : ∀ op ∈ ops, op.ExactOnly) :
    let store := final (step params blake3) Lotus.init ops
    (∀ msgid, (store.sameId params msgid).length ≤ 1) ∧
      ∀ target msg alloc, Classifies params store target msg alloc
        (store.ingestExactOnce params blake3 target msg alloc) := by
  obtain ⟨hinit, hcap⟩ := @init_wf params blake3 hvalid
  have hunique : Unique params blake3 (final (step params blake3) Lotus.init ops) := by
    have hrun := guarded_invariant (P := Unique params blake3)
      (G := fun visit : Visit Lotus Op Answer => visit.input.ExactOnly)
      (fun visit (hstep : step params blake3 _ _ = _) hop hbefore => by
        have hnext := hbefore.step hcap hop
        rwa [hstep] at hnext)
      ⟨hinit, fun _ => Nat.zero_le 1⟩ fun visit hvisit => hops visit.input (visits_input hvisit)
    exact hrun.1
  refine ⟨fun msgid => (length_sameId msgid).trans_le (hunique.ids msgid),
    fun target msg alloc => ?_⟩
  exact hunique.classifies hcap target msg alloc

/-- The message `1` with a text. -/
def sampleMessage (text : Bytes) : ExactInputMessage := ⟨⟨[1], [2], text, 7, [3], none⟩, false⟩

def sampleIngest : Op := .ingestExactOnce [97] (sampleMessage [5]) fun _ => true

/-- The same message again is a replay, also where no memory is left; with another text, or for
another target, it is not. -/
theorem ingestion_exact_once_sample :
    let store := final (step sampleParams constantHash) Lotus.init [sampleIngest]
    (store.ingestExactOnce sampleParams constantHash [97] (sampleMessage [5]) fun _ => false).1 =
        .done .exactDuplicate ∧
      (store.ingestExactOnce sampleParams constantHash [97] (sampleMessage [6]) fun _ => true).1 =
        .done .equivocation ∧
      (store.ingestExactOnce sampleParams constantHash [98] (sampleMessage [5]) fun _ => true) =
        (.done .equivocation, store) := by
  intro store
  have h := ingestion_exact_once sampleParams constantHash (by decide +kernel) [sampleIngest]
    (by simp [sampleIngest, Op.ExactOnly])
  have hrows : store.sameId sampleParams [1] =
      [([97], storedOf constantHash (sampleMessage [5]).toInputMessage false)] := by
    decide +kernel
  have hother := (h.2 [98] (sampleMessage [5]) fun _ => true).equivocation.mpr
    ⟨⟨rfl, rfl⟩, _, hrows ▸ List.mem_singleton_self _, fun hsame => by cases hsame.1⟩
  refine ⟨?_, ?_, Prod.ext hother ?_⟩
  · exact (h.2 [97] (sampleMessage [5]) fun _ => false).exactDuplicate.mpr
      ⟨_, hrows ▸ List.mem_singleton_self _, rfl, ⟨rfl, rfl, rfl, rfl, rfl, rfl⟩⟩
  · exact (h.2 [97] (sampleMessage [6]) fun _ => true).equivocation.mpr
      ⟨⟨rfl, rfl⟩, _, hrows ▸ List.mem_singleton_self _, fun hsame => by cases hsame.2.text⟩
  · exact (h.2 [98] (sampleMessage [5]) fun _ => true).unchanged fun ⟨r, hr⟩ => by
      cases hother.symm.trans hr

end OnyxServer.Lotus
