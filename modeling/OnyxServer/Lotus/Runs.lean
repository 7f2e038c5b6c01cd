import OnyxServer.Lib.Trace
import OnyxServer.Lotus.Eviction

/-!
# Operations of the history store

One lemma for each operation: it keeps the accounts, it does not fault, and an append that
goes through leaves its message as the newest of the target.
-/
namespace OnyxServer.Lotus

open Lib List

variable {params : Params} {blake3 : Blake3} {store : Lotus}

/-- An operation with its arguments and the answers of the allocator. -/
inductive Op where
  | append (target : Bytes) (msg : InputMessage) (alloc : Allocator)
  | ingestExactOnce (target : Bytes) (msg : ExactInputMessage) (alloc : Allocator)
  | edit (target msgid newText : Bytes) (alloc : Allocator)
  | redact (target msgid : Bytes)
  | forget (target msgid : Bytes)

inductive Answer where
  | appended (result : Outcome Error AppendResult)
  | ingested (result : Outcome Error ExactOnceResult)
  | changed (result : Except Error Unit)

def step (params : Params) (blake3 : Blake3) (store : Lotus) : Op → Answer × Lotus
  | .append target msg alloc =>
    let (result, store) := store.append params blake3 target msg alloc
    (.appended result, store)
  | .ingestExactOnce target msg alloc =>
    let (result, store) := store.ingestExactOnce params blake3 target msg alloc
    (.ingested result, store)
  | .edit target msgid newText alloc =>
    let (result, store) := store.edit params blake3 target msgid newText alloc
    (.changed result, store)
  | .redact target msgid =>
    let (result, store) := store.redact params target msgid
    (.changed result, store)
  | .forget target msgid =>
    let (result, store) := store.forget params target msgid
    (.changed result, store)

section Append

variable {target : Bytes}

theorem validateMessage_spec {msg : InputMessage} (h : validateMessage params msg = .ok ())
    (tombstone : Bool) :
    (storedOf blake3 msg tombstone).Wf params blake3 := by
  rw [validateMessage] at h
  split_ifs at h with htext hmsgid hsender hcommand htags
  refine ⟨rfl, Nat.le_of_not_lt htext, Nat.le_of_not_lt hmsgid, Nat.le_of_not_lt hsender,
    Nat.le_of_not_lt hcommand, fun tags hmem => ?_⟩
  have hmem : msg.clientTags = some tags := hmem
  rw [hmem] at htags
  simpa using htags

theorem validateTargetForParams_spec (h : validateTargetForParams params target = .ok ()) :
    0 < target.length ∧ target.length ≤ params.maxTarget := by
  rw [validateTargetForParams] at h
  split at h
  · cases h
  · split_ifs at h
    · omega

/-- The entry fits a checkpoint that holds nothing else. -/
def fitsAlone (params : Params) (target : Bytes) (msg : InputMessage) : Bool :=
  match checkpointEntryBodyLen msg with
  | none => false
  | some newEntryLen =>
    checkpointBodyFits (checkpointTargetPrefixLen + target.length + newEntryLen)
      params.maxCheckpointBytes

/-- Why an append of valid arguments fails. -/
inductive Cramped (params : Params) (store : Lotus) (target : Bytes) (msg : InputMessage)
    (alloc : Allocator) : Error → Prop where
  | targets (habsent : store.targets.lookup target = none)
      (hfull : params.maxTargets ≤ store.count) : Cramped params store target msg alloc
        .targetLimitExceeded
  | checkpoint (hfits : fitsAlone params target msg = false) :
      Cramped params store target msg alloc .checkpointCapacityExceeded
  | memory (site : Nat)
      (hsite : site < 5 ∨ store.targets.lookup target = none ∧
        site < 8) (halloc : alloc site = false) :
      Cramped params store target msg alloc .outOfMemory

theorem checkpointBodyFits_usize {bodyLen maxCheckpointBytes : Nat} (h : usizeLimit ≤ bodyLen) :
    checkpointBodyFits bodyLen maxCheckpointBytes = false := by
  rw [checkpointBodyFits, checkedAdd, if_neg (by omega)]

theorem not_cramped {msg : InputMessage} {alloc : Allocator}
    (hcount : store.targets.lookup target = none → store.count < params.maxTargets)
    (hfits : fitsAlone params target msg = true) (hgranted : ∀ site < 5, alloc site = true)
    (hopened : store.targets.lookup target = none → ∀ site < 3, alloc (5 + site) = true)
    (e : Error) :
    ¬ Cramped params store target msg alloc e := by
  rintro (⟨habsent, hfull⟩ | ⟨hnone⟩ | ⟨site, hsite, halloc⟩)
  · exact absurd (hcount habsent) (Nat.not_lt.mpr hfull)
  · rw [hfits] at hnone
    cases hnone
  · have hall : alloc site = true := by
      rcases Nat.lt_or_ge site 5 with hless | hmore
      · exact hgranted site hless
      · obtain ⟨habsent, hbound⟩ := hsite.resolve_left (by omega)
        have hnext := hopened habsent (site - 5) (by omega)
        rwa [Nat.add_sub_cancel' hmore] at hnext
    rw [hall] at halloc
    cases halloc

/-- An append fails before anything is changed, or is one of the two that evict. -/
theorem appendState_cases (msg : InputMessage) (tombstone : Bool) (alloc : Allocator) :
    (∃ e, Cramped params store target msg alloc e ∧
        store.appendState params blake3 target msg tombstone alloc = (.failed e, store)) ∨
      (∀ e, ¬ Cramped params store target msg alloc e) ∧
      ∃ newEntryLen, checkpointEntryBodyLen msg = some newEntryLen ∧
        checkpointBodyFits (checkpointTargetPrefixLen + target.length + newEntryLen)
          params.maxCheckpointBytes = true ∧
        ((∃ log, store.targets.lookup target = some log ∧
            store.appendState params blake3 target msg tombstone alloc =
              store.appendPresent params target log newEntryLen (storedOf blake3 msg tombstone)) ∨
          (store.targets.lookup target = none ∧ store.count < params.maxTargets ∧
            store.appendState params blake3 target msg tombstone alloc =
              store.appendAbsent params target newEntryLen (storedOf blake3 msg tombstone))) := by
  rw [Lotus.appendState]
  split
  · next hlimit =>
    exact .inl ⟨_, .targets (Option.isNone_iff_eq_none.mp hlimit.1) hlimit.2, rfl⟩
  rename_i hlimit
  split
  · next hlen => exact .inl ⟨_, .checkpoint (by rw [fitsAlone, hlen]), rfl⟩
  rename_i newEntryLen hlen
  split
  · next hminimum =>
    refine .inl ⟨_, .checkpoint ?_, rfl⟩
    rw [fitsAlone, hlen]
    refine checkpointBodyFits_usize (Nat.le_of_not_lt fun hless => ?_)
    rw [checkedAdd_some hless] at hminimum
    cases hminimum
  rename_i minimumBodyLen hminimum
  obtain rfl := checkedAdd_eq hminimum
  have hfit : fitsAlone params target msg = checkpointBodyFits
      (checkpointTargetPrefixLen + target.length + newEntryLen) params.maxCheckpointBytes := by
    rw [fitsAlone, hlen]
  split
  · next hfits => exact .inl ⟨_, .checkpoint (by simpa [hfit] using hfits), rfl⟩
  rename_i hfits
  rw [Bool.not_eq_true, Bool.not_eq_false'] at hfits
  have halone := hfit.trans hfits
  split
  · next hsites =>
    obtain ⟨site, hmem, hsite⟩ := any_eq_true.mp hsites
    exact .inl ⟨_, .memory site (.inl (mem_range.mp hmem)) (by simpa using hsite), rfl⟩
  rename_i hsites
  have hgranted : ∀ site < 5, alloc site = true := by simpa using hsites
  simp only
  split
  · next log hlookup =>
    have habsent : store.targets.lookup target ≠ none := by simp [hlookup]
    exact .inr ⟨not_cramped (absurd · habsent) halone hgranted (absurd · habsent),
      newEntryLen, hlen, hfits, .inl ⟨log, hlookup, rfl⟩⟩
  rename_i hlookup
  split
  · next hopens =>
    obtain ⟨site, hmem, hsite⟩ := any_eq_true.mp hopens
    have hbound := mem_range.mp hmem
    exact .inl ⟨_, .memory (5 + site) (.inr ⟨hlookup, by omega⟩) (by simpa using hsite),
      rfl⟩
  · next hopens =>
    have hcount : store.count < params.maxTargets := by
      rw [hlookup] at hlimit
      simpa using hlimit
    exact .inr ⟨not_cramped (fun _ => hcount) halone hgranted
      (fun _ => by simpa using hopens), newEntryLen, hlen, hfits, .inr ⟨hlookup, hcount, rfl⟩⟩

section

variable (hcap : 0 < params.maxPerTarget) (h : Wf params blake3 store)
include hcap h

/-- An append fails without a trace or goes through. -/
theorem appendState_spec (htarget : 0 < target.length)
    (htargetBound : target.length ≤ params.maxTarget) {msg : InputMessage} {tombstone : Bool}
    (hstored : (storedOf blake3 msg tombstone).Wf params blake3) (alloc : Allocator) :
    (∃ e, Cramped params store target msg alloc e ∧
        store.appendState params blake3 target msg tombstone alloc = (.failed e, store)) ∨
      (∀ e, ¬ Cramped params store target msg alloc e) ∧
        Appended params blake3 store target (storedOf blake3 msg tombstone)
          (store.appendState params blake3 target msg tombstone alloc) := by
  rcases @appendState_cases params blake3 store target msg tombstone alloc with
    he | ⟨hroom, newEntryLen, hlen, hfits, ⟨log, hlookup, happend⟩ | ⟨hlookup, hcount, happend⟩⟩
  · exact .inl he
  · rw [happend]
    exact .inr ⟨hroom, appendPresent_spec hcap h hlookup hstored
      (checkpointEntryBodyLen_eq hlen tombstone) hfits⟩
  · rw [happend]
    exact .inr ⟨hroom, appendAbsent_spec hcap h hlookup htarget htargetBound hcount hstored
      (checkpointEntryBodyLen_eq hlen tombstone) hfits⟩

theorem append_spec (msg : InputMessage) (alloc : Allocator) :
    (∃ e, store.append params blake3 target msg alloc = (.failed e, store)) ∨
      Appended params blake3 store target (storedOf blake3 msg false)
      (store.append params blake3 target msg alloc) := by
  rw [Lotus.append]
  split
  · exact .inl ⟨_, rfl⟩
  rename_i htarget
  obtain ⟨hpos, hbound⟩ := validateTargetForParams_spec htarget
  split
  · exact .inl ⟨_, rfl⟩
  · next hmsg =>
    refine (appendState_spec hcap h hpos hbound (validateMessage_spec hmsg false) alloc).imp
      ?_ And.right
    exact fun ⟨e, _, he⟩ => ⟨e, he⟩

theorem ingestExactOnce_spec (msg : ExactInputMessage)
    (alloc : Allocator) :
    let answer := store.ingestExactOnce params blake3 target msg alloc
    (answer.2 = store ∧
      ((∃ e, answer.1 = .failed e) ∨ answer.1 = .done .exactDuplicate ∨
        answer.1 = .done .equivocation)) ∨
      (∃ result, answer.1 = .done (.inserted result)) ∧ Wf params blake3 answer.2 ∧
        newest params answer.2 target =
          some (storedOf blake3 msg.toInputMessage msg.tombstone) := by
  intro answer
  have hanswer : answer = store.ingestExactOnce params blake3 target msg alloc := rfl
  clear_value answer
  rw [Lotus.ingestExactOnce] at hanswer
  split at hanswer
  · rw [hanswer]
    exact .inl ⟨rfl, .inl ⟨_, rfl⟩⟩
  rename_i htarget
  obtain ⟨hpos, hbound⟩ := validateTargetForParams_spec htarget
  split at hanswer
  · rw [hanswer]
    exact .inl ⟨rfl, .inl ⟨_, rfl⟩⟩
  rename_i hmsg
  simp only at hanswer
  split at hanswer
  · rw [hanswer]
    exact .inl ⟨rfl, .inr (.inr rfl)⟩
  split at hanswer
  · rw [hanswer]
    exact .inl ⟨rfl, .inr (.inl rfl)⟩
  rcases appendState_spec hcap h hpos hbound (validateMessage_spec hmsg msg.tombstone) alloc with
    ⟨e, -, he⟩ | ⟨-, happended⟩
  · rw [he] at hanswer
    rw [hanswer]
    exact .inl ⟨rfl, .inl ⟨e, rfl⟩⟩
  obtain ⟨result, hresult⟩ := happended.done
  have hpair : store.appendState params blake3 target msg.toInputMessage msg.tombstone alloc =
      (.done result,
      (store.appendState params blake3 target msg.toInputMessage msg.tombstone alloc).2) :=
        Prod.ext hresult rfl
  rw [hpair] at hanswer
  rw [hanswer]
  exact .inr ⟨⟨result, rfl⟩, happended.wf, happended.newest⟩

end

end Append

section Change

variable {target : Bytes} {log : TargetLog} {index : Nat}

theorem findNewest_ok {msgid : Bytes}
    (h : store.findNewest params target msgid = .ok (log, index)) :
    store.targets.lookup target = some log ∧ index < log.len := by
  rw [Lotus.findNewest] at h
  split at h
  · cases h
  split at h
  · cases h
  rename_i found hfound
  split at h
  · cases h
  rename_i position hat
  cases h
  refine ⟨hfound, ?_⟩
  have hmem := mem_of_find?_eq_some hat
  rwa [mem_reverse, mem_range] at hmem

theorem logBytes_setEntry (hlog : LogWf params blake3 target log) (hindex : index < log.len)
    (message : StoredMessage) :
    logBytes params target (log.setEntry params.maxPerTarget index message) +
        checkpointStoredEntryBodyLen (log.entry params.maxPerTarget index) =
      logBytes params target log + checkpointStoredEntryBodyLen message := by
  have hview := RingBuffer.view_setEntry hlog.lenBound hindex message
  have hlen : index < (log.view params.maxPerTarget).length := by
    rw [RingBuffer.length_view]
    exact hindex
  have hentry : (log.view params.maxPerTarget)[index] = log.entry params.maxPerTarget index :=
    (getElem_eq_iff _).mpr (RingBuffer.getElem?_view hindex)
  rw [logBytes, logBytes, hview, map_set,
    @sum_eraseIdx index ((log.view params.maxPerTarget).map checkpointStoredEntryBodyLen)
    (by simpa using hlen),
    @sum_eraseIdx index
    (((log.view params.maxPerTarget).map checkpointStoredEntryBodyLen).set index _)
    (by simpa using hlen), getElem_set_self, eraseIdx_set_eq, getElem_map, hentry]
  omega

section

variable (h : Wf params blake3 store) (hlookup : store.targets.lookup target = some log)
variable (hindex : index < log.len)
include h hlookup hindex

theorem Draining.setEntry {message : StoredMessage} (hmessage : message.Wf params blake3)
    {bodyLen : Nat}
    (hbody : bodyLen + checkpointStoredEntryBodyLen (log.entry params.maxPerTarget index) =
      store.checkpointBodyLen + checkpointStoredEntryBodyLen message)
    (hfits : checkpointBodyFits bodyLen params.maxCheckpointBytes = true) :
    Wf params blake3 { targets :=
      store.targets.insert target (log.setEntry params.maxPerTarget index message)
                       checkpointBodyLen := bodyLen } := by
  have hlog := h.logs target log hlookup
  have hbytes := logBytes_setEntry hlog hindex message
  have hisSome : (store.targets.lookup target).isSome = true := by rw [hlookup]; rfl
  refine h.inserted ⟨hlog.targetNonempty, hlog.targetBound, hlog.lenBound, fun m hm => ?_⟩ ?_ hfits
    ((HashMap.count_insert_old hisSome).trans_le h.targetsBound)
      (fun _ => h.nonempty _ log hlookup nofun) fun _ _ => id
  · rw [RingBuffer.view_setEntry hlog.lenBound hindex] at hm
    rcases mem_or_eq_of_mem_set hm with hold | hnew
    · exact hlog.messages m hold
    · rw [hnew]
      exact hmessage
  · have hcounted := h.counted
    rw [bodyBytes, tableSum_erase hlookup] at hcounted
    rw [tableSum_insert]
    omega

theorem entry_wf :
    (log.entry params.maxPerTarget index).Wf params blake3 :=
  (h.logs target log hlookup).messages _ (RingBuffer.mem_view.mpr ⟨index, hindex, rfl⟩)

end

theorem redact_wf (h : Wf params blake3 store) (msgid : Bytes) :
    Wf params blake3 (store.redact params target msgid).2 := by
  rw [Lotus.redact]
  split
  · exact h
  rename_i log index hfind
  obtain ⟨hlookup, hindex⟩ := findNewest_ok hfind
  have hentry := entry_wf h hlookup hindex
  refine h.setEntry hlookup hindex ?_ rfl h.fits
  exact ⟨hentry.hash, hentry.text, hentry.msgid, hentry.sender, hentry.command, hentry.clientTags⟩

theorem bodyLenAfterEdit_ok {entry : StoredMessage} {newText : Bytes} {bodyLen : Nat}
    (h : store.bodyLenAfterEdit params entry newText.length = .ok bodyLen) :
    bodyLen + checkpointStoredEntryBodyLen entry =
        store.checkpointBodyLen +
          checkpointStoredEntryBodyLen { entry with text := newText, hash := blake3 newText } ∧
      checkpointBodyFits bodyLen params.maxCheckpointBytes = true := by
  rw [Lotus.bodyLenAfterEdit] at h
  split at h
  · cases h
  rename_i hsmall
  split at h
  · cases h
  rename_i newEntryLen hnew
  split at h
  · cases h
  rename_i total htotal
  split at h
  · next hfits =>
    cases h
    refine ⟨?_, hfits⟩
    have hlen := checkpointEntryBodyLenFromLengths_eq hnew
    rw [checkedAdd_eq htotal, hlen]
    simp only [checkpointStoredEntryBodyLen] at hsmall ⊢
    omega
  · cases h

theorem edit_wf (h : Wf params blake3 store) (msgid newText : Bytes) (alloc : Allocator) :
    Wf params blake3 (store.edit params blake3 target msgid newText alloc).2 := by
  rw [Lotus.edit]
  split
  · exact h
  rename_i htext
  split
  · exact h
  rename_i log index hfind
  obtain ⟨hlookup, hindex⟩ := findNewest_ok hfind
  have hentry := entry_wf h hlookup hindex
  simp only
  split
  · exact h
  rename_i bodyLen hbody
  split
  · exact h
  · obtain ⟨hlen, hfits⟩ := @bodyLenAfterEdit_ok params blake3 store _ newText _ hbody
    refine h.setEntry hlookup hindex ?_ hlen hfits
    exact ⟨rfl, Nat.le_of_not_lt htext, hentry.msgid, hentry.sender,
      hentry.command, hentry.clientTags⟩

theorem forget_wf (h : Wf params blake3 store) (msgid : Bytes) :
    Wf params blake3 (store.forget params target msgid).2 := by
  rw [Lotus.forget]
  split
  · exact h
  rename_i log index hfind
  obtain ⟨hlookup, hindex⟩ := findNewest_ok hfind
  simp only
  split
  · next hmore => exact h.dropEntry hlookup hindex fun _ => hmore
  · next hlast =>
    rw [not_not] at hlast
    exact (h.dropTarget hlookup hindex hlast).1

end Change

/-- The answer names no fault. -/
def Answer.Faultless : Answer → Prop
  | .appended result => result ≠ .unreachable ∧ result ≠ .diverged
  | .ingested result => result ≠ .unreachable ∧ result ≠ .diverged
  | .changed _ => True

/-- An answer that reports an insertion goes with a store whose newest entry of the target
is the message. -/
def Inserts (params : Params) (blake3 : Blake3) (op : Op) (answer : Answer) (after : Lotus) :
    Prop :=
  match op, answer with
  | .append target msg _, .appended (.done _) => newest params after target =
      some (storedOf blake3 msg false)
  | .ingestExactOnce target msg _, .ingested (.done (.inserted _)) =>
    newest params after target = some (storedOf blake3 msg.toInputMessage msg.tombstone)
  | _, _ => True

theorem step_spec (hcap : 0 < params.maxPerTarget) (h : Wf params blake3 store) (op : Op) :
    Wf params blake3 (step params blake3 store op).2 ∧ (step params blake3 store op).1.Faultless ∧
      Inserts params blake3 op (step params blake3 store op).1 (step params blake3 store op).2 := by
  cases op with
  | append target msg alloc =>
    show Wf params blake3 (store.append params blake3 target msg alloc).2 ∧
      Answer.Faultless (.appended (store.append params blake3 target msg alloc).1) ∧
      Inserts params blake3 (.append target msg alloc)
        (.appended (store.append params blake3 target msg alloc).1)
        (store.append params blake3 target msg alloc).2
    rcases @append_spec _ _ _ target hcap h msg alloc with ⟨e, he⟩ | happended
    · rw [he]
      exact ⟨h, ⟨nofun, nofun⟩, trivial⟩
    · obtain ⟨result, hresult⟩ := happended.done
      rw [hresult]
      exact ⟨happended.wf, ⟨nofun, nofun⟩, happended.newest⟩
  | ingestExactOnce target msg alloc =>
    show Wf params blake3 (store.ingestExactOnce params blake3 target msg alloc).2 ∧
      Answer.Faultless (.ingested (store.ingestExactOnce params blake3 target msg alloc).1) ∧
      Inserts params blake3 (.ingestExactOnce target msg alloc)
        (.ingested (store.ingestExactOnce params blake3 target msg alloc).1)
        (store.ingestExactOnce params blake3 target msg alloc).2
    rcases @ingestExactOnce_spec _ _ _ target hcap h msg alloc with
      ⟨hsame, hanswer⟩ | ⟨⟨result, hresult⟩, hwf, hnewest⟩
    · rw [hsame]
      refine ⟨h, ?_⟩
      rcases hanswer with ⟨e, he⟩ | hduplicate | hequivocation
      · rw [he]
        exact ⟨⟨nofun, nofun⟩, trivial⟩
      · rw [hduplicate]
        exact ⟨⟨nofun, nofun⟩, trivial⟩
      · rw [hequivocation]
        exact ⟨⟨nofun, nofun⟩, trivial⟩
    · rw [hresult]
      exact ⟨hwf, ⟨nofun, nofun⟩, hnewest⟩
  | edit target msgid newText alloc => exact ⟨edit_wf h msgid newText alloc, trivial, trivial⟩
  | redact target msgid => exact ⟨redact_wf h msgid, trivial, trivial⟩
  | forget target msgid => exact ⟨forget_wf h msgid, trivial, trivial⟩

theorem init_wf (hvalid : params.valid = true) :
    Wf params blake3 Lotus.init ∧ 0 < params.maxPerTarget := by
  simp only [Params.valid, Bool.and_eq_true, bne_iff_ne, decide_eq_true_eq] at hvalid
  obtain ⟨⟨⟨⟨⟨-, hcap⟩, -⟩, hbytes⟩, hlimits⟩, -⟩ := hvalid
  refine ⟨⟨rfl, ?_, Nat.zero_le _, nofun, nofun⟩, Nat.pos_of_ne_zero hcap⟩
  have hword : params.maxCheckpointBytes ≤ maxU32 := by
    have := all_eq_true.mp hlimits params.maxCheckpointBytes (by simp)
    simpa using this
  rw [checkpointBodyFits_iff, Nat.min_eq_left hword]
  exact hbytes

end OnyxServer.Lotus
