import Mathlib.Algebra.Order.BigOperators.Group.List
import Mathlib.Algebra.Order.Group.Nat
import OnyxServer.Lotus.Checkpoint
import OnyxServer.Lotus.Runs

/-!
# Restoring the history store

A store within its accounts always seals. The restore of the sealed bytes appends the same
entries in the same order, none of which is refused or evicts another, since what is
appended never exceeds what was sealed.
-/
namespace OnyxServer.Lotus

open Lib List AList

variable {params : Params} {blake3 : Blake3} {store : Lotus}

/-- The messages of a target, oldest first. -/
def history (params : Params) (store : Lotus) (target : Bytes) : List StoredMessage :=
  match store.targets.lookup target with
  | some log => log.view params.maxPerTarget
  | none => []

section Read

theorem readBytes_append (bytes tail : Bytes) :
    readBytes bytes.length (bytes ++ tail) = .ok (bytes, tail) := by
  rw [readBytes, if_neg (by simp), take_left' rfl, drop_left' rfl]

theorem readBytes_front {len : Nat} {bytes : Bytes} (hlen : bytes.length = len) (tail : Bytes) :
    readBytes len (bytes ++ tail) = .ok (bytes, tail) := by
  rw [← hlen, readBytes_append]

theorem takeInt_append {width n : Nat} (h : n < 256 ^ width) (tail : Bytes) :
    takeInt width (beBytes width n ++ tail) = .ok (n, tail) := by
  rw [takeInt, readBytes_front (beBytes_length width n)]
  show Except.ok (beNat (beBytes width n), tail) = _
  rw [beNat_beBytes h]

theorem takeInt_u64 (n : UInt64) (tail : Bytes) :
    takeInt 8 (beBytes 8 n.toNat ++ tail) = .ok (n.toNat, tail) :=
  takeInt_append (by have := n.toNat_lt; simpa using this) tail

def exactOf (message : StoredMessage) : ExactInputMessage where
  msgid := message.msgid
  sender := message.sender
  text := message.text
  timestamp := message.timestamp
  command := message.command
  clientTags := message.clientTags
  tombstone := message.tombstone

theorem entryFlags_spec (message : StoredMessage) :
    entryFlags message &&& ~~~(checkpointFlagTombstone ||| checkpointFlagHasTags) = 0 ∧
      (entryFlags message &&& checkpointFlagHasTags != 0) = message.clientTags.isSome ∧
      (entryFlags message &&& checkpointFlagTombstone != 0) = message.tombstone := by
  rw [entryFlags]
  cases message.tombstone <;> cases message.clientTags.isSome <;> decide

theorem Params.limits (hvalid : params.valid = true) :
    params.maxTargets ≤ maxU32 ∧ params.maxPerTarget ≤ maxU32 ∧ params.maxText ≤ maxU32 ∧
    params.maxTarget ≤ maxU32 ∧
      params.maxMsgid ≤ maxU32 ∧ params.maxSender ≤ maxU32 ∧ params.maxCommand ≤ maxU32 ∧
      params.maxClientTags ≤ maxU32 ∧ params.maxCheckpointBytes ≤ maxU32 := by
  simp only [Params.valid, Bool.and_eq_true] at hvalid
  simpa using hvalid.1.2

theorem tagsLen_eq (clientTags : Option Bytes) :
    tagsLen clientTags = (tagsOf clientTags).length := by
  cases clientTags <;> rfl

theorem readEntry_encodeEntry (hvalid : params.valid = true) {message : StoredMessage}
    (h : message.Wf params blake3)
    (tail : Bytes) : readEntry params blake3 params.maxText (encodeEntry message ++ tail) =
      .ok (exactOf message, tail) := by
  obtain ⟨-, -, htext, -, hmsgid, hsender, hcommand, hclient, -⟩ := Params.limits hvalid
  have hword : ∀ {n : Nat}, n ≤ maxU32 → n < 256 ^ 4 := by
    intro n hn
    have : maxU32 < 256 ^ 4 := by decide
    omega
  have htags : (tagsOf message.clientTags).length ≤ params.maxClientTags := by
    cases hclientTags : message.clientTags with
    | none => exact Nat.zero_le _
    | some tags => exact h.clientTags tags hclientTags
  obtain ⟨hflags, hhasTags, htombstone⟩ := entryFlags_spec message
  have hlimits :
      ¬(params.maxMsgid < message.msgid.length ∨ params.maxSender < message.sender.length ∨
      params.maxText < message.text.length ∨ params.maxText < message.text.length ∨
      params.maxCommand < message.command.length ∨
      params.maxClientTags < (tagsOf message.clientTags).length) := by
    have := h.text
    have := h.msgid
    have := h.sender
    have := h.command
    omega
  have hempty : ¬(message.clientTags.isSome = false ∧ (tagsOf message.clientTags).length ≠ 0) := by
    rintro ⟨hnone, hlen⟩
    rw [Option.isSome_eq_false_iff, Option.isNone_iff_eq_none] at hnone
    rw [hnone] at hlen
    exact hlen rfl
  have hback : (if message.clientTags.isSome then some (tagsOf message.clientTags) else none) =
      message.clientTags := by
    cases message.clientTags <;> rfl
  have hhead : [entryFlags message].headD 0 = entryFlags message := rfl
  have hfirst : readBytes 1 (encodeEntry message ++ tail) = .ok ([entryFlags message], _) :=
    (congrArg (readBytes 1) (append_assoc _ _ _)).trans (readBytes_front rfl _)
  rw [readEntry, hfirst]
  simp only [bind, Except.bind, append_assoc, hhead, hflags, takeInt_u64,
    readBytes_front message.hash.property,
    takeInt_append (hword (h.msgid.trans hmsgid)), takeInt_append (hword (h.sender.trans hsender)),
    takeInt_append (hword (h.text.trans htext)), takeInt_append (hword (h.command.trans hcommand)),
    takeInt_append (hword (htags.trans hclient)), hhasTags, readBytes_append, if_neg hlimits,
    if_neg hempty,
    htombstone, hback, pure, Except.pure, ne_eq, not_true_eq_false, if_false]
  rw [if_neg (by rw [h.hash]; exact not_not.mpr rfl), UInt64.ofNat_toNat]
  rfl

end Read

/-! ## Appending what was sealed -/

section Restore

variable {target : Bytes} {message : StoredMessage}

theorem history_of_lookup {log : TargetLog} (h : store.targets.lookup target = some log) :
    history params store target = log.view params.maxPerTarget := by
  rw [history, h]

/-- What appending one entry without eviction leaves behind. -/
structure Extends (params : Params) (blake3 : Blake3) (target : Bytes) (message : StoredMessage)
    (before after : Lotus) : Prop where
  wf : Wf params blake3 after
  present : ∃ log, after.targets.lookup target = some log ∧
    log.view params.maxPerTarget = history params before target ++ [message]
  others : ∀ other, other ≠ target → after.targets.lookup other = before.targets.lookup other
  count : after.count = before.count + if (before.targets.lookup target).isNone then 1 else 0
  bodyLen : after.checkpointBodyLen =
    before.checkpointBodyLen + addedLen before target (checkpointStoredEntryBodyLen message)

theorem validateMessage_ok {msg : InputMessage} (h : (storedOf blake3 msg false).Wf params blake3) :
    validateMessage params msg = .ok () := by
  have htags : msg.clientTags.any (fun tags => decide (params.maxClientTags < tags.length)) =
      false := by
    cases hclient : msg.clientTags with
    | none => rfl
    | some tags =>
      have := h.clientTags tags hclient
      simpa using this
  have htext : msg.text.length ≤ params.maxText := h.text
  have hmsgid : msg.msgid.length ≤ params.maxMsgid := h.msgid
  have hsender : msg.sender.length ≤ params.maxSender := h.sender
  have hcommand : msg.command.length ≤ params.maxCommand := h.command
  rw [validateMessage, if_neg (by omega), if_neg (by omega), if_neg (by omega),
    if_neg (by omega), htags]
  rfl

theorem checkpointEntryBodyLen_some {msg : InputMessage} {tombstone : Bool}
    (h : checkpointStoredEntryBodyLen (storedOf blake3 msg tombstone) < usizeLimit) :
    checkpointEntryBodyLen msg =
      some (checkpointStoredEntryBodyLen (storedOf blake3 msg tombstone)) := by
  rw [checkpointStoredEntryBodyLen] at h
  simp only [storedOf] at h
  rw [checkpointEntryBodyLen, checkpointEntryBodyLenFromLengths, checkedAdd_some (by omega)]
  simp only
  rw [checkedAdd_some (by omega)]
  simp only
  rw [checkedAdd_some (by omega)]
  simp only
  rw [checkedAdd_some (by omega)]
  simp only
  rw [checkedAdd_some (by omega)]
  rfl

/-- What fits behind the rest fits alone. -/
theorem minimum_le_added (h : Wf params blake3 store) (newEntryLen : Nat) :
    checkpointTargetPrefixLen + target.length + newEntryLen ≤
      store.checkpointBodyLen + addedLen store target newEntryLen := by
  rw [addedLen]
  cases hlookup : store.targets.lookup target with
  | none =>
    simp only [Option.isNone_none, if_true]
    omega
  | some log =>
    have hlog := @tableSum_le _ _ _ (logBytes params) _ _ _ hlookup
    rw [h.counted, bodyBytes]
    rw [logBytes] at hlog
    simp only [Option.isNone_some, Bool.false_eq_true, if_false]
    omega

section

variable (hcap : 0 < params.maxPerTarget) (h : Wf params blake3 store) (htarget : 0 < target.length)
variable (htargetBound : target.length ≤ params.maxTarget)
include hcap h htarget htargetBound

/-- An append with room everywhere evicts nothing. -/
theorem appendState_extends {msg : InputMessage} {tombstone : Bool} {stored : StoredMessage}
    (hstoredEq : storedOf blake3 msg tombstone = stored) (hstored : stored.Wf params blake3)
    (hroom : (history params store target).length < params.maxPerTarget)
    (hcount : store.targets.lookup target = none → store.count < params.maxTargets)
    (hfits : checkpointBodyFits
      (store.checkpointBodyLen + addedLen store target (checkpointStoredEntryBodyLen stored))
      params.maxCheckpointBytes = true) {alloc : Allocator} (halloc : ∀ site, alloc site = true) :
    ∃ result after, store.appendState params blake3 target msg tombstone alloc =
      (.done result, after) ∧
      Extends params blake3 target stored store after := by
  have hbound := checkpointBodyFits_iff.mp hfits
  have hword : maxU32 < usizeLimit := by decide
  have hle := @minimum_le_added _ _ _ target h (checkpointStoredEntryBodyLen stored)
  have hlen : checkpointEntryBodyLen msg = some (checkpointStoredEntryBodyLen stored) := by
    rw [← hstoredEq]
    refine checkpointEntryBodyLen_some ?_
    rw [hstoredEq]
    omega
  have hminimum := checkedAdd_some
    (show checkpointTargetPrefixLen + target.length + checkpointStoredEntryBodyLen stored <
      usizeLimit by omega)
  have hminimumFits := checkpointBodyFits_mono hfits hle
  have happendFits :
      store.appendFitsCheckpoint params target (checkpointStoredEntryBodyLen stored) = true :=
    appendFitsCheckpoint_iff.mpr hfits
  have hloop :
      ∀ rounds, evictLoop params target (checkpointStoredEntryBodyLen stored) rounds store false =
      .done (store, false) := by
    intro rounds
    cases rounds <;> rw [evictLoop, if_pos happendFits]
  have hlimit :
      ¬((store.targets.lookup target).isNone = true ∧ params.maxTargets ≤ store.count) := by
    rintro ⟨hnone, hfull⟩
    have := hcount (Option.isNone_iff_eq_none.mp hnone)
    omega
  have hfirst : (List.range 5).any (fun site => !alloc site) = false := by simp [halloc]
  have hsecond : (List.range 3).any (fun site => !alloc (5 + site)) = false := by simp [halloc]
  rw [Lotus.appendState, if_neg hlimit, hlen]
  simp only [hminimum, hminimumFits, hfirst, hsecond, Bool.not_true, Bool.false_eq_true, if_false,
    hstoredEq]
  cases hlookup : store.targets.lookup target with
  | some log =>
    have hless : log.len < params.maxPerTarget := by
      rw [history_of_lookup hlookup, RingBuffer.length_view] at hroom
      exact hroom
    simp only [Lotus.appendPresent, Lotus.makeRoom, if_neg hless.ne, hloop, hlookup]
    obtain ⟨hwf, -⟩ := (h.draining target).insertPresent hlookup hless hstored rfl happendFits
    refine ⟨_, _, rfl, hwf, ⟨_, lookup_insert _, ?_⟩,
      fun other hother => lookup_insert_ne hother, ?_, ?_⟩
    · rw [RingBuffer.view_appendTake hless, history_of_lookup hlookup]
    · rw [hlookup]
      exact HashMap.count_insert_old (by rw [hlookup]; rfl)
    · simp [addedLen, hlookup]
  | none =>
    simp only [Lotus.appendAbsent, hloop]
    obtain ⟨hwf, -⟩ := (h.draining target).insertAbsent hlookup hcap htarget htargetBound
      (hcount hlookup) hstored rfl
      happendFits fun _ => stored
    refine ⟨_, _, rfl, hwf, ⟨_, lookup_insert _, ?_⟩,
      fun other hother => lookup_insert_ne hother, ?_, ?_⟩
    · rw [RingBuffer.view_appendTake hcap, history, hlookup]
      rfl
    · rw [hlookup]
      show (store.targets.insert target _).entries.length = _
      rw [entries_insert_of_notMem (lookup_eq_none.mp hlookup)]
      rfl
    · simp [addedLen, hlookup]

theorem restoreEntry_extends (hmessage : message.Wf params blake3)
    (hroom : (history params store target).length < params.maxPerTarget)
    (hcount : store.targets.lookup target = none → store.count < params.maxTargets)
    (hfits : checkpointBodyFits
      (store.checkpointBodyLen + addedLen store target (checkpointStoredEntryBodyLen message))
      params.maxCheckpointBytes = true) {alloc : Allocator} (halloc : ∀ site, alloc site = true) :
    ∃ after, restoreEntry params blake3 target (exactOf message) store alloc = .done after ∧
      Extends params blake3 target message store after := by
  have hstoredEq : storedOf blake3 (exactOf message).toInputMessage false =
      { message with tombstone := false } := by
    rw [storedOf]
    simp only [exactOf, ← hmessage.hash]
  have hstored : StoredMessage.Wf params blake3 { message with tombstone := false } :=
    ⟨hmessage.hash, hmessage.text, hmessage.msgid, hmessage.sender, hmessage.command,
      hmessage.clientTags⟩
  have htargetOk : validateTargetForParams params target = .ok () := by
    rw [validateTargetForParams, if_neg (by omega), if_neg (by omega)]
  have hmsgOk :=
    validateMessage_ok
    (show (storedOf blake3 (exactOf message).toInputMessage false).Wf params blake3 by
    rw [hstoredEq]
    exact hstored)
  obtain ⟨result, middle, happend, hextends⟩ :=
    appendState_extends hcap h htarget htargetBound hstoredEq hstored hroom hcount hfits halloc
  obtain ⟨log, hlookup, hview⟩ := hextends.present
  have hlog := hextends.wf.logs target log hlookup
  have hpos := hextends.wf.nonempty target log hlookup (by simp)
  have hindex : log.len - 1 < log.len := by omega
  have hlen : log.len - 1 = (history params store target).length := by
    rw [← @RingBuffer.length_view _ params.maxPerTarget log, hview, length_append, length_singleton,
      Nat.add_sub_cancel]
  have hlast : log.entry params.maxPerTarget (log.len - 1) =
      { message with tombstone := false } := by
    have hat := @RingBuffer.getElem?_view _ params.maxPerTarget log _ hindex
    rw [hview, hlen, List.getElem?_concat_length] at hat
    rw [hlen]
    exact (Option.some.inj hat).symm
  have hafter : restoreEntry params blake3 target (exactOf message) store alloc = .done
      ⟨middle.targets.insert target (log.setEntry params.maxPerTarget (log.len - 1) message),
        middle.checkpointBodyLen⟩ := by
    rw [restoreEntry, Lotus.append, htargetOk, hmsgOk]
    simp only [happend, hlookup, hlast]
    rfl
  refine ⟨_, hafter, ?_, ⟨_, lookup_insert _, ?_⟩, fun other hother => ?_, ?_, hextends.bodyLen⟩
  · refine hextends.wf.setEntry hlookup hindex hmessage ?_ hextends.wf.fits
    rw [hlast]
    rfl
  · rw [RingBuffer.view_setEntry hlog.lenBound hindex, hview, hlen, set_append_right _ _ le_rfl,
      Nat.sub_self]
    rfl
  · rw [lookup_insert_ne hother]
    exact hextends.others other hother
  · rw [← hextends.count]
    exact HashMap.count_insert_old (by rw [hlookup]; rfl)

end

/-- What the entries of a row take up. -/
def entriesBytes (messages : List StoredMessage) : Nat :=
  (messages.map checkpointStoredEntryBodyLen).sum

theorem decodeEntries_encoded (hvalid : params.valid = true) (hcap : 0 < params.maxPerTarget)
    (htarget : 0 < target.length)
    (htargetBound : target.length ≤ params.maxTarget) {alloc : Allocator}
    (halloc : ∀ site, alloc site = true)
    (tail : Bytes) {messages : List StoredMessage} {site : Nat} (h : Wf params blake3 store)
    (hmessages : ∀ message ∈ messages, message.Wf params blake3)
    (hroom : (history params store target ++ messages).length ≤ params.maxPerTarget)
    (hcount : store.targets.lookup target = none → store.count < params.maxTargets)
    (hfits : checkpointBodyFits
      (store.checkpointBodyLen + addedLen store target (entriesBytes messages))
      params.maxCheckpointBytes = true) :
    ∃ after, decodeEntries params blake3 params.maxText target alloc messages.length site store
        (messages.flatMap encodeEntry ++ tail) = .done (after, tail) ∧
      Wf params blake3 after ∧
      history params after target = history params store target ++ messages ∧
      (∀ other, other ≠ target → after.targets.lookup other = store.targets.lookup other) ∧
      (messages ≠ [] →
        after.count = store.count + (if (store.targets.lookup target).isNone then 1 else 0) ∧
        after.checkpointBodyLen =
          store.checkpointBodyLen + addedLen store target (entriesBytes messages)) := by
  induction messages generalizing store site with
  | nil => exact ⟨store, rfl, h, (append_nil _).symm, fun _ _ => rfl, fun hne => absurd rfl hne⟩
  | cons message messages ih =>
    obtain ⟨hmessage, hrest⟩ := forall_mem_cons.mp hmessages
    have hsum : entriesBytes (message :: messages) =
        checkpointStoredEntryBodyLen message + entriesBytes messages := rfl
    rw [length_append, length_cons] at hroom
    have hadded : ∀ len, addedLen store target (checkpointStoredEntryBodyLen message + len) =
        addedLen store target (checkpointStoredEntryBodyLen message) + len := fun len => by
      rw [addedLen, addedLen, Nat.add_assoc]
    rw [hsum, hadded] at hfits
    obtain ⟨middle, hrestore, hextends⟩ :=
      restoreEntry_extends hcap h htarget htargetBound hmessage (by omega) hcount
      (checkpointBodyFits_mono hfits (by omega)) (fun n => halloc (site + n))
    obtain ⟨log, hlookup, hview⟩ := hextends.present
    have hhistory : history params middle target = history params store target ++ [message] := by
      rw [history_of_lookup hlookup, hview]
    have hmiddleAdded : ∀ len, addedLen middle target len = len := fun len => by
      rw [addedLen, hlookup]
      simp
    obtain ⟨after, hdecode, hwf, hfinal, hothers, hnext⟩ := @ih middle (site + 8) hextends.wf hrest
      (by rw [hhistory]; simp only [length_append, length_singleton]; omega)
      (fun hnone => by rw [hlookup] at hnone; cases hnone)
      (by rw [hextends.bodyLen, hmiddleAdded, Nat.add_assoc]; exact hfits)
    refine ⟨after, ?_, hwf, ?_,
      fun other hother => (hothers other hother).trans (hextends.others other hother), fun _ => ?_⟩
    · rw [length_cons, decodeEntries, flatMap_cons, append_assoc,
        readEntry_encodeEntry hvalid hmessage]
      simp only [hrestore]
      exact hdecode
    · rw [hfinal, hhistory, append_assoc, singleton_append]
    · cases messages with
      | nil =>
        cases hdecode
        exact ⟨hextends.count, hextends.bodyLen⟩
      | cons next rest =>
        obtain ⟨hcountAfter, hbodyAfter⟩ := hnext (cons_ne_nil _ _)
        rw [hlookup] at hcountAfter
        rw [hmiddleAdded] at hbodyAfter
        refine ⟨by rw [hcountAfter, hextends.count]; simp, ?_⟩
        rw [hbodyAfter, hextends.bodyLen, hsum, hadded, Nat.add_assoc]

/-- What a row takes up. -/
def rowBytes (row : TargetRow) : Nat :=
  checkpointTargetPrefixLen + row.1.length + entriesBytes row.2

structure RowWf (params : Params) (blake3 : Blake3) (row : TargetRow) : Prop where
  targetNonempty : 0 < row.1.length
  targetBound : row.1.length ≤ params.maxTarget
  lenPos : 0 < row.2.length
  lenBound : row.2.length ≤ params.maxPerTarget
  messages : ∀ message ∈ row.2, message.Wf params blake3

theorem readTarget_encodeTarget (hvalid : params.valid = true) {row : TargetRow}
    (hrow : RowWf params blake3 row)
    {previous : Option Bytes} (hprevious : ∀ prior ∈ previous, prior < row.1) (tail : Bytes) :
    readTarget params previous (encodeTarget row ++ tail) =
      .ok (row.1, row.2.length, row.2.flatMap encodeEntry ++ tail) := by
  obtain ⟨-, hper, -, htarget, -⟩ := Params.limits hvalid
  have hword : maxU32 < 256 ^ 4 := by decide
  have hpos := hrow.targetNonempty
  have hbound := hrow.targetBound
  have hlenPos := hrow.lenPos
  have hlenBound := hrow.lenBound
  have horder := (order_checks hprevious).2.2
  rw [readTarget, encodeTarget]
  simp only [append_assoc, takeInt_append (show row.1.length < 256 ^ 4 by omega),
    takeInt_append (show row.2.length < 256 ^ 4 by omega), readBytes_append, bind, Except.bind,
    pure, Except.pure, horder]
  rw [if_neg (by omega)]
  rfl

theorem decodeTargets_encoded (hvalid : params.valid = true) (hcap : 0 < params.maxPerTarget)
    {alloc : Allocator}
    (halloc : ∀ site, alloc site = true) {rows : List TargetRow} {previous : Option Bytes}
    {total : Nat}
    (h : Wf params blake3 store) (hrows : ∀ row ∈ rows, RowWf params blake3 row)
    (hasc : Ascending Prod.fst rows) (hprevious : ∀ prior ∈ previous, ∀ row ∈ rows, prior < row.1)
    (hnew : ∀ row ∈ rows, store.targets.lookup row.1 = none)
    (hcount : store.count + rows.length ≤ params.maxTargets)
    (hfits : checkpointBodyFits (store.checkpointBodyLen + (rows.map rowBytes).sum)
      params.maxCheckpointBytes = true) :
    ∃ after, decodeTargets params blake3 params.maxText alloc rows.length previous total store
      (rows.flatMap encodeTarget) =
        .done (after, total + (rows.map fun row => row.2.length).sum, []) ∧
      Wf params blake3 after ∧ (∀ row ∈ rows, history params after row.1 = row.2) ∧
      ∀ other, (∀ row ∈ rows, row.1 ≠ other) →
      history params after other = history params store other := by
  induction rows generalizing store previous total with
  | nil => exact ⟨store, rfl, h, nofun, fun _ _ => rfl⟩
  | cons row rows ih =>
    obtain ⟨hrow, hrest⟩ := forall_mem_cons.mp hrows
    obtain ⟨habsent, hnewRest⟩ := forall_mem_cons.mp hnew
    obtain ⟨hfirst, hascRest⟩ := ascending_cons.mp hasc
    have hhistory : history params store row.1 = [] := by rw [history, habsent]
    have hadded : addedLen store row.1 (entriesBytes row.2) = rowBytes row := by
      rw [addedLen, habsent, rowBytes]
      simp
    rw [map_cons, sum_cons] at hfits
    rw [length_cons] at hcount
    obtain ⟨middle, hdecode, hwf, hmiddle, hothers, hnext⟩ :=
      @decodeEntries_encoded _ _ _ _ hvalid hcap
      hrow.targetNonempty hrow.targetBound _ halloc (rows.flatMap encodeTarget) row.2
        (8 * total) h hrow.messages
      (by rw [hhistory, nil_append]; exact hrow.lenBound) (fun _ => by omega)
      (by rw [hadded]; exact checkpointBodyFits_mono hfits (by omega))
    have hnonempty : row.2 ≠ [] := length_pos_iff.mp hrow.lenPos
    obtain ⟨hmiddleCount, hmiddleBody⟩ := hnext hnonempty
    rw [habsent, Option.isNone_none, if_pos rfl] at hmiddleCount
    rw [hadded] at hmiddleBody
    have hapart : ∀ other ∈ rows, other.1 ≠ row.1 := fun other hother => (hfirst other hother).ne'
    obtain ⟨after, hloop, hwfAfter, hfound, hkept⟩ :=
      @ih middle (some row.1) (total + row.2.length) hwf hrest hascRest
      (fun prior hprior other hother => by
        obtain rfl := Option.some.inj hprior; exact hfirst other hother)
      (fun other hother => by
        rw [hothers other.1 (hapart other hother)]; exact hnewRest other hother)
      (by omega) (by rw [hmiddleBody, Nat.add_assoc]; exact hfits)
    refine ⟨after, ?_, hwfAfter, forall_mem_cons.mpr ⟨?_, hfound⟩, fun other hother => ?_⟩
    · rw [length_cons, decodeTargets, flatMap_cons,
        readTarget_encodeTarget hvalid hrow
        (fun prior hprior => hprevious prior hprior row mem_cons_self)]
      simp only [hdecode, hloop, map_cons, sum_cons, Nat.add_assoc]
    · rw [hkept row.1 hapart, hmiddle, hhistory, nil_append]
    · obtain ⟨hne, hotherRows⟩ := forall_mem_cons.mp hother
      rw [hkept other hotherRows, history, history, hothers other (Ne.symm hne)]

end Restore

section Rows

theorem mem_deterministicRows {row : TargetRow} : row ∈ deterministicRows params store ↔
    ∃ log, store.targets.lookup row.1 = some log ∧ row.2 = log.view params.maxPerTarget := by
  rw [deterministicRows, mem_map]
  constructor
  · rintro ⟨entry, hentry, rfl⟩
    rw [(sortByKey_perm _ _).mem_iff] at hentry
    exact ⟨entry.2, mem_lookup_iff.mpr hentry, rfl⟩
  · rintro ⟨log, hlookup, hview⟩
    refine ⟨⟨row.1, log⟩, ?_, Prod.ext rfl hview.symm⟩
    rw [(sortByKey_perm _ _).mem_iff]
    exact mem_lookup_iff.mp hlookup

theorem deterministicRows_ascending : Ascending Prod.fst (deterministicRows params store) :=
  pairwise_map.mpr (sortByKey_ascending store.targets.nodupKeys)

/-- A sum over the rows is a sum over the table. -/
theorem deterministicRows_sum (weight : Bytes → List StoredMessage → Nat) :
    ((deterministicRows params store).map fun row => weight row.1 row.2).sum =
      tableSum (fun target log => weight target (log.view params.maxPerTarget)) store.targets := by
  rw [deterministicRows, map_map, tableSum]
  exact ((sortByKey_perm _ _).map _).sum_nat

theorem deterministicRows_bytes :
    ((deterministicRows params store).map rowBytes).sum = bodyBytes params store :=
  deterministicRows_sum fun target messages => checkpointTargetPrefixLen + target.length +
    entriesBytes messages

theorem deterministicRows_total :
    ((deterministicRows params store).map fun row => row.2.length).sum =
      store.totalStoredCount := by
  rw [deterministicRows_sum fun _ messages => messages.length, Lotus.totalStoredCount]
  simp only [RingBuffer.length_view]

theorem deterministicRows_length : (deterministicRows params store).length = store.count := by
  rw [deterministicRows, length_map]
  exact (sortByKey_perm _ _).length_eq

theorem deterministicRows_wf (h : Wf params blake3 store) :
    ∀ row ∈ deterministicRows params store, RowWf params blake3 row := by
  intro row hrow
  obtain ⟨log, hlookup, hview⟩ := mem_deterministicRows.mp hrow
  have hlog := h.logs row.1 log hlookup
  have hpos := h.nonempty row.1 log hlookup nofun
  refine ⟨hlog.targetNonempty, hlog.targetBound, ?_, ?_, ?_⟩
  · rw [hview, RingBuffer.length_view]
    exact hpos
  · rw [hview, RingBuffer.length_view]
    exact hlog.lenBound
  · rw [hview]
    exact hlog.messages

end Rows

section Seal

theorem addAll_ok {maxBytes current : Nat} {lens : List Nat}
    (h : current + lens.sum ≤ min maxBytes maxU32) :
    addAll maxBytes lens current = .ok (current + lens.sum) := by
  have hword : maxU32 < usizeLimit := by decide
  induction lens generalizing current with
  | nil => rfl
  | cons len lens ih =>
    rw [sum_cons] at h
    rw [addAll, checkpointLenAdd, checkedAdd_some (by omega)]
    simp only
    rw [if_neg (by omega)]
    simp only
    rw [ih (by omega), sum_cons, Nat.add_assoc]

theorem measureEntries_ok {messages : List StoredMessage}
    (h : ∀ message ∈ messages, message.Wf params blake3) {current : Nat}
    (hbound : current + entriesBytes messages ≤ min params.maxCheckpointBytes maxU32) :
    measureEntries params blake3 messages current = .ok (current + entriesBytes messages) := by
  induction messages generalizing current with
  | nil => rfl
  | cons message messages ih =>
    obtain ⟨hmessage, hrest⟩ := forall_mem_cons.mp h
    have hsum : entriesBytes (message :: messages) =
        checkpointStoredEntryBodyLen message + entriesBytes messages := rfl
    have hlens :
        [checkpointEntryPrefixLen, message.msgid.length, message.sender.length, message.text.length,
        message.command.length, (tagsOf message.clientTags).length].sum =
          checkpointStoredEntryBodyLen message := by
      rw [checkpointStoredEntryBodyLen, tagsLen_eq]
      simp only [sum_cons, sum_nil]
      omega
    have hcheck : validateCheckpointStoredMessage params blake3 message = .ok () := by
      have htags :
          message.clientTags.any (fun tags => decide (params.maxClientTags < tags.length)) =
            false := by
        cases hclient : message.clientTags with
        | none => rfl
        | some tags =>
          have := hmessage.clientTags tags hclient
          simpa using this
      have := hmessage.text
      have := hmessage.msgid
      have := hmessage.sender
      have := hmessage.command
      rw [validateCheckpointStoredMessage, if_neg (by omega), htags, if_neg (by simp),
        if_neg (not_not.mpr hmessage.hash)]
    rw [hsum] at hbound
    rw [measureEntries, hcheck]
    simp only
    rw [addAll_ok (by rw [hlens]; omega), hlens]
    simp only
    rw [ih hrest (by omega), hsum, Nat.add_assoc]

theorem measureTargets_ok {rows : List TargetRow} (h : ∀ row ∈ rows, RowWf params blake3 row)
    {current : Nat}
    (hbound : current + (rows.map rowBytes).sum ≤ min params.maxCheckpointBytes maxU32) :
    measureTargets params blake3 rows current = .ok (current + (rows.map rowBytes).sum) := by
  induction rows generalizing current with
  | nil => rfl
  | cons row rows ih =>
    obtain ⟨hrow, hrest⟩ := forall_mem_cons.mp h
    have hpos := hrow.lenPos
    have hlen := hrow.lenBound
    rw [map_cons, sum_cons, rowBytes] at hbound
    have hlens : [checkpointTargetPrefixLen, row.1.length].sum =
        checkpointTargetPrefixLen + row.1.length := by
      simp only [sum_cons, sum_nil, Nat.add_zero]
    rw [measureTargets, if_neg (by omega), addAll_ok (by rw [hlens]; omega), hlens]
    simp only
    rw [measureEntries_ok hrow.messages (by omega)]
    simp only
    rw [ih hrest (by omega), map_cons, sum_cons, rowBytes]
    congr 1
    omega

def sealedPrefix (params : Params) (store : Lotus) : Bytes :=
  encodePrefix params store store.checkpointBodyLen

def sealedBytes (params : Params) (blake3 : Blake3) (store : Lotus) : Bytes :=
  sealedPrefix params store ++ (checkpointChecksum blake3 (sealedPrefix params store)).val

theorem encodeCheckpoint_eq (h : Wf params blake3 store) (alloc : Allocator) :
    encodeCheckpoint params blake3 store alloc =
      if alloc 0 then .ok (sealedBytes params blake3 store) else .error .outOfMemory := by
  have hfits := checkpointBodyFits_iff.mp h.fits
  have hcounted : ((deterministicRows params store).map rowBytes).sum =
      store.checkpointBodyLen := by
    rw [deterministicRows_bytes, h.counted]
  have hmeasure := @measureTargets_ok _ _ _ (deterministicRows_wf h) 0 (by rw [hcounted]; omega)
  rw [hcounted, Nat.zero_add] at hmeasure
  have htotal :=
    @addAll_ok params.maxCheckpointBytes checkpointHeaderLen
    [store.checkpointBodyLen, checkpointChecksumLen] (by
    simp only [sum_cons, sum_nil]
    omega)
  rw [encodeCheckpoint, hmeasure]
  simp only [htotal]
  rw [if_neg (not_not.mpr rfl)]
  cases alloc 0 <;> rfl

theorem encodeEntry_length (message : StoredMessage) :
    (encodeEntry message).length = checkpointStoredEntryBodyLen message := by
  rw [checkpointStoredEntryBodyLen, tagsLen_eq]
  simp only [encodeEntry, length_append, length_singleton, beBytes_length, message.hash.property,
    checkpointEntryPrefixLen]
  omega

theorem encodeTarget_length (row : TargetRow) : (encodeTarget row).length = rowBytes row := by
  have hentries : (row.2.flatMap encodeEntry).length = entriesBytes row.2 := by
    rw [length_flatMap, entriesBytes]
    congr 1
    exact map_congr_left fun message _ => encodeEntry_length message
  simp only [encodeTarget, length_append, beBytes_length, hentries, rowBytes,
    checkpointTargetPrefixLen]
  omega

theorem encodeHeader_length (targetCount total body : Nat) :
    (encodeHeader params targetCount total body).length = checkpointHeaderLen := by
  simp [encodeHeader, checkpointMagic, checkpointHeaderLen]

theorem sealedPrefix_length (h : Wf params blake3 store) :
    (sealedPrefix params store).length = checkpointHeaderLen + store.checkpointBodyLen := by
  have hrows : ((deterministicRows params store).flatMap encodeTarget).length =
      store.checkpointBodyLen := by
    rw [length_flatMap, h.counted, ← deterministicRows_bytes]
    congr 1
    exact map_congr_left fun row _ => encodeTarget_length row
  rw [sealedPrefix, encodePrefix, length_append, encodeHeader_length, hrows]

theorem encodeHeader_fields (hvalid : params.valid = true) {targetCount total body : Nat}
    (htargets : targetCount < 256 ^ 4)
    (htotal : total < 256 ^ 4) (hbody : body < 256 ^ 4) (tail : Bytes) :
    let bytes := encodeHeader params targetCount total body ++ tail
    (bytes.take 4 = checkpointMagic ∧ slice bytes 4 5 = [checkpointVersion] ∧
      slice bytes 5 8 = [0, 0, 0]) ∧
      (beNat (slice bytes 8 12) = params.maxTargets ∧
        beNat (slice bytes 12 16) = params.maxPerTarget ∧
        beNat (slice bytes 16 20) = params.maxText ∧ beNat (slice bytes 20 24) = params.maxTarget ∧
        beNat (slice bytes 24 28) = params.maxMsgid ∧ beNat (slice bytes 28 32) = params.maxSender ∧
        beNat (slice bytes 32 36) = params.maxCommand ∧
        beNat (slice bytes 36 40) = params.maxClientTags) ∧
      beNat (slice bytes 40 44) = targetCount ∧ beNat (slice bytes 44 48) = total ∧
        beNat (slice bytes 48 52) = body := by
  intro bytes
  obtain ⟨hmaxTargets, hmaxPer, hmaxText, hmaxTarget, hmaxMsgid, hmaxSender, hmaxCommand, hmaxTags,
    -⟩ := Params.limits hvalid
  have hword : maxU32 < 256 ^ 4 := by decide
  have height : (checkpointMagic ++ [checkpointVersion, 0, 0, 0]).length = 8 := rfl
  have hbytes :
      bytes = (checkpointMagic ++ [checkpointVersion, 0, 0, 0]) ++ (beBytes 4 params.maxTargets ++
      (beBytes 4 params.maxPerTarget ++ (beBytes 4 params.maxText ++ (beBytes 4 params.maxTarget ++
        (beBytes 4 params.maxMsgid ++ (beBytes 4 params.maxSender ++ (beBytes 4 params.maxCommand ++
          (beBytes 4 params.maxClientTags ++
            (beBytes 4 targetCount ++ (beBytes 4 total ++ (beBytes 4 body ++ tail))))))))))) := by
    simp only [bytes, encodeHeader, append_assoc]
  refine ⟨⟨rfl, rfl, rfl⟩, ⟨?_, ?_, ?_, ?_, ?_, ?_, ?_, ?_⟩, ?_, ?_, ?_⟩ <;>
    rw [hbytes, slice_skip height (by decide)] <;>
    simp only [slice_skip (beBytes_length _ _), slice_first (beBytes_length _ _), Nat.reduceSub,
      Nat.reduceLeDiff] <;>
    exact beNat_beBytes (by omega)

theorem totalStoredCount_bounds (h : Wf params blake3 store) :
    store.totalStoredCount ≤ store.checkpointBodyLen ∧
      store.totalStoredCount ≤ params.maxTargets * params.maxPerTarget := by
  rw [← deterministicRows_total, h.counted, ← deterministicRows_bytes]
  have hbound := h.targetsBound
  rw [← @deterministicRows_length params store] at hbound
  have hrows := deterministicRows_wf h
  constructor
  · refine sum_le_sum fun row hrow => ?_
    have hentries : row.2.length ≤ entriesBytes row.2 := by
      rw [entriesBytes]
      have hone : (row.2.map fun _ => 1).sum = row.2.length := by simp
      rw [← hone]
      refine sum_le_sum fun message _ => ?_
      rw [checkpointStoredEntryBodyLen]
      simp only [checkpointEntryPrefixLen]
      omega
    rw [rowBytes]
    omega
  · refine le_trans (sum_le_card_nsmul _ params.maxPerTarget fun len hlen => ?_) ?_
    · obtain ⟨row, hrow, rfl⟩ := mem_map.mp hlen
      exact (hrows row hrow).lenBound
    · rw [length_map, nsmul_eq_mul, Nat.cast_id]
      exact Nat.mul_le_mul_right _ hbound

/-- The header is accepted where the text limit is not zero, and then the restore has the
rings of the store; a text limit of zero is taken for another configuration. -/
theorem decodeCheckpoint_sealed (hvalid : params.valid = true) (hcap : 0 < params.maxPerTarget)
    (h : Wf params blake3 store) {alloc : Allocator} (halloc : ∀ site, alloc site = true) :
    (params.maxText = 0 → decodeCheckpoint params blake3 (sealedBytes params blake3 store) alloc =
      .failed .configMismatch) ∧
    (0 < params.maxText → ∃ restored,
      decodeCheckpoint params blake3 (sealedBytes params blake3 store) alloc = .done restored ∧
      Wf params blake3 restored ∧ ∀ target, history params restored target =
        history params store target) := by
  have hfits := checkpointBodyFits_iff.mp h.fits
  have hword : maxU32 < 256 ^ 4 := by decide
  have hwordSize : maxU32 < usizeLimit := by decide
  obtain ⟨hmaxTargets, -⟩ := Params.limits hvalid
  have hcountBound := h.targetsBound
  obtain ⟨htotalBody, htotalLimit⟩ := totalStoredCount_bounds h
  have hplen := sealedPrefix_length h
  have hlen : (sealedBytes params blake3 store).length =
      checkpointHeaderLen + store.checkpointBodyLen + checkpointChecksumLen := by
    rw [sealedBytes, length_append, hplen,
      (checkpointChecksum blake3 (sealedPrefix params store)).property, checkpointChecksumLen]
  have hfront : sealedPrefix params store =
      encodeHeader params store.count store.totalStoredCount store.checkpointBodyLen ++
      (deterministicRows params store).flatMap encodeTarget := rfl
  have hbytes : sealedBytes params blake3 store =
      encodeHeader params store.count store.totalStoredCount store.checkpointBodyLen ++
        ((deterministicRows params store).flatMap encodeTarget ++
          (checkpointChecksum blake3 (sealedPrefix params store)).val) := by
    rw [sealedBytes]
    conv => lhs; lhs; rw [hfront]
    rw [append_assoc]
  obtain ⟨⟨hmagic, hversion, hflags⟩, ⟨hc1, hc2, htext, hc3, hc4, hc5, hc6, hc7⟩, htargets,
    htotal, hbody⟩ :=
    encodeHeader_fields hvalid (show store.count < 256 ^ 4 by omega) (show store.totalStoredCount <
      256 ^ 4 by omega)
      (show store.checkpointBodyLen < 256 ^ 4 by omega)
      ((deterministicRows params store).flatMap encodeTarget ++
        (checkpointChecksum blake3 (sealedPrefix params store)).val)
  rw [← hbytes] at hmagic hversion hflags hc1 hc2 htext hc3 hc4 hc5 hc6 hc7 htargets htotal hbody
  have hconfig : configMatches params (sealedBytes params blake3 store) =
      decide (0 < params.maxText) := by
    simp only [configMatches, hc1, hc2, htext, hc3, hc4, hc5, hc6, hc7, beq_self_eq_true, le_refl,
      decide_true, Bool.and_true, Bool.true_and]
    rw [Bool.eq_iff_iff, bne_iff_ne, decide_eq_true_eq]
    exact Nat.pos_iff_ne_zero.symm
  rw [decodeCheckpoint, hlen, if_neg (by omega), if_neg (by omega), hmagic, hversion, hflags,
    if_neg (not_not.mpr rfl), if_neg (not_not.mpr rfl), if_neg (not_not.mpr rfl), hconfig]
  constructor
  · intro hzero
    rw [hzero]
    rfl
  · intro hpositive
    have hslice : slice (sealedBytes params blake3 store)
        checkpointHeaderLen (checkpointHeaderLen + store.checkpointBodyLen) =
        (deterministicRows params store).flatMap encodeTarget := by
      refine slice_field hbytes (encodeHeader_length _ _ _) ?_
      rw [hfront, length_append, encodeHeader_length] at hplen
      exact hplen
    have htake :
        (sealedBytes params blake3 store).take (checkpointHeaderLen + store.checkpointBodyLen) =
          sealedPrefix params store :=
      take_left' hplen
    have hdrop :
        (sealedBytes params blake3 store).drop (checkpointHeaderLen + store.checkpointBodyLen) =
        (checkpointChecksum blake3 (sealedPrefix params store)).val := drop_left' hplen
    have hpre :
        checkpointLenAdd checkpointHeaderLen store.checkpointBodyLen params.maxCheckpointBytes =
        .ok (checkpointHeaderLen + store.checkpointBodyLen) := by
      rw [checkpointLenAdd, checkedAdd_some (by omega)]
      simp only
      rw [if_neg (by omega)]
    have hexpected :
        checkpointLenAdd (checkpointHeaderLen + store.checkpointBodyLen) checkpointChecksumLen
        params.maxCheckpointBytes =
          .ok (checkpointHeaderLen + store.checkpointBodyLen + checkpointChecksumLen) := by
      rw [checkpointLenAdd, checkedAdd_some (by omega)]
      simp only
      rw [if_neg (by omega)]
    obtain ⟨restored, hdecode, hwf, hrows, hothers⟩ :=
      @decodeTargets_encoded params blake3 Lotus.init hvalid hcap alloc halloc
      (deterministicRows params store) none 0 (init_wf hvalid).1
        (deterministicRows_wf h) deterministicRows_ascending nofun
      (fun _ _ => lookup_empty _)
        (by rw [deterministicRows_length]; exact (Nat.zero_add _).trans_le hcountBound)
      (by rw [deterministicRows_bytes,
        ← h.counted]; exact checkpointBodyFits_mono h.fits (Nat.zero_add _).le)
    rw [deterministicRows_length, deterministicRows_total, Nat.zero_add] at hdecode
    simp only [hpositive, decide_true, Bool.not_true, Bool.false_eq_true, if_false, htargets,
      htotal, hbody, htext, hpre, hexpected, htake, hdrop, hslice, hdecode]
    rw [if_neg (by omega), if_neg (by omega), if_neg (by omega), if_neg (not_not.mpr rfl),
      if_neg (not_not.mpr rfl), if_neg (not_not.mpr rfl)]
    refine ⟨restored, rfl, hwf, fun target => ?_⟩
    by_cases hmem : ∃ row ∈ deterministicRows params store, row.1 = target
    · obtain ⟨row, hrow, rfl⟩ := hmem
      obtain ⟨log, hlookup, hview⟩ := mem_deterministicRows.mp hrow
      rw [hrows row hrow, hview, history_of_lookup hlookup]
    have hnone : store.targets.lookup target = none := by
      rw [Option.eq_none_iff_forall_ne_some]
      intro log hlookup
      exact hmem ⟨(target, log.view params.maxPerTarget),
        mem_deterministicRows.mpr ⟨log, hlookup, rfl⟩, rfl⟩
    rw [hothers target fun row hrow heq => hmem ⟨row, hrow, heq⟩, history, history, hnone]
    rfl

end Seal

end OnyxServer.Lotus
