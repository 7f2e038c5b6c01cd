import Mathlib.Data.List.InsertIdx
import OnyxServer.Lib.HashMap
import OnyxServer.Lotus.Store

/-!
# The accounts of the history store

The invariant: the counted octets are those of the rings, they fit a checkpoint, and every
ring is neither empty nor longer than its capacity. While an append evicts, only the ring it
appends to may be empty.
-/
namespace OnyxServer.Lotus

open Lib List AList

variable {params : Params} {blake3 : Blake3} {store : Lotus}

theorem checkpointBodyFits_iff {bodyLen maxBytes : Nat} :
    checkpointBodyFits bodyLen maxBytes = true ↔
      checkpointHeaderLen + bodyLen + checkpointChecksumLen ≤ min maxBytes maxU32 := by
  have hmax : maxU32 < usizeLimit := by decide
  rw [le_min_iff]
  constructor
  · intro h
    rw [checkpointBodyFits] at h
    split at h
    · cases h
    rename_i withHeader hheader
    split at h
    · cases h
    · next total htotal =>
      rw [checkedAdd_eq htotal, checkedAdd_eq hheader, Bool.and_eq_true, decide_eq_true_eq,
        decide_eq_true_eq] at h
      exact h
  · rintro ⟨hbytes, hword⟩
    rw [checkpointBodyFits, checkedAdd_some (by omega)]
    simp only
    rw [checkedAdd_some (by omega)]
    simp only [hbytes, hword, decide_true, Bool.and_self]

theorem checkpointBodyFits_mono {a b maxBytes : Nat} (h : checkpointBodyFits b maxBytes = true)
    (hle : a ≤ b) :
    checkpointBodyFits a maxBytes = true := by
  rw [checkpointBodyFits_iff] at h ⊢
  omega

theorem checkpointEntryBodyLenFromLengths_eq {msgid sender text command tags len : Nat}
    (h : checkpointEntryBodyLenFromLengths msgid sender text command tags = some len) :
    len = checkpointEntryPrefixLen + msgid + sender + text + command + tags := by
  rw [checkpointEntryBodyLenFromLengths] at h
  split at h
  · cases h
  rename_i a ha
  split at h
  · cases h
  rename_i b hb
  split at h
  · cases h
  rename_i c hc
  split at h
  · cases h
  · next d hd =>
      rw [checkedAdd_eq h, checkedAdd_eq hd, checkedAdd_eq hc, checkedAdd_eq hb, checkedAdd_eq ha]

theorem checkpointEntryBodyLen_eq {msg : InputMessage} {len : Nat}
    (h : checkpointEntryBodyLen msg = some len)
    (tombstone : Bool) : checkpointStoredEntryBodyLen (storedOf blake3 msg tombstone) = len :=
  (checkpointEntryBodyLenFromLengths_eq h).symm

/-- What an append adds to the body. -/
def addedLen (store : Lotus) (target : Bytes) (newEntryLen : Nat) : Nat :=
  (if (store.targets.lookup target).isNone then checkpointTargetPrefixLen + target.length else 0) +
    newEntryLen

theorem appendFitsCheckpoint_iff {target : Bytes} {newEntryLen : Nat} :
    store.appendFitsCheckpoint params target newEntryLen = true ↔
      checkpointBodyFits (store.checkpointBodyLen + addedLen store target newEntryLen)
        params.maxCheckpointBytes = true := by
  have hmax : maxU32 < usizeLimit := by decide
  rw [appendFitsCheckpoint, addedLen]
  cases (store.targets.lookup target).isNone with
  | false =>
    simp only [Bool.false_eq_true, if_false, Nat.zero_add]
    constructor
    · intro h
      split at h
      · cases h
      · next total htotal => rwa [checkedAdd_eq htotal] at h
    · intro h
      have hbound := checkpointBodyFits_iff.mp h
      rw [checkedAdd_some (by omega)]
      exact h
  | true =>
    simp only [if_true]
    constructor
    · intro h
      split at h
      · cases h
      rename_i withTarget hwith
      split at hwith
      · cases hwith
      rename_i withPrefix hprefix
      split at h
      · cases h
      · next total htotal =>
        rw [checkedAdd_eq htotal, checkedAdd_eq hwith, checkedAdd_eq hprefix] at h
        rwa [← Nat.add_assoc, ← Nat.add_assoc]
    · intro h
      have hbound := checkpointBodyFits_iff.mp h
      rw [checkedAdd_some (by omega)]
      simp only
      rw [checkedAdd_some (by omega)]
      simp only
      rw [checkedAdd_some (by omega)]
      rwa [← Nat.add_assoc, ← Nat.add_assoc] at h

structure StoredMessage.Wf (params : Params) (blake3 : Blake3) (message : StoredMessage) :
    Prop where
  hash : message.hash = blake3 message.text
  text : message.text.length ≤ params.maxText
  msgid : message.msgid.length ≤ params.maxMsgid
  sender : message.sender.length ≤ params.maxSender
  command : message.command.length ≤ params.maxCommand
  clientTags : ∀ tags ∈ message.clientTags, tags.length ≤ params.maxClientTags

structure LogWf (params : Params) (blake3 : Blake3) (target : Bytes) (log : TargetLog) : Prop where
  targetNonempty : 0 < target.length
  targetBound : target.length ≤ params.maxTarget
  lenBound : log.len ≤ params.maxPerTarget
  messages : ∀ message ∈ log.view params.maxPerTarget, message.Wf params blake3

/-- What a target takes up. -/
def logBytes (params : Params) (target : Bytes) (log : TargetLog) : Nat :=
  checkpointTargetPrefixLen + target.length +
    ((log.view params.maxPerTarget).map checkpointStoredEntryBodyLen).sum

def bodyBytes (params : Params) (store : Lotus) : Nat := tableSum (logBytes params) store.targets

/-- The invariant while an append to `incoming` evicts. -/
structure Draining (params : Params) (blake3 : Blake3) (incoming : Option Bytes) (store : Lotus) :
    Prop where
  counted : store.checkpointBodyLen = bodyBytes params store
  fits : checkpointBodyFits store.checkpointBodyLen params.maxCheckpointBytes = true
  targetsBound : store.count ≤ params.maxTargets
  logs : ∀ target log, store.targets.lookup target = some log → LogWf params blake3 target log
  nonempty : ∀ target log, store.targets.lookup target = some log → incoming ≠ some target →
    0 < log.len

abbrev Wf (params : Params) (blake3 : Blake3) (store : Lotus) : Prop :=
  Draining params blake3 none store

/-! ## Dropping an entry -/

section Drop

variable {target : Bytes} {log : TargetLog} {index : Nat}

theorem sum_eraseIdx {xs : List Nat} (h : index < xs.length) :
    xs.sum = xs[index] + (xs.eraseIdx index).sum := by
  rw [eraseIdx_eq_take_drop_succ]
  conv => lhs; rw [← take_append_drop index xs, drop_eq_getElem_cons h]
  simp only [sum_append, sum_cons]
  omega

section

variable (hlog : LogWf params blake3 target log) (hindex : index < log.len)
include hlog hindex

theorem view_dropEntry :
    (log.removeAt params.maxPerTarget index).view params.maxPerTarget =
      (log.view params.maxPerTarget).eraseIdx index ∧
      (log.removeAt params.maxPerTarget index).len = log.len - 1 :=
  RingBuffer.view_removeAt hlog.lenBound hindex

theorem logBytes_removeAt :
    logBytes params target log = logBytes params target (log.removeAt params.maxPerTarget index) +
      checkpointStoredEntryBodyLen (log.entry params.maxPerTarget index) := by
  have hlen : index < ((log.view params.maxPerTarget).map checkpointStoredEntryBodyLen).length := by
    rw [length_map, RingBuffer.length_view]
    exact hindex
  have hentry : ((log.view params.maxPerTarget).map checkpointStoredEntryBodyLen)[index] =
      checkpointStoredEntryBodyLen (log.entry params.maxPerTarget index) := by
    rw [getElem_map]
    congr 1
    exact (getElem_eq_iff _).mpr (RingBuffer.getElem?_view hindex)
  rw [logBytes, logBytes, (view_dropEntry hlog hindex).1, ← eraseIdx_map, sum_eraseIdx hlen, hentry]
  omega

theorem LogWf.removeAt :
    LogWf params blake3 target (log.removeAt params.maxPerTarget index) := by
  obtain ⟨hview, hlen⟩ := view_dropEntry hlog hindex
  have hbound := hlog.lenBound
  refine ⟨hlog.targetNonempty, hlog.targetBound, by omega, fun message hmessage => ?_⟩
  rw [hview] at hmessage
  exact hlog.messages message (mem_of_mem_eraseIdx hmessage)

end

section

variable (h : store.targets.lookup target = some log) (hlog : LogWf params blake3 target log)
variable (hindex : index < log.len)
include h hlog hindex

theorem bodyBytes_dropEntry :
    bodyBytes params store = bodyBytes params (store.dropEntry params target log index) +
      checkpointStoredEntryBodyLen (log.entry params.maxPerTarget index) := by
  show tableSum _ _ = tableSum _ (store.targets.insert _ _) + _
  rw [tableSum_erase h, tableSum_insert, logBytes_removeAt hlog hindex]
  omega

theorem totalStoredCount_dropEntry :
    store.totalStoredCount = (store.dropEntry params target log index).totalStoredCount + 1 := by
  show tableSum _ _ = tableSum _ (store.targets.insert _ _) + _
  rw [tableSum_erase h, tableSum_insert, (view_dropEntry hlog hindex).2]
  omega

end

/-- The ring of a target is replaced, and the bytes and the targets still add up. -/
theorem Draining.inserted {incoming incoming' : Option Bytes} {body : Nat}
    (hstore : Draining params blake3 incoming store)
    (hlog : LogWf params blake3 target log)
    (hcounted : body = tableSum (logBytes params) (store.targets.insert target log))
    (hfits : checkpointBodyFits body params.maxCheckpointBytes = true)
    (hcount : (store.targets.insert target log).entries.length ≤ params.maxTargets)
    (hnonempty : incoming' ≠ some target → 0 < log.len)
    (hothers : ∀ other, other ≠ target → incoming' ≠ some other → incoming ≠ some other) :
    Draining params blake3 incoming' ⟨store.targets.insert target log, body⟩ := by
  refine ⟨hcounted, hfits, hcount, HashMap.forall_insert hlog hstore.logs,
    fun other found hfound hincoming => ?_⟩
  by_cases hother : other = target
  · subst hother
    simp only [lookup_insert] at hfound
    cases hfound
    exact hnonempty hincoming
  · simp only [lookup_insert_ne hother] at hfound
    exact hstore.nonempty other found hfound (hothers other hother hincoming)

theorem Draining.dropEntry {incoming : Option Bytes}
    (hstore : Draining params blake3 incoming store)
    (h : store.targets.lookup target = some log) (hindex : index < log.len)
    (hnonempty : incoming ≠ some target → log.len - 1 ≠ 0) :
    Draining params blake3 incoming (store.dropEntry params target log index) := by
  have hlog := hstore.logs target log h
  have hbody := bodyBytes_dropEntry h hlog hindex
  have hcounted := hstore.counted
  have hrest : (store.dropEntry params target log index).checkpointBodyLen =
      bodyBytes params (store.dropEntry params target log index) := by
    show store.checkpointBodyLen - _ = _
    omega
  refine hstore.inserted (hlog.removeAt hindex) hrest (checkpointBodyFits_mono hstore.fits ?_) ?_
    (fun hincoming => ?_) fun _ _ => id
  · exact Nat.sub_le _ _
  · exact (HashMap.count_insert_old (by rw [h]; rfl)).trans_le hstore.targetsBound
  · rw [(view_dropEntry hlog hindex).2]
    have := hnonempty hincoming
    omega

/-- The invariant after the last entry of a ring is dropped together with its target. -/
theorem Draining.dropTarget {incoming : Option Bytes}
    (hstore : Draining params blake3 incoming store)
    (h : store.targets.lookup target = some log) (hindex : index < log.len)
    (hlast : log.len - 1 = 0) :
    Draining params blake3 incoming ((store.dropEntry params target log index).dropTarget target) ∧
      store.totalStoredCount =
        ((store.dropEntry params target log index).dropTarget target).totalStoredCount + 1 := by
  have hlog := hstore.logs target log h
  have hbody := bodyBytes_dropEntry h hlog hindex
  have hcounted := hstore.counted
  obtain ⟨hview, hlen⟩ := view_dropEntry hlog hindex
  have hlookup : (store.dropEntry params target log index).targets.lookup target =
      some (log.removeAt params.maxPerTarget index) := lookup_insert _
  have hempty : (log.removeAt params.maxPerTarget index).view params.maxPerTarget = [] := by
    rw [← length_eq_zero_iff, RingBuffer.length_view, hlen, hlast]
  have htarget : bodyBytes params (store.dropEntry params target log index) =
      (checkpointTargetPrefixLen + target.length) +
      bodyBytes params ((store.dropEntry params target log index).dropTarget target) := by
    show tableSum _ _ = _ + tableSum _ (AList.erase _ _)
    rw [tableSum_erase hlookup, logBytes, hempty]
    rfl
  have hrest : ((store.dropEntry params target log index).dropTarget target).checkpointBodyLen =
      bodyBytes params ((store.dropEntry params target log index).dropTarget target) := by
    show store.checkpointBodyLen - _ - _ = _
    omega
  have hsame : ∀ other found,
      ((store.dropEntry params target log index).dropTarget target).targets.lookup other =
      some found → store.targets.lookup other = some found := by
    intro other found hfound
    by_cases hother : other = target
    · rw [hother, Lotus.dropTarget, lookup_erase] at hfound
      cases hfound
    · rwa [Lotus.dropTarget, lookup_erase_ne hother, Lotus.dropEntry,
        lookup_insert_ne hother] at hfound
  constructor
  · constructor
    · exact hrest
    · refine checkpointBodyFits_mono hstore.fits ?_
      rw [hrest]
      omega
    · refine le_trans ?_ hstore.targetsBound
      have hle :
          ((store.targets.insert target (log.removeAt params.maxPerTarget index)).entries.kerase
            target).length ≤
          (store.targets.insert target (log.removeAt params.maxPerTarget index)).entries.length :=
        (kerase_sublist _ _).length_le
      refine hle.trans (le_of_eq ?_)
      exact HashMap.count_insert_old (by rw [h]; rfl)
    · exact fun other found hfound => hstore.logs other found (hsame other found hfound)
    · exact fun other found hfound => hstore.nonempty other found (hsame other found hfound)
  · rw [totalStoredCount_dropEntry h hlog hindex]
    congr 1
    show tableSum _ _ = tableSum _ (AList.erase _ _)
    rw [tableSum_erase hlookup, hlen, hlast, Nat.zero_add]

end Drop

end OnyxServer.Lotus
