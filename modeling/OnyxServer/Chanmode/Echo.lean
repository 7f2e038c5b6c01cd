import OnyxServer.Chanmode.Apply

/-!
# MODE echoes

The writer renders changes as one mode string, with a sign wherever the direction turns, and
their parameters in order. Parsing what it wrote gives the same changes back.
-/
namespace OnyxServer.Chanmode

open Lib List

structure SerializedModes where
  modeString : Bytes
  params : List Bytes

def signOf : ModeOp → UInt8
  | .add => plusSign
  | .remove => minusSign

/-- The octets and parameters written so far, and how many fit. -/
structure ModeWriter where
  modeOut : Bytes := []
  paramsOut : List Bytes := []
  op : Option ModeOp := none
  modeCap : Nat
  paramsCap : Nat

namespace ModeWriter

def init (modeCap paramsCap : Nat) : ModeWriter := { modeCap := modeCap, paramsCap := paramsCap }

def appendByte (writer : ModeWriter) (byte : UInt8) : Except ChanModeError ModeWriter :=
  if writer.modeCap ≤ writer.modeOut.length then .error .outputTooSmall
  else .ok { writer with modeOut := writer.modeOut ++ [byte] }

def appendSign (writer : ModeWriter) (op : ModeOp) : Except ChanModeError ModeWriter :=
  if writer.op = some op then .ok writer
  else
    match writer.appendByte (signOf op) with
    | .error e => .error e
    | .ok writer => .ok { writer with op := some op }

def append (writer : ModeWriter) (op : ModeOp) (mode : ChannelMode) (param : Option Bytes) :
    Except ChanModeError ModeWriter :=
  match writer.appendSign op with
  | .error e => .error e
  | .ok writer =>
    match writer.appendByte (letterOf mode) with
    | .error e => .error e
    | .ok writer =>
      match param with
      | none => .ok writer
      | some value =>
        if writer.paramsCap ≤ writer.paramsOut.length then .error .tooManyParams
        else .ok { writer with paramsOut := writer.paramsOut ++ [value] }

def finish (writer : ModeWriter) : SerializedModes := ⟨writer.modeOut, writer.paramsOut⟩

def appendAll (writer : ModeWriter) : List AppliedChange → Except ChanModeError ModeWriter
  | [] => .ok writer
  | change :: changes =>
    match writer.append change.op change.mode change.param with
    | .error e => .error e
    | .ok writer => writer.appendAll changes

end ModeWriter

def writeAppliedChanges (changes : List AppliedChange) (modeCap paramsCap : Nat) :
    Except ChanModeError SerializedModes :=
  ((ModeWriter.init modeCap paramsCap).appendAll changes).map ModeWriter.finish

/-! ## The rendering of a list of changes -/

def letters (op : Option ModeOp) : List AppliedChange → Bytes
  | [] => []
  | change :: changes =>
    (if op = some change.op then [] else [signOf change.op]) ++
      letterOf change.mode :: letters (some change.op) changes

def paramsOf (changes : List AppliedChange) : List Bytes := changes.filterMap AppliedChange.param

theorem letters_length (op : Option ModeOp) (changes : List AppliedChange) :
    (letters op changes).length ≤ 2 * changes.length := by
  induction changes generalizing op with
  | nil => exact Nat.le_refl 0
  | cons change changes ih =>
    have hrest := ih (some change.op)
    rw [letters, length_append, length_cons, length_cons]
    split_ifs
    · rw [length_nil]
      omega
    · rw [length_singleton]
      omega

theorem paramsOf_cons (change : AppliedChange) (changes : List AppliedChange) :
    paramsOf (change :: changes) = change.param.toList ++ paramsOf changes := by
  rw [paramsOf, filterMap_cons, paramsOf]
  cases change.param <;> rfl

theorem paramsOf_length (changes : List AppliedChange) :
    (paramsOf changes).length ≤ changes.length :=
  length_filterMap_le _ _

theorem appendSign_ok {writer : ModeWriter} {op : ModeOp}
    (hmode : writer.modeOut.length + (if writer.op = some op then [] else [signOf op]).length ≤
      writer.modeCap) :
    writer.appendSign op = .ok { writer with
      modeOut := writer.modeOut ++ if writer.op = some op then [] else [signOf op]
      op := some op } := by
  rw [ModeWriter.appendSign]
  split_ifs at hmode ⊢ with hop
  · rw [append_nil, ← hop]
  · rw [ModeWriter.appendByte, if_neg (by rw [length_singleton] at hmode; omega)]

theorem append_ok (writer : ModeWriter) (change : AppliedChange)
    (hmode : writer.modeOut.length + (letters writer.op [change]).length ≤ writer.modeCap)
    (hparams : writer.paramsOut.length + change.param.toList.length ≤ writer.paramsCap) :
    writer.append change.op change.mode change.param =
      .ok { writer with
        modeOut := writer.modeOut ++ letters writer.op [change]
        paramsOut := writer.paramsOut ++ change.param.toList
        op := some change.op } := by
  rw [letters, letters, length_append, length_singleton] at hmode
  rw [ModeWriter.append, appendSign_ok (by omega)]
  dsimp only
  rw [ModeWriter.appendByte, if_neg (by dsimp only; rw [length_append]; omega)]
  dsimp only
  rw [letters, letters, append_assoc]
  cases hparam : change.param with
  | none => rw [Option.toList_none, append_nil]
  | some value =>
    rw [hparam, Option.toList_some, length_singleton] at hparams
    dsimp only
    rw [if_neg (by omega), Option.toList_some]

variable {changes : List AppliedChange}

theorem appendAll_ok (writer : ModeWriter)
    (hmode : writer.modeOut.length + (letters writer.op changes).length ≤ writer.modeCap)
    (hparams : writer.paramsOut.length + (paramsOf changes).length ≤ writer.paramsCap) :
    ∃ writer', writer.appendAll changes = .ok writer' ∧
      writer'.finish =
        ⟨writer.modeOut ++ letters writer.op changes, writer.paramsOut ++ paramsOf changes⟩ := by
  induction changes generalizing writer with
  | nil => exact ⟨writer, rfl, by rw [letters, paramsOf, append_nil]; simp [ModeWriter.finish]⟩
  | cons change changes ih =>
    have hletters : letters writer.op (change :: changes) =
        letters writer.op [change] ++ letters (some change.op) changes := by
      simp only [letters, append_assoc, singleton_append]
    rw [hletters, length_append] at hmode
    rw [paramsOf_cons, length_append] at hparams
    have hfirst := append_ok writer change (by omega) (by omega)
    obtain ⟨writer', hall, hfinish⟩ := ih { writer with
        modeOut := writer.modeOut ++ letters writer.op [change]
        paramsOut := writer.paramsOut ++ change.param.toList
        op := some change.op }
      (by dsimp only; rw [length_append]; omega) (by dsimp only; rw [length_append]; omega)
    refine ⟨writer', by rw [ModeWriter.appendAll, hfirst]; exact hall, ?_⟩
    rw [hfinish, hletters, paramsOf_cons, append_assoc, append_assoc]

theorem writeAppliedChanges_ok {modeCap paramsCap : Nat}
    (hmode : 2 * changes.length ≤ modeCap) (hparams : changes.length ≤ paramsCap) :
    writeAppliedChanges changes modeCap paramsCap =
      .ok ⟨letters none changes, paramsOf changes⟩ := by
  have hletters := letters_length none changes
  have hlength := paramsOf_length changes
  have happend : ∃ writer', (ModeWriter.init modeCap paramsCap).appendAll changes = .ok writer' ∧
      writer'.finish = ⟨letters none changes, paramsOf changes⟩ := by
    apply appendAll_ok
    · show 0 + (letters none changes).length ≤ modeCap
      omega
    · show 0 + (paramsOf changes).length ≤ paramsCap
      omega
  obtain ⟨writer', hwriter, hfinish⟩ := happend
  rw [writeAppliedChanges, hwriter, ← hfinish]
  rfl

theorem parseFrom_sign (params : List Bytes) (op : ModeOp) (rest : Bytes) (active : Option ModeOp)
    (paramIndex count : Nat) (out : List AppliedChange) :
    parseFrom params (signOf op :: rest) active paramIndex count out =
      parseFrom params rest (some op) paramIndex count out := by
  conv_lhs => unfold parseFrom
  cases op with
  | add => rfl
  | remove => rfl

variable {out : List AppliedChange}

theorem parseFrom_letter {change : AppliedChange} (hvalid : change.Valid)
    {before after : List Bytes} (rest : Bytes) {count : Nat} (hroom : count < out.length) :
    parseFrom (before ++ (change.param.toList ++ after)) (letterOf change.mode :: rest)
        (some change.op) before.length count out =
      parseFrom (before ++ (change.param.toList ++ after)) rest (some change.op)
        (before.length + change.param.toList.length) (count + 1) (out.set count change) := by
  obtain ⟨hplus, hminus⟩ := letterOf_ne_sign change.mode
  conv_lhs => unfold parseFrom
  rw [if_neg hplus, if_neg hminus, specFromLetter_letterOf]
  dsimp only
  rw [if_neg (by omega), consumeParam_of_valid hvalid]
  rfl

theorem parseFrom_letters (hvalid : ∀ change ∈ changes, change.Valid)
    (op : Option ModeOp) (before : List Bytes) {count : Nat}
    (hroom : count + changes.length ≤ out.length) :
    ∃ buffer, parseFrom (before ++ paramsOf changes)
    (letters op changes) op before.length count out =
        .ok (count + changes.length, buffer) ∧ buffer.length = out.length ∧
      buffer.take (count + changes.length) = out.take count ++ changes := by
  induction changes generalizing op before count out with
  | nil => exact ⟨out, by simp [letters, parseFrom], rfl, by simp⟩
  | cons change changes ih =>
    rw [forall_mem_cons] at hvalid
    rw [length_cons] at hroom ⊢
    have hletter :
        parseFrom (before ++ paramsOf (change :: changes)) (letters op (change :: changes)) op
        before.length count out =
        parseFrom ((before ++ change.param.toList) ++ paramsOf changes)
          (letters (some change.op) changes) (some change.op)
          (before ++ change.param.toList).length (count + 1) (out.set count change) := by
      rw [paramsOf_cons, length_append, append_assoc,
        ← parseFrom_letter hvalid.1 _ (by omega), letters]
      split_ifs with hop
      · rw [hop]
        rfl
      · exact parseFrom_sign ..
    have hnext : count + 1 + changes.length ≤ (out.set count change).length := by
      rw [length_set]
      omega
    obtain ⟨buffer, hbuffer, hlength, htake⟩ :=
      ih hvalid.2 (some change.op) (before ++ change.param.toList) hnext
    refine ⟨buffer, ?_, ?_, ?_⟩
    · rw [hletter, hbuffer]
      congr 2
      omega
    · rw [hlength, length_set]
    · rw [show count + (changes.length + 1) = count + 1 + changes.length by omega, htake,
        take_succ_set (by omega), append_assoc]
      rfl

section

variable (hvalid : ∀ change ∈ changes, change.Valid) (hchanged : changes ≠ [])
variable (hroom : changes.length ≤ out.length)
include hvalid hchanged hroom

/-- Parsing a rendered, non-empty list of changes gives that list. -/
theorem parse_letters :
    ∃ buffer, parse (letters none changes) (paramsOf changes) out = .ok (changes.length, buffer) ∧
      buffer.length = out.length ∧ buffer.take changes.length = changes := by
  have hread : ∃ buffer, parseFrom ([] ++ paramsOf changes) (letters none changes) none 0 0 out =
      .ok (0 + changes.length, buffer) ∧ buffer.length = out.length ∧
      buffer.take (0 + changes.length) = out.take 0 ++ changes :=
    parseFrom_letters hvalid none [] (by omega)
  rw [nil_append, Nat.zero_add, take_zero, nil_append] at hread
  obtain ⟨buffer, hparse, hlength, htake⟩ := hread
  refine ⟨buffer, ?_, hlength, htake⟩
  rw [parse, if_neg, hparse]
  cases changes with
  | nil => exact absurd rfl hchanged
  | cons change changes => simp [letters]

theorem apply_letters (modes : ChannelModes) :
    apply modes (letters none changes) (paramsOf changes) out = applyEach modes changes := by
  obtain ⟨buffer, hparse, hlength, htake⟩ := parse_letters hvalid hchanged hroom
  rw [apply, hparse]
  dsimp only
  rw [applyParsed_eq modes (by omega), htake]

end

variable {modes modes' : ChannelModes}

/-- Only the changes that changed something have to be applied. -/
theorem applyEach_kept {changes kept : List AppliedChange}
    (hvalid : ∀ change ∈ changes, change.Valid) (h : applyEach modes changes = (modes', .ok kept)) :
    applyEach modes kept = (modes', .ok kept) ∧ ∀ change ∈ kept, change.Valid := by
  induction changes generalizing modes kept with
  | nil =>
    cases h
    exact ⟨rfl, fun change hmem => nomatch hmem⟩
  | cons change changes ih =>
    rw [forall_mem_cons] at hvalid
    have heffect : Effect modes change := effect_of_valid hvalid.1
    rcases heffect with ⟨-, hone⟩ | ⟨-, changed, middle, hone, -, hsame⟩
    · rw [applyEach, hone] at h
      cases h
    simp only [applyEach, hone, Prod.mk.injEq] at h
    obtain ⟨hstate, hkept⟩ := h
    cases hrest : (applyEach middle changes).2 with
    | error e =>
      rw [hrest] at hkept
      cases hkept
    | ok later =>
      rw [hrest] at hkept
      obtain ⟨hlater, hmem⟩ := ih hvalid.2 (Prod.ext hstate hrest)
      cases changed with
      | false =>
        cases hkept
        rw [← hsame rfl]
        exact ⟨hlater, hmem⟩
      | true =>
        cases hkept
        refine ⟨?_, forall_mem_cons.mpr ⟨hvalid.1, hmem⟩⟩
        simp only [applyEach, hone, if_true, hlater, Except.map]

theorem apply_ok {modeString : Bytes} {params : List Bytes}
    {out kept : List AppliedChange} (h : apply modes modeString params out = (modes', .ok kept)) :
    ∃ changes, (∀ change ∈ changes, change.Valid) ∧
    applyEach modes changes = (modes', .ok kept) := by
  rw [apply] at h
  cases hparse : parse modeString params out with
  | error e =>
    rw [hparse] at h
    cases h
  | ok parsed =>
    obtain ⟨len, buffer⟩ := parsed
    obtain ⟨hlen, hvalid⟩ := parse_spec hparse
    rw [hparse] at h
    exact ⟨buffer.take len, hvalid, (applyParsed_eq modes hlen).symm.trans h⟩

/-- The echo of a line, applied to the state the line was applied to, does the same again. -/
theorem apply_echo {modeString : Bytes} {params : List Bytes}
    {out kept : List AppliedChange} (h : apply modes modeString params out = (modes', .ok kept))
    (hchanged : kept ≠ []) {out' : List AppliedChange} (hroom : kept.length ≤ out'.length) :
    apply modes (letters none kept) (paramsOf kept) out' = (modes', .ok kept) := by
  obtain ⟨changes, hvalid, heach⟩ := apply_ok h
  obtain ⟨hkept, hvalid'⟩ := applyEach_kept hvalid heach
  rw [apply_letters hvalid' hchanged hroom, hkept]

end OnyxServer.Chanmode
