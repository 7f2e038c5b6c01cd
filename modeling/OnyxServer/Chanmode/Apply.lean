import OnyxServer.Chanmode.View

/-!
# Applying a MODE line

The line is parsed as a whole before any of it is applied; parsing checks every parameter.
The changes are then applied one by one, and the buffer they were parsed into is compacted in
place to those that changed something.
-/
namespace OnyxServer.Chanmode

open Lib List

/-- The parser's loop over the letters; how many slots of the buffer it filled, and the buffer. -/
def parseFrom (params : List Bytes) :
    Bytes → Option ModeOp → Nat → Nat → List AppliedChange →
      Except ChanModeError (Nat × List AppliedChange)
  | [], _, _, count, out => .ok (count, out)
  | ch :: rest, op, paramIndex, count, out =>
    if ch = plusSign then parseFrom params rest (some .add) paramIndex count out
    else if ch = minusSign then parseFrom params rest (some .remove) paramIndex count out
    else
      match op, specFromLetter ch with
      | none, _ => .error .missingOperation
      | some _, none => .error .unknownMode
      | some activeOp, some spec =>
        if out.length ≤ count then .error .tooManyChanges
        else
          match consumeParam spec activeOp params paramIndex with
          | .error e => .error e
          | .ok (param, paramIndex) =>
            parseFrom params rest op paramIndex (count + 1)
              (out.set count ⟨activeOp, spec.mode, param⟩)

def parse (modeString : Bytes) (params : List Bytes) (out : List AppliedChange) :
    Except ChanModeError (Nat × List AppliedChange) :=
  if modeString.length = 0 then .error .emptyModeString
  else parseFrom params modeString none 0 0 out

/-- The loop over the parsed changes. They are read from the buffer the kept ones are written to. -/
def applyParsedFrom : Nat → Nat → Nat → ChannelModes → List AppliedChange →
    ChannelModes × Except ChanModeError (List AppliedChange)
  | 0, _, count, modes, out => (modes, .ok (out.take count))
  | left + 1, i, count, modes, out =>
    match out[i]? with
    | none => (modes, .ok (out.take count))
    | some change =>
      match applyOne modes change with
      | .error e => (modes, .error e)
      | .ok (false, modes) => applyParsedFrom left (i + 1) count modes out
      | .ok (true, modes) =>
        if out.length ≤ count then (modes, .error .tooManyChanges)
        else applyParsedFrom left (i + 1) (count + 1) modes (out.set count change)

def applyParsed (modes : ChannelModes) (len : Nat) (out : List AppliedChange) :
    ChannelModes × Except ChanModeError (List AppliedChange) :=
  applyParsedFrom len 0 0 modes out

/-- The state after the call, and what the call returns. -/
def apply (modes : ChannelModes) (modeString : Bytes) (params : List Bytes)
    (out : List AppliedChange) :
    ChannelModes × Except ChanModeError (List AppliedChange) :=
  match parse modeString params out with
  | .error e => (modes, .error e)
  | .ok (len, out) => applyParsed modes len out

variable {out buffer : List AppliedChange}

theorem parseFrom_spec {params : List Bytes} {modeString : Bytes} {op : Option ModeOp}
    {paramIndex count len : Nat} (hcount : count ≤ out.length)
    (hvalid : ∀ change ∈ out.take count, change.Valid)
    (h : parseFrom params modeString op paramIndex count out = .ok (len, buffer)) :
    len ≤ buffer.length ∧ ∀ change ∈ buffer.take len, change.Valid := by
  induction modeString generalizing op paramIndex count out with
  | nil =>
    cases h
    exact ⟨hcount, hvalid⟩
  | cons ch rest ih =>
    unfold parseFrom at h
    by_cases hplus : ch = plusSign
    · rw [if_pos hplus] at h
      exact ih hcount hvalid h
    rw [if_neg hplus] at h
    by_cases hminus : ch = minusSign
    · rw [if_pos hminus] at h
      exact ih hcount hvalid h
    rw [if_neg hminus] at h
    cases op with
    | none => cases h
    | some activeOp =>
      cases hspec : specFromLetter ch with
      | none =>
        rw [hspec] at h
        cases h
      | some spec =>
        simp only [hspec] at h
        by_cases hroom : out.length ≤ count
        · rw [if_pos hroom] at h
          cases h
        rw [if_neg hroom] at h
        cases hconsume : consumeParam spec activeOp params paramIndex with
        | error e =>
          rw [hconsume] at h
          cases h
        | ok consumed =>
          rw [hconsume] at h
          refine ih ?_ ?_ h
          · rw [length_set]
            exact Nat.lt_of_not_le hroom
          · intro change hmem
            rw [take_succ_set (Nat.lt_of_not_le hroom)] at hmem
            rcases mem_append.mp hmem with hmem | hmem
            · exact hvalid change hmem
            · rw [mem_singleton.mp hmem]
              exact consumeParam_valid (kind_of_specFromLetter hspec) hconsume

theorem parse_spec {modeString : Bytes} {params : List Bytes}
    {len : Nat} (h : parse modeString params out = .ok (len, buffer)) :
    len ≤ buffer.length ∧ ∀ change ∈ buffer.take len, change.Valid := by
  rw [parse] at h
  split_ifs at h
  exact parseFrom_spec (Nat.zero_le _) (fun change hmem => by simp at hmem) h

/-! ## The changes, one after the other -/

/-- The parsed changes applied in order, and those that changed something. -/
def applyEach :
    ChannelModes → List AppliedChange → ChannelModes × Except ChanModeError (List AppliedChange)
  | modes, [] => (modes, .ok [])
  | modes, change :: changes =>
    match applyOne modes change with
    | .error e => (modes, .error e)
    | .ok (changed, modes) =>
      ((applyEach modes changes).1,
        (applyEach modes changes).2.map fun kept => if changed then change :: kept else kept)

theorem applyParsedFrom_eq (left : Nat) {i count : Nat} (modes : ChannelModes)
    {out : List AppliedChange} (hcount : count ≤ i) (hleft : i + left ≤ out.length) :
    applyParsedFrom left i count modes out =
      ((applyEach modes ((out.drop i).take left)).1,
        (applyEach modes ((out.drop i).take left)).2.map fun kept => out.take count ++ kept) := by
  induction left generalizing i count modes out with
  | zero => simp [applyParsedFrom, applyEach, Except.map]
  | succ left ih =>
    have hlt : i < out.length := by omega
    rw [drop_eq_getElem_cons hlt, take_succ_cons, applyEach, applyParsedFrom,
      List.getElem?_eq_getElem hlt]
    dsimp only
    rcases applyOne modes out[i] with e | ⟨changed, modes'⟩
    · rfl
    cases changed with
    | false =>
      dsimp only
      rw [ih modes' (by omega) (by omega)]
      rcases (applyEach modes' ((out.drop (i + 1)).take left)).2 with e | kept <;> rfl
    | true =>
      -- the slot written is one already read
      dsimp only
      rw [if_neg (by omega), ih modes' (by omega) (by rw [length_set]; omega),
        drop_set_of_lt (by omega), take_succ_set (by omega)]
      rcases (applyEach modes' ((out.drop (i + 1)).take left)).2 with e | kept
      · rfl
      · simp [Except.map]

theorem applyParsed_eq (modes : ChannelModes) {len : Nat} {out : List AppliedChange}
    (hlen : len ≤ out.length) : applyParsed modes len out = applyEach modes (out.take len) := by
  rw [applyParsed, applyParsedFrom_eq len modes (Nat.le_refl 0) (by omega)]
  rw [drop_zero]
  rcases applyEach modes (out.take len) with ⟨modes', e | kept⟩ <;> rfl

/-- Changes that all find room leave the state they describe. -/
theorem applyEach_fits {changes : List AppliedChange} {modes : ChannelModes}
    (hvalid : ∀ change ∈ changes, change.Valid) (hfits : modes.view.Fits changes) :
    ∃ kept, (applyEach modes changes).2 = .ok kept ∧
      (applyEach modes changes).1.view = modes.view.run changes := by
  induction changes generalizing modes with
  | nil => exact ⟨[], rfl, rfl⟩
  | cons change changes ih =>
    rw [forall_mem_cons] at hvalid
    obtain ⟨hroom, hrest⟩ := hfits
    rcases effect_of_valid hvalid.1 with ⟨hfull, -⟩ | ⟨-, changed, modes', hone, hview, -⟩
    · exact absurd hfull hroom
    rw [← hview] at hrest
    obtain ⟨kept, hkept, hstate⟩ := ih hvalid.2 hrest
    simp only [applyEach, hone, hkept, Except.map]
    rw [hstate, hview]
    exact ⟨_, rfl, rfl⟩

/-- The first addition that finds its list full ends the line, with the changes before it done. -/
theorem applyEach_full {before after : List AppliedChange} {change : AppliedChange}
    {modes : ChannelModes} (hvalid : ∀ change' ∈ before ++ change :: after, change'.Valid)
    (hfits : modes.view.Fits before) (hfull : (modes.view.run before).Full change) :
    (applyEach modes (before ++ change :: after)).2 = .error .listFull ∧
      (applyEach modes (before ++ change :: after)).1.view = modes.view.run before := by
  induction before generalizing modes with
  | nil =>
    have heffect : Effect modes change := effect_of_valid (hvalid change mem_cons_self)
    rcases heffect with ⟨-, hone⟩ | ⟨hroom, -⟩
    · simp only [nil_append, applyEach, hone]
      exact ⟨trivial, rfl⟩
    · exact absurd hfull hroom
  | cons first before ih =>
    rw [cons_append, forall_mem_cons] at hvalid
    obtain ⟨hroom, hrest⟩ := hfits
    rcases effect_of_valid hvalid.1 with ⟨hfirst, -⟩ | ⟨-, changed, modes', hone, hview, -⟩
    · exact absurd hfirst hroom
    rw [View.run, foldl_cons, ← hview] at hfull
    rw [← hview] at hrest
    obtain ⟨herror, hstate⟩ := ih hvalid.2 hrest hfull
    simp only [cons_append, applyEach, hone, herror, Except.map]
    rw [hstate, hview]
    exact ⟨trivial, rfl⟩

theorem fits_or_full (view : View) (changes : List AppliedChange) :
    view.Fits changes ∨ ∃ before change after, changes = before ++ change :: after ∧
      view.Fits before ∧ (view.run before).Full change := by
  induction changes generalizing view with
  | nil => exact .inl trivial
  | cons change changes ih =>
    by_cases hfull : view.Full change
    · exact .inr ⟨[], change, changes, rfl, trivial, hfull⟩
    rcases ih (view.step change) with hfits | ⟨before, late, after, hsplit, hfits, hlate⟩
    · exact .inl ⟨hfull, hfits⟩
    · refine .inr ⟨change :: before, late, after, ?_, ⟨hfull, hfits⟩, hlate⟩
      rw [hsplit, cons_append]

/-- Should an addition of the line find its list full, the changes before it cancel out. -/
def CancelsBeforeFull (view : View) (changes : List AppliedChange) : Prop :=
  ∀ before change after, changes = before ++ change :: after → view.Fits before →
    (view.run before).Full change → view.run before = view

/-- The lines that leave the state as it was whenever they are rejected: parsing changes
nothing, and the only way to fail after it is a full list. -/
theorem rejected_unchanged_iff (modes : ChannelModes) (modeString : Bytes) (params : List Bytes)
    (out : List AppliedChange) :
    (∀ e, (apply modes modeString params out).2 = .error e →
      (apply modes modeString params out).1.view = modes.view) ↔
    ∀ len buffer, parse modeString params out = .ok (len, buffer) →
      CancelsBeforeFull modes.view (buffer.take len) := by
  rw [apply]
  cases hparse : parse modeString params out with
  | error e => exact ⟨fun _ _ _ h => (nomatch h), fun _ _ _ => rfl⟩
  | ok parsed =>
    obtain ⟨len, buffer⟩ := parsed
    obtain ⟨hlen, hvalid⟩ := parse_spec hparse
    dsimp only
    rw [applyParsed_eq modes hlen]
    constructor
    · intro hunchanged len' buffer' heq before change after hsplit hfits hfull
      cases heq
      rw [hsplit] at hunchanged hvalid
      obtain ⟨herror, hstate⟩ := applyEach_full hvalid hfits hfull
      exact hstate.symm.trans (hunchanged _ herror)
    · intro hcancels e herror
      rcases fits_or_full modes.view (buffer.take len) with
        hfits | ⟨before, change, after, hsplit, hfits, hfull⟩
      · obtain ⟨kept, hkept, -⟩ := applyEach_fits hvalid hfits
        rw [hkept] at herror
        cases herror
      · rw [hsplit] at hvalid ⊢
        rw [(applyEach_full hvalid hfits hfull).2]
        exact hcancels len buffer rfl before change after hsplit hfits hfull

/-- Room for one ban only. -/
def oneBan : ChannelModes := ChannelModes.init [[]] [] []

/-- Of two new bans the first stays although the line is rejected for the second. -/
theorem second_ban_keeps_first :
    (apply oneBan [plusSign, 0x62, 0x62] [[0x61], [0x62]] (List.replicate 2 ⟨.add, .ban, none⟩)).2 =
        .error .listFull ∧
      (apply oneBan [plusSign, 0x62, 0x62] [[0x61], [0x62]]
        (List.replicate 2 ⟨.add, .ban, none⟩)).1.view ≠
        oneBan.view := by
  refine ⟨rfl, fun h => ?_⟩
  have hbans := congrArg (fun view => view.entries .ban) h
  exact absurd hbans (by decide)

end OnyxServer.Chanmode
