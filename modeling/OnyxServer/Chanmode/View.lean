import Mathlib.Logic.Function.Basic
import OnyxServer.Chanmode.Modes

/-!
# What a mode change does

The visible state of a channel: its list entries in order, its key, its limit and its flags.
A valid change does to it what it says, unless it adds to a list that has no room.
-/
namespace OnyxServer.Chanmode

open Lib

structure View where
  entries : ChannelMode → List Bytes
  capacity : ChannelMode → Nat
  key : Option Bytes
  limit : Option ChannelLimit
  flag : ChannelMode → Bool

def ChannelModes.view (modes : ChannelModes) : View where
  entries mode := (modes.listFor mode).elim [] ModeList.slice
  capacity mode := (modes.listFor mode).elim 0 fun list => list.entries.length
  key := modes.key
  limit := modes.limit
  flag := modes.containsFlag

namespace View

def setEntries (view : View) (mode : ChannelMode) (entries : List Bytes) : View :=
  { view with entries := Function.update view.entries mode entries }

def setFlag (view : View) (mode : ChannelMode) (enabled : Bool) : View :=
  { view with flag := Function.update view.flag mode enabled }

theorem setEntries_entries (view : View) (mode : ChannelMode) (entries : List Bytes)
    (other : ChannelMode) : (view.setEntries mode entries).entries other =
      if other = mode then entries else view.entries other := Function.update_apply ..

theorem setFlag_flag (view : View) (mode : ChannelMode) (enabled : Bool) (other : ChannelMode) :
    (view.setFlag mode enabled).flag other = if other = mode then enabled else view.flag other :=
  Function.update_apply ..

def step (view : View) (change : AppliedChange) : View :=
  match kindOf change.mode, change.op, change.param with
  | .listA, .add, some entry =>
    if entry ∈ view.entries change.mode then view
    else view.setEntries change.mode (view.entries change.mode ++ [entry])
  | .listA, .remove, some entry =>
    view.setEntries change.mode ((view.entries change.mode).erase entry)
  | .paramB, .add, some key => { view with key := some key }
  | .paramB, .remove, _ => { view with key := none }
  | .paramC, .add, some text =>
    match parseLimit text with
    | .ok value =>
      if view.limit.map ChannelLimit.value = some value then view
      else { view with limit := some ⟨value, text⟩ }
    | .error _ => view
  | .paramC, .remove, _ => { view with limit := none }
  | .flagD, op, _ => view.setFlag change.mode (op == .add)
  | _, _, _ => view

def run (view : View) (changes : List AppliedChange) : View := changes.foldl step view

/-- The change adds a new entry to a list that has no room. -/
def Full (view : View) (change : AppliedChange) : Prop :=
  kindOf change.mode = .listA ∧ change.op = .add ∧ ∃ entry, change.param = some entry ∧
    entry ∉ view.entries change.mode ∧
    view.capacity change.mode ≤ (view.entries change.mode).length

/-- Every addition finds room at its turn. -/
def Fits : View → List AppliedChange → Prop
  | _, [] => True
  | view, change :: changes => ¬ view.Full change ∧ (view.step change).Fits changes

end View

section
variable {modes : ChannelModes} {change : AppliedChange} {mode : ChannelMode}

theorem listFor_of_list (hkind : kindOf mode = .listA) :
    ∃ list, modes.listFor mode = some list := by
  cases mode <;> first | exact ⟨_, rfl⟩ | cases hkind

variable {list : ModeList}

theorem view_entries (hlist : modes.listFor mode = some list) :
    modes.view.entries mode = list.slice ∧ modes.view.capacity mode = list.entries.length := by
  simp only [ChannelModes.view, hlist, Option.elim_some, and_self]

theorem listFor_putList {list list' : ModeList} (hlist : modes.listFor mode = some list)
    (other : ChannelMode) : (modes.putList mode list').listFor other =
      if other = mode then some list' else modes.listFor other := by
  cases mode <;> cases hlist <;> cases other <;> rfl

theorem view_putList {list list' : ModeList} (hlist : modes.listFor mode = some list)
    (hlength : list'.entries.length = list.entries.length) :
    (modes.putList mode list').view = modes.view.setEntries mode list'.slice := by
  have hentries : (modes.putList mode list').view.entries =
      Function.update modes.view.entries mode list'.slice := by
    funext other
    simp only [ChannelModes.view, listFor_putList hlist, Function.update_apply]
    split_ifs <;> rfl
  have hcapacity : (modes.putList mode list').view.capacity = modes.view.capacity := by
    funext other
    simp only [ChannelModes.view, listFor_putList hlist]
    split_ifs with h
    · rw [h, hlist, Option.elim_some, Option.elim_some, hlength]
    · rfl
  have hrest : (modes.putList mode list').key = modes.key ∧
      (modes.putList mode list').limit = modes.limit ∧
      (modes.putList mode list').containsFlag = modes.containsFlag := by
    cases mode <;> cases hlist <;> exact ⟨rfl, rfl, rfl⟩
  exact View.mk.injEq .. ▸ ⟨hentries, hcapacity, hrest.1, hrest.2.1, hrest.2.2⟩

theorem putList_self (hlist : modes.listFor mode = some list) :
    modes.putList mode list = modes := by
  cases mode <;> cases hlist <;> rfl

theorem view_putFlag (hkind : kindOf mode = .flagD) (enabled : Bool) :
    (modes.putFlag mode enabled).view = modes.view.setFlag mode enabled := by
  have hflag : (modes.putFlag mode enabled).containsFlag =
      Function.update modes.containsFlag mode enabled := by
    funext other
    by_cases h : other = mode
    · subst h
      rw [Function.update_self]
      cases other <;> first | rfl | cases hkind
    · rw [Function.update_of_ne h]
      cases mode <;> cases other <;> first | exact absurd rfl h | rfl
  have hlists : (modes.putFlag mode enabled).listFor = modes.listFor := by
    funext other
    cases mode <;> rfl
  have hrest : (modes.putFlag mode enabled).key = modes.key ∧
      (modes.putFlag mode enabled).limit = modes.limit := by
    cases mode <;> exact ⟨rfl, rfl⟩
  simp only [ChannelModes.view, View.setFlag, hlists, hflag, hrest.1, hrest.2]

theorem applyOne_list {entry : Bytes} (hlist : modes.listFor change.mode = some list)
    (hparam : change.param = some entry) : applyOne modes change =
      match change.op with
      | .add =>
        match list.add entry with
        | .error e => .error e
        | .ok (changed, list') => .ok (changed, modes.putList change.mode list')
      | .remove =>
        .ok ((list.remove entry).1, modes.putList change.mode (list.remove entry).2) := by
  obtain ⟨op, mode, param⟩ := change
  cases hparam
  cases mode <;> cases hlist <;> rfl

theorem applyOne_flag (hkind : kindOf change.mode = .flagD) :
    applyOne modes change = .ok (modes.setFlag change.mode (change.op == .add)) := by
  obtain ⟨op, mode, param⟩ := change
  cases mode <;> first | rfl | cases hkind

/-- What one change does: it finds its list full, or it does what it says, and reports no
change only if it leaves everything as it is. -/
def Effect (modes : ChannelModes) (change : AppliedChange) : Prop :=
  (modes.view.Full change ∧ applyOne modes change = .error .listFull) ∨
    (¬ modes.view.Full change ∧ ∃ changed modes', applyOne modes change = .ok (changed, modes') ∧
      modes'.view = modes.view.step change ∧ (changed = false → modes' = modes))

theorem effect_list {entry : Bytes} (hkind : kindOf change.mode = .listA)
    (hparam : change.param = some entry) : Effect modes change := by
  have hlisted : ∃ list, modes.listFor change.mode = some list := listFor_of_list hkind
  obtain ⟨list, hlist⟩ := hlisted
  obtain ⟨hentries, hcapacity⟩ := view_entries hlist
  have hone := applyOne_list hlist hparam
  have hfull : modes.view.Full change ↔
      change.op = .add ∧ entry ∉ list.slice ∧ list.entries.length ≤ list.slice.length := by
    rw [View.Full, hparam, hentries, hcapacity]
    constructor
    · intro ⟨_, hop, other, heq, hnot, hle⟩
      cases heq
      exact ⟨hop, hnot, hle⟩
    · intro ⟨hop, hnot, hle⟩
      exact ⟨hkind, hop, entry, rfl, hnot, hle⟩
  rw [Effect, hfull, hone]
  cases hop : change.op with
  | add =>
    have hstep : modes.view.step change = if entry ∈ list.slice then modes.view else
        modes.view.setEntries change.mode (list.slice ++ [entry]) := by
      simp only [View.step, hkind, hop, hparam, hentries]
    rw [hstep]
    rcases list.add_spec entry with ⟨hmem, hadd⟩ | ⟨hnot, hlength, hadd⟩ |
      ⟨hnot, hlt, list', hadd, hslice, hlength⟩
    · refine .inr ⟨fun h => h.2.1 hmem, false, modes, ?_, (if_pos hmem).symm, fun _ => rfl⟩
      simp only [hadd, putList_self hlist]
    · exact .inl ⟨⟨rfl, hnot, by omega⟩, by simp only [hadd]⟩
    · refine .inr
        ⟨fun h => by omega, true, modes.putList change.mode list', by simp only [hadd], ?_,
        fun h => (nomatch h)⟩
      rw [if_neg hnot, view_putList hlist hlength, hslice]
  | remove =>
    have hstep :
        modes.view.step change = modes.view.setEntries change.mode (list.slice.erase entry) := by
      simp only [View.step, hkind, hop, hparam, hentries]
    rw [hstep]
    refine .inr ⟨fun h => (nomatch h.1), _, _, rfl, ?_⟩
    rcases list.remove_spec entry with ⟨hnot, hremove⟩ | ⟨hmem, list', hremove, hslice, hlength⟩
    · rw [hremove, putList_self hlist, List.erase_of_not_mem hnot, ← hentries]
      exact ⟨by simp only [View.setEntries, Function.update_eq_self], fun _ => rfl⟩
    · rw [hremove, view_putList hlist hlength, hslice]
      exact ⟨rfl, fun h => nomatch h⟩

theorem not_full {view : View} (hkind : kindOf change.mode ≠ .listA) : ¬ view.Full change :=
  fun h => hkind h.1

theorem effect_flag (hkind : kindOf change.mode = .flagD) : Effect modes change := by
  have hstep : modes.view.step change = modes.view.setFlag change.mode (change.op == .add) := by
    simp only [View.step, hkind]
  have hone : applyOne modes change =
      .ok (if modes.containsFlag change.mode = (change.op == .add) then (false, modes)
        else (true, modes.putFlag change.mode (change.op == .add))) :=
    (applyOne_flag hkind).trans (congrArg Except.ok (if_pos hkind))
  refine .inr ⟨not_full (by rw [hkind]; decide), ?_⟩
  rw [hstep, hone]
  split_ifs with hsame
  · refine ⟨false, modes, rfl, ?_, fun _ => rfl⟩
    rw [View.setFlag, ← hsame]
    exact congrArg (fun flag => { modes.view with flag := flag })
      (Function.update_eq_self change.mode modes.view.flag).symm
  · exact ⟨true, _, rfl, view_putFlag hkind _, fun h => (nomatch h)⟩

theorem effect_key (hkind : kindOf change.mode = .paramB) (hvalid : change.Valid) :
    Effect modes change := by
  have hfull : ¬ modes.view.Full change := not_full (by rw [hkind]; decide)
  obtain ⟨key, hparam, -⟩ := hvalid.param (by rw [hkind]; rfl)
  obtain ⟨op, mode, param⟩ := change
  cases hparam
  have hmode : mode = .key := by
    cases mode <;> first | rfl | cases hkind
  subst hmode
  refine .inr ⟨hfull, ?_⟩
  cases op with
  | add =>
    by_cases hsame : modes.key = some key
    · refine ⟨false, modes, if_pos hsame, ?_, fun _ => rfl⟩
      show modes.view = { modes.view with key := some key }
      rw [← hsame]
      rfl
    · exact ⟨true, _, if_neg hsame, rfl, fun h => (nomatch h)⟩
  | remove =>
    by_cases hsame : modes.key = none
    · refine ⟨false, modes, if_pos hsame, ?_, fun _ => rfl⟩
      show modes.view = { modes.view with key := none }
      rw [← hsame]
      rfl
    · exact ⟨true, _, if_neg hsame, rfl, fun h => (nomatch h)⟩

theorem effect_limit (hkind : kindOf change.mode = .paramC) (hvalid : change.Valid) :
    Effect modes change := by
  have hfull : ¬ modes.view.Full change := not_full (by rw [hkind]; decide)
  obtain ⟨op, mode, param⟩ := change
  have hmode : mode = .limit := by
    cases mode <;> first | rfl | cases hkind
  subst hmode
  refine .inr ⟨hfull, ?_⟩
  cases op with
  | add =>
    obtain ⟨text, hparam, hcheck⟩ := hvalid.param rfl
    obtain ⟨value, hvalue⟩ := parseLimit_of_check hcheck
    cases hparam
    have hone : applyOne modes ⟨.add, .limit, some text⟩ =
        if modes.limit.map ChannelLimit.value = some value then .ok (false, modes)
        else .ok (true, { modes with limit := some ⟨value, text⟩ }) := by
      simp only [applyOne, hvalue]
    have hstep : modes.view.step ⟨.add, .limit, some text⟩ =
        if modes.limit.map ChannelLimit.value = some value then modes.view
        else { modes.view with limit := some ⟨value, text⟩ } := by
      simp only [View.step, kindOf, hvalue]
      rfl
    rw [hone, hstep]
    split_ifs with hsame
    · exact ⟨false, modes, rfl, rfl, fun _ => rfl⟩
    · exact ⟨true, _, rfl, rfl, fun h => (nomatch h)⟩
  | remove =>
    by_cases hsame : modes.limit = none
    · refine ⟨false, modes, if_pos hsame, ?_, fun _ => rfl⟩
      show modes.view = { modes.view with limit := none }
      rw [← hsame]
      rfl
    · exact ⟨true, _, if_neg hsame, rfl, fun h => (nomatch h)⟩

theorem effect_of_valid (hvalid : change.Valid) : Effect modes change := by
  cases hkind : kindOf change.mode with
  | listA =>
    obtain ⟨entry, hparam, -⟩ := hvalid.param (by rw [hkind]; rfl)
    exact effect_list hkind hparam
  | paramB => exact effect_key hkind hvalid
  | paramC => exact effect_limit hkind hvalid
  | flagD => exact effect_flag hkind

end
end OnyxServer.Chanmode
