import OnyxServer.Chanmode.Catalog
import OnyxServer.Lib.Search

/-!
# Channel mode state

List modes live in caller-owned storage of a fixed size; the key, the limit and the flags are
fields. One change is applied at a time, and says whether it changed anything.
-/
namespace OnyxServer.Chanmode

open Lib List

structure ModeList where
  entries : List Bytes
  count : Nat := 0
  bound : count ≤ entries.length := by omega

namespace ModeList

def init (storage : List Bytes) : ModeList := { entries := storage }

def slice (list : ModeList) : List Bytes := list.entries.take list.count

def indexOf (list : ModeList) (entry : Bytes) : Option Nat := list.slice.findIdx? (· == entry)

def contains (list : ModeList) (entry : Bytes) : Bool := (list.indexOf entry).isSome

def add (list : ModeList) (entry : Bytes) : Except ChanModeError (Bool × ModeList) :=
  if list.contains entry then .ok (false, list)
  else if h : list.count ≥ list.entries.length then .error .listFull
  else .ok (true, ⟨list.entries.set list.count entry, list.count + 1, by
    rw [List.length_set]
    exact Nat.lt_of_not_le h⟩)

end ModeList

/-- Moves `len` elements from `src` down to `dest`. -/
def copyForwards (entries : List Bytes) (dest src len : Nat) : List Bytes :=
  entries.take dest ++ (entries.drop src).take len ++ entries.drop (dest + len)

theorem copyForwards_length {entries : List Bytes} {dest src len : Nat} (hle : dest ≤ src)
    (hfit : src + len ≤ entries.length) : (copyForwards entries dest src len).length =
      entries.length := by
  simp only [copyForwards, length_append, length_take, length_drop]
  omega

namespace ModeList

def removeAt (list : ModeList) (idx : Nat) : ModeList where
  entries :=
    if idx + 1 < list.count then copyForwards list.entries idx (idx + 1) (list.count - (idx + 1))
    else list.entries
  count := list.count - 1
  bound := by
    have hbound := list.bound
    by_cases h : idx + 1 < list.count
    · rw [if_pos h, copyForwards_length (Nat.le_succ _) (by omega)]
      omega
    · rw [if_neg h]
      omega

def remove (list : ModeList) (entry : Bytes) : Bool × ModeList :=
  match list.indexOf entry with
  | none => (false, list)
  | some idx => (true, list.removeAt idx)

theorem slice_length (list : ModeList) : list.slice.length = list.count :=
  length_take_of_le list.bound

variable {list : ModeList}

theorem indexOf_none {entry : Bytes} :
    list.indexOf entry = none ↔ entry ∉ list.slice := by
  rw [indexOf, List.findIdx?_eq_none_iff]
  exact ⟨fun h hmem => absurd (h entry hmem) (by simp), fun h x hx => by
    rw [beq_eq_false_iff_ne]
    exact fun heq => h (heq ▸ hx)⟩

theorem contains_iff {entry : Bytes} :
    list.contains entry = true ↔ entry ∈ list.slice := by
  rw [contains, Option.isSome_iff_ne_none, ne_eq, indexOf_none, not_not]

theorem slice_removeAt {idx : Nat} (h : idx < list.count) :
    (list.removeAt idx).slice = list.slice.eraseIdx idx := by
  have hbound := list.bound
  have hlast : list.slice.eraseIdx idx =
      list.entries.take idx ++ (list.entries.drop (idx + 1)).take (list.count - (idx + 1)) := by
    rw [slice, eraseIdx_eq_take_drop_succ, take_take, drop_take, Nat.min_eq_left (Nat.le_of_lt h)]
  rw [hlast, slice, removeAt]
  dsimp only
  by_cases hmid : idx + 1 < list.count
  · rw [if_pos hmid, copyForwards]
    apply take_left'
    simp only [length_append, length_take, length_drop]
    omega
  · have hidx : list.count - 1 = idx := by omega
    rw [if_neg hmid, hidx, Nat.sub_eq_zero_of_le (by omega), take_zero, append_nil]

theorem add_spec (list : ModeList) (entry : Bytes) :
    (entry ∈ list.slice ∧ list.add entry = .ok (false, list)) ∨
      (entry ∉ list.slice ∧ list.slice.length = list.entries.length ∧
        list.add entry = .error .listFull) ∨
      (entry ∉ list.slice ∧ list.slice.length < list.entries.length ∧
        ∃ list', list.add entry = .ok (true, list') ∧ list'.slice = list.slice ++ [entry] ∧
          list'.entries.length = list.entries.length) := by
  have hbound := list.bound
  rw [slice_length, add]
  by_cases hmem : entry ∈ list.slice
  · exact .inl ⟨hmem, if_pos (contains_iff.mpr hmem)⟩
  rw [if_neg (mt contains_iff.mp hmem)]
  by_cases hfull : list.count ≥ list.entries.length
  · exact .inr (.inl ⟨hmem, by omega, dif_pos hfull⟩)
  · have hlt : list.count < list.entries.length := Nat.lt_of_not_le hfull
    exact .inr (.inr ⟨hmem, hlt, _, dif_neg hfull, take_succ_set hlt entry, length_set⟩)

theorem remove_spec (list : ModeList) (entry : Bytes) :
    (entry ∉ list.slice ∧ list.remove entry = (false, list)) ∨
      (entry ∈ list.slice ∧ ∃ list', list.remove entry = (true, list') ∧
        list'.slice = list.slice.erase entry ∧ list'.entries.length = list.entries.length) := by
  cases hindex : list.indexOf entry with
  | none =>
    refine .inl ⟨indexOf_none.mp hindex, ?_⟩
    rw [remove, hindex]
  | some idx =>
    have hmem : entry ∈ list.slice := by
      by_contra hnot
      rw [indexOf_none.mpr hnot] at hindex
      cases hindex
    obtain ⟨l, x, r, hsplit, hlength, hx, hbefore⟩ := findIdx?_split hindex
    have hlt : idx < list.count := by
      rw [← slice_length, hsplit, length_append, length_cons]
      omega
    refine .inr ⟨hmem, list.removeAt idx, by rw [remove, hindex], ?_, ?_⟩
    · have hnotin : entry ∉ l := fun h => by simpa using hbefore entry h
      rw [slice_removeAt hlt, hsplit, ← hlength, eraseIdx_split, eq_of_beq hx,
        erase_append_right _ hnotin, erase_cons_head]
    · have hbound := list.bound
      rw [removeAt]
      dsimp only
      split_ifs with hmid
      · exact copyForwards_length (Nat.le_succ _) (by omega)
      · rfl

end ModeList

structure ChannelModes where
  bans : ModeList
  exempts : ModeList
  invexes : ModeList
  key : Option Bytes := none
  limit : Option ChannelLimit := none
  inviteOnly : Bool := false
  moderated : Bool := false
  noExternal : Bool := false
  topicOps : Bool := false
  secret : Bool := false
  noCtcp : Bool := false
  noNotice : Bool := false
  noNick : Bool := false
  freeInvite : Bool := false
  tlsOnly : Bool := false
  modReg : Bool := false
  newsWire : Bool := false
  operOnly : Bool := false
  adminOnly : Bool := false

namespace ChannelModes

def init (banStorage exemptStorage invexStorage : List Bytes) : ChannelModes where
  bans := ModeList.init banStorage
  exempts := ModeList.init exemptStorage
  invexes := ModeList.init invexStorage

def containsFlag (modes : ChannelModes) : ChannelMode → Bool
  | .inviteOnly => modes.inviteOnly
  | .moderated => modes.moderated
  | .noExternal => modes.noExternal
  | .topicOps => modes.topicOps
  | .secret => modes.secret
  | .noCtcp => modes.noCtcp
  | .noNotice => modes.noNotice
  | .noNick => modes.noNick
  | .freeInvite => modes.freeInvite
  | .tlsOnly => modes.tlsOnly
  | .modReg => modes.modReg
  | .newsWire => modes.newsWire
  | .operOnly => modes.operOnly
  | .adminOnly => modes.adminOnly
  | _ => false

def listFor (modes : ChannelModes) : ChannelMode → Option ModeList
  | .ban => some modes.bans
  | .exempt => some modes.exempts
  | .invex => some modes.invexes
  | _ => none

/-- Writes through the pointer `listFor` returns. -/
def putList (modes : ChannelModes) (mode : ChannelMode) (list : ModeList) : ChannelModes :=
  match mode with
  | .ban => { modes with bans := list }
  | .exempt => { modes with exempts := list }
  | .invex => { modes with invexes := list }
  | _ => modes

def putFlag (modes : ChannelModes) (mode : ChannelMode) (enabled : Bool) : ChannelModes :=
  match mode with
  | .inviteOnly => { modes with inviteOnly := enabled }
  | .moderated => { modes with moderated := enabled }
  | .noExternal => { modes with noExternal := enabled }
  | .topicOps => { modes with topicOps := enabled }
  | .secret => { modes with secret := enabled }
  | .noCtcp => { modes with noCtcp := enabled }
  | .noNotice => { modes with noNotice := enabled }
  | .noNick => { modes with noNick := enabled }
  | .freeInvite => { modes with freeInvite := enabled }
  | .tlsOnly => { modes with tlsOnly := enabled }
  | .modReg => { modes with modReg := enabled }
  | .newsWire => { modes with newsWire := enabled }
  | .operOnly => { modes with operOnly := enabled }
  | .adminOnly => { modes with adminOnly := enabled }
  | _ => modes

/-- False, and nothing written, for a mode that is no flag. -/
def setFlag (modes : ChannelModes) (mode : ChannelMode) (enabled : Bool) : Bool × ChannelModes :=
  if kindOf mode = .flagD then
    if modes.containsFlag mode = enabled then (false, modes) else (true, modes.putFlag mode enabled)
  else (false, modes)

end ChannelModes

def applyOne (modes : ChannelModes) (change : AppliedChange) :
    Except ChanModeError (Bool × ChannelModes) :=
  match change.mode with
  | .ban | .exempt | .invex =>
    match change.param, modes.listFor change.mode with
    | some entry, some list =>
      match change.op with
      | .add =>
        match list.add entry with
        | .error e => .error e
        | .ok (changed, list') => .ok (changed, modes.putList change.mode list')
      | .remove =>
        .ok ((list.remove entry).1, modes.putList change.mode (list.remove entry).2)
    | _, _ => .error .missingParameter
  | .key =>
    match change.param with
    | none => .error .missingParameter
    | some key =>
      match change.op with
      | .add =>
        if modes.key = some key then .ok (false, modes)
        else .ok (true, { modes with key := some key })
      | .remove =>
        if modes.key = none then .ok (false, modes) else .ok (true, { modes with key := none })
  | .limit =>
    match change.op with
    | .add =>
      match change.param with
      | none => .error .missingParameter
      | some param =>
        match parseLimit param with
        | .error e => .error e
        | .ok limit =>
          if modes.limit.map ChannelLimit.value = some limit then .ok (false, modes)
          else .ok (true, { modes with limit := some ⟨limit, param⟩ })
    | .remove =>
      if modes.limit = none then .ok (false, modes) else .ok (true, { modes with limit := none })
  | _ => .ok (modes.setFlag change.mode (change.op == .add))

end OnyxServer.Chanmode
