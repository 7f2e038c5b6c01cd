import Mathlib.Data.List.Infix
import OnyxServer.Text.Utf8

/-!
# The field grammar of relayed messages

The semantic checks of `message_relay.zig` that both relay schemas share: every
field that is rendered into an IRC line is bounded and free of framing octets.
-/
namespace OnyxServer.Relay.V1

open Lib Text List

def pubkeyLen : Nat := 32
def sigLen : Nat := 64
def maxNickLen : Nat := 64
def maxUserLen : Nat := 64
def maxHostLen : Nat := 255
def maxChannelLen : Nat := 200
def maxAccountLen : Nat := 64
def maxTagsLen : Nat := 4094
def maxTagCount : Nat := 32
def maxTagKeyLen : Nat := 96
def maxTextLen : Nat := 4096
def maxDataTagLen : Nat := 15
def maxPrefixLen : Nat := maxNickLen + 1 + maxUserLen + 1 + maxHostLen

inductive Verb where
  | privmsg
  | notice
  | tagmsg
  | data
  | request
  | reply
  | whisper
  deriving DecidableEq

def Verb.code : Verb → UInt8
  | .privmsg => 1
  | .notice => 2
  | .tagmsg => 3
  | .data => 4
  | .request => 5
  | .reply => 6
  | .whisper => 7

/-- The view of a message the grammar checks. -/
structure RelayMessage where
  verb : Verb
  target : Bytes
  minRank : UInt8
  sourceNick : Bytes
  sourcePrefix : Bytes
  account : Bytes
  tags : Bytes
  text : Bytes
  dataTag : Bytes
  recipient : Bytes
  originPubkey : Bytes
  originSig : Bytes

def indexOfScalar (bytes : Bytes) (byte : UInt8) : Option Nat := bytes.findIdx? (· == byte)

def isControl (byte : UInt8) : Bool := decide (byte < 0x20) || byte == 0x7f

def hasControl (bytes : Bytes) : Bool := bytes.any isControl

def isIrcFormatControl (byte : UInt8) : Bool :=
  byte ∈ [0x02, 0x03, 0x04, 0x0f, 0x11, 0x16, 0x1d, 0x1e, 0x1f]

def hasDisallowedTextControl (bytes : Bytes) : Bool :=
  bytes.any fun byte => isControl byte && !isIrcFormatControl byte

def isAlphabetic (byte : UInt8) : Bool := asciiAlpha byte.toNat

def isAlphanumeric (byte : UInt8) : Bool := asciiAlpha byte.toNat || asciiDigit byte.toNat

def validUtf8Field (bytes : Bytes) (maxLen : Nat) (allowEmpty : Bool) : Bool :=
  if (!allowEmpty ∧ bytes.length = 0) ∨ maxLen < bytes.length then false
  else !hasControl bytes && validateUtf8 bytes

def validTextField (bytes : Bytes) (maxLen : Nat) (allowEmpty : Bool) : Bool :=
  if (!allowEmpty ∧ bytes.length = 0) ∨ maxLen < bytes.length then false
  else !hasDisallowedTextControl bytes && validateUtf8 bytes

def validNick (nick : Bytes) : Bool := isValidNickWith nick maxNickLen

/-- A leading `%` is not part of the name the channel grammar checks. -/
def validChannel (channel : Bytes) : Bool :=
  if maxChannelLen < channel.length then false
  else
    let name := if 2 ≤ channel.length ∧ channel.head? = some 0x25 then channel.drop 1 else channel
    isValidChannelWith name maxChannelLen true false

/-- No `!`, `@`, `:` or blank. -/
def validUser (user : Bytes) : Bool :=
  validUtf8Field user maxUserLen false && user.all fun byte => byte ∉ [0x21, 0x40, 0x3a, 0x20]

/-- Alphanumeric, or one of `. - _ : [ ] /`. -/
def validHost (host : Bytes) : Bool :=
  if host.length = 0 ∨ maxHostLen < host.length then false
  else host.all fun byte =>
    isAlphanumeric byte || decide (byte ∈ [0x2e, 0x2d, 0x5f, 0x3a, 0x5b, 0x5d, 0x2f])

/-- Exactly `nick!user@host`. -/
def validPrefix (pre sourceNick : Bytes) : Bool :=
  if pre.length = 0 ∨ maxPrefixLen < pre.length ∨ pre.head? = some 0x3a then false
  else
    match indexOfScalar pre 0x21 with
    | none => false
    | some bang =>
      match indexOfScalar (pre.drop (bang + 1)) 0x40 with
      | none => false
      | some atRel =>
        let nick := pre.take bang
        let user := (pre.drop (bang + 1)).take atRel
        let host := pre.drop (bang + 1 + atRel + 1)
        if (indexOfScalar (pre.drop (bang + 1)) 0x21).isSome then false
        else if (indexOfScalar host 0x40).isSome then false
        else if !validNick nick || !eqlUtf8Only nick sourceNick then false
        else validUser user && validHost host

/-- Alphanumeric, or one of `_ - .`. -/
def validAccount (account : Bytes) : Bool :=
  if account.length = 0 then true
  else validUtf8Field account maxAccountLen false &&
    account.all fun byte => isAlphanumeric byte || decide (byte ∈ [0x5f, 0x2d, 0x2e])

/-- `+` and then alphanumerics or `- . /`. -/
def validTagKey (key : Bytes) : Bool :=
  if key.length < 2 ∨ maxTagKeyLen < key.length ∨ key.head? ≠ some 0x2b then false
  else (key.drop 1).all fun byte => isAlphanumeric byte || decide (byte ∈ [0x2d, 0x2e, 0x2f])

def validTagsLoop : List Bytes → List Bytes → Bool
  | _, [] => true
  | seen, tag :: rest =>
    if tag.length = 0 ∨ seen.length = maxTagCount then false
    else
      let eq := (indexOfScalar tag 0x3d).getD tag.length
      let key := tag.take eq
      if !validTagKey key then false
      else if key ∈ seen then false
      else if (tag.drop (eq + 1)).any (fun byte => byte ∈ [0x20, 0x3b]) then false
      else validTagsLoop (seen ++ [key]) rest

def validTags (raw : Bytes) : Bool :=
  if raw.length = 0 then true
  else validUtf8Field raw maxTagsLen false && validTagsLoop [] (raw.splitOn 0x3b)

def validDataTag (tag : Bytes) : Bool :=
  if tag.length = 0 ∨ maxDataTagLen < tag.length ∨ !(tag.head?.any isAlphabetic) then false
  else tag.all fun byte => isAlphanumeric byte || byte == 0x2e

def validVerb (msg : RelayMessage) (targetIsChannel : Bool) : Bool :=
  match msg.verb with
  | .privmsg | .notice =>
    !(msg.text.length == 0 || msg.dataTag.length != 0 || msg.recipient.length != 0)
  | .tagmsg =>
    !(msg.text.length != 0 || msg.tags.length == 0 || msg.dataTag.length != 0 ||
      msg.recipient.length != 0)
  | .data | .request | .reply =>
    !(msg.text.length == 0 || !validDataTag msg.dataTag || msg.recipient.length != 0)
  | .whisper =>
    !(!targetIsChannel || msg.minRank != 0 || msg.text.length == 0 || msg.dataTag.length != 0 ||
      !validNick msg.recipient)

/-- Whether `validateSemantic` passes; its only error is `InvalidSemantic`. -/
def validateSemantic (msg : RelayMessage) : Bool :=
  if 4 < msg.minRank then false
  else if !validNick msg.sourceNick then false
  else if !validPrefix msg.sourcePrefix msg.sourceNick then false
  else if !validAccount msg.account then false
  else if !validTags msg.tags then false
  else if !validTextField msg.text maxTextLen true then false
  else
    let targetIsChannel := validChannel msg.target
    let targetIsNick := validNick msg.target
    if !targetIsChannel && !targetIsNick then false
    else if !targetIsChannel && msg.minRank != 0 then false
    else if msg.originPubkey.length ≠ 0 ∧ msg.originPubkey.length ≠ pubkeyLen then false
    else if msg.originSig.length ≠ 0 ∧ msg.originSig.length ≠ sigLen then false
    else if (msg.originPubkey.length == 0) ≠ (msg.originSig.length == 0) then false
    else validVerb msg targetIsChannel

/-! ## What the grammar excludes -/

variable {bytes : Bytes}

theorem indexOfScalar_split {byte : UInt8} {index : Nat}
    (h : indexOfScalar bytes byte = some index) :
    bytes = bytes.take index ++ byte :: bytes.drop (index + 1) := by
  obtain ⟨hlt, hbyte, -⟩ := List.findIdx?_eq_some_iff_getElem.mp h
  rw [← beq_iff_eq.mp hbyte, ← drop_eq_getElem_cons hlt, take_append_drop]

theorem hasControl_octets (h : hasControl bytes = false) :
    ∀ byte ∈ bytes, 0x20 ≤ byte := by
  intro byte hbyte
  have hn := any_eq_false.mp h byte hbyte
  simp only [isControl, Bool.or_eq_true, decide_eq_true_eq, not_or] at hn
  exact UInt8.not_lt.mp hn.1

theorem validUtf8Field_spec {maxLen : Nat}
    (h : validUtf8Field bytes maxLen false = true) :
    (0 < bytes.length ∧ bytes.length ≤ maxLen) ∧ ∀ byte ∈ bytes, 0x20 ≤ byte := by
  unfold validUtf8Field at h
  split_ifs at h with hlen
  simp only [Bool.not_false, true_and, not_or] at hlen
  simp only [Bool.and_eq_true, Bool.not_eq_true'] at h
  exact ⟨by omega, hasControl_octets h.1⟩

theorem isAlphanumeric_octets {byte : UInt8} (h : isAlphanumeric byte = true) : 0x30 ≤ byte := by
  simp only [isAlphanumeric, asciiAlpha, asciiDigit, Bool.or_eq_true, Bool.and_eq_true,
    decide_eq_true_eq] at h
  simp only [UInt8.le_iff_toNat_le, UInt8.reduceToNat]
  omega

theorem validHost_spec {host : Bytes} (h : validHost host = true) :
    (0 < host.length ∧ host.length ≤ maxHostLen) ∧ ∀ byte ∈ host, 0x20 ≤ byte := by
  unfold validHost at h
  split_ifs at h
  refine ⟨by omega, fun byte hbyte => ?_⟩
  have hb := all_eq_true.mp h byte hbyte
  rw [Bool.or_eq_true, decide_eq_true_eq] at hb
  rcases hb with hb | hb
  · exact UInt8.le_trans (by decide) (isAlphanumeric_octets hb)
  · revert hb
    simp only [mem_cons, not_mem_nil, or_false]
    rintro (rfl | rfl | rfl | rfl | rfl | rfl | rfl) <;> decide

theorem validPrefix_spec {pre sourceNick : Bytes} (h : validPrefix pre sourceNick = true) :
    (5 ≤ pre.length ∧ pre.length ≤ maxPrefixLen) ∧ (∀ byte ∈ pre, 0x20 ≤ byte) ∧ 0x21 ∈ pre := by
  unfold validPrefix at h
  split at h
  · cases h
  rename_i hlen
  split at h
  · cases h
  rename_i bang hbang
  split at h
  · cases h
  rename_i atRel hat
  simp only [Bool.if_false_left, Bool.and_eq_true, Bool.not_eq_true', decide_eq_false_iff_not,
    Bool.or_eq_true, not_or, Bool.not_eq_false] at h
  obtain ⟨-, -, ⟨hnick, -⟩, huser, hhost⟩ := h
  obtain ⟨⟨hn0, -⟩, hn⟩ := isValidNickWith_octets hnick
  obtain ⟨⟨hu0, -⟩, hu⟩ := validUtf8Field_spec (Bool.and_eq_true _ _ ▸ huser).1
  obtain ⟨⟨hh0, -⟩, hh⟩ := validHost_spec hhost
  -- The three parts and the two separators make up the whole text.
  have hsplit := indexOfScalar_split hbang
  have hrest := indexOfScalar_split hat
  rw [drop_drop] at hrest
  rw [show bang + 1 + (atRel + 1) = bang + 1 + atRel + 1 by omega] at hrest
  rw [hrest] at hsplit
  refine ⟨⟨?_, by omega⟩, fun byte hbyte => ?_, ?_⟩
  · rw [hsplit]
    simp only [length_append, length_cons]
    omega
  · rw [hsplit] at hbyte
    simp only [mem_append, mem_cons] at hbyte
    rcases hbyte with hb | rfl | hb | rfl | hb
    · exact UInt8.le_of_lt (hn byte hb).1
    · decide
    · exact hu byte hb
    · decide
    · exact hh byte hb
  · rw [hsplit]
    simp

theorem validAccount_spec {account : Bytes} (h : validAccount account = true) :
    account.length ≤ maxAccountLen ∧ ∀ byte ∈ account, 0x2d ≤ byte := by
  unfold validAccount at h
  split at h
  · rename_i hlen
    rw [length_eq_zero_iff.mp hlen]
    simp
  rw [Bool.and_eq_true] at h
  refine ⟨(validUtf8Field_spec h.1).1.2, fun byte hbyte => ?_⟩
  have hb := all_eq_true.mp h.2 byte hbyte
  rw [Bool.or_eq_true, decide_eq_true_eq] at hb
  rcases hb with hb | hb
  · exact UInt8.le_trans (by decide) (isAlphanumeric_octets hb)
  · revert hb
    simp only [mem_cons, not_mem_nil, or_false]
    rintro (rfl | rfl | rfl) <;> decide

/-- Tags are absent, or open with a key of at least two octets that starts with `+`. -/
theorem validTags_spec {raw : Bytes} (h : validTags raw = true) :
    raw = [] ∨ (2 ≤ raw.length ∧ raw.length ≤ maxTagsLen ∧ raw.head? = some 0x2b) := by
  unfold validTags at h
  split at h
  · rename_i hlen
    exact Or.inl (length_eq_zero_iff.mp hlen)
  rw [Bool.and_eq_true] at h
  have hbound := (validUtf8Field_spec h.1).1.2
  have hjoin : [0x3b].intercalate (raw.splitOn 0x3b) = raw := intercalate_splitOn 0x3b
  cases hsplit : raw.splitOn 0x3b with
  | nil => exact absurd hsplit (splitOn_ne_nil _ _)
  | cons tag rest =>
    have hloop := h.2
    rw [hsplit] at hloop hjoin
    unfold validTagsLoop at hloop
    simp only [Bool.if_false_left, Bool.and_eq_true, Bool.not_eq_true', decide_eq_false_iff_not,
      Bool.not_eq_false] at hloop
    obtain ⟨-, hkey, -⟩ := hloop
    unfold validTagKey at hkey
    split_ifs at hkey with hk
    simp only [not_or, Decidable.not_not, Nat.not_lt] at hk
    obtain ⟨hk2, -, hhead⟩ := hk
    have hpre : (tag.take ((indexOfScalar tag 0x3d).getD tag.length)) <+: raw := by
      refine (List.take_prefix _ _).trans ?_
      rw [← hjoin]
      cases rest with
      | nil => simp
      | cons next rest =>
        rw [intercalate_cons_cons, append_assoc]
        exact prefix_append _ _
    refine Or.inr ⟨hk2.trans hpre.length_le, hbound, ?_⟩
    obtain ⟨tail, htail⟩ := hpre
    rw [← htail, List.head?_append, hhead]
    rfl

end OnyxServer.Relay.V1
