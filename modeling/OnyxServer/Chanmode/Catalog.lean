import OnyxServer.Lib.Bytes

/-!
# The channel mode catalog

`chanmode.zig`: nineteen modes, each with its letter and its kind. List modes and the key
take a parameter in both directions, the limit only when it is set, flags never.
-/
namespace OnyxServer.Chanmode

open Lib

inductive ChannelMode
  | ban
  | exempt
  | invex
  | key
  | limit
  | inviteOnly
  | moderated
  | noExternal
  | topicOps
  | secret
  | noCtcp
  | noNotice
  | noNick
  | freeInvite
  | tlsOnly
  | modReg
  | newsWire
  | operOnly
  | adminOnly
  deriving DecidableEq

inductive ModeOp
  | add
  | remove
  deriving DecidableEq

inductive ModeKind
  | listA
  | paramB
  | paramC
  | flagD
  deriving DecidableEq

structure ModeSpec where
  mode : ChannelMode
  letter : UInt8
  kind : ModeKind
  deriving DecidableEq

structure AppliedChange where
  op : ModeOp
  mode : ChannelMode
  param : Option Bytes := none
  deriving DecidableEq

structure ChannelLimit where
  value : Nat
  text : Bytes
  deriving DecidableEq

inductive ChanModeError
  | emptyModeString
  | missingOperation
  | unknownMode
  | missingParameter
  | invalidListEntry
  | listEntryTooLong
  | listFull
  | invalidKey
  | keyTooLong
  | invalidLimit
  | limitOutOfRange
  | tooManyChanges
  | outputTooSmall
  | tooManyParams
  deriving DecidableEq

def letterOf : ChannelMode → UInt8
  | .ban => 0x62
  | .exempt => 0x65
  | .invex => 0x49
  | .key => 0x6B
  | .limit => 0x6C
  | .inviteOnly => 0x69
  | .moderated => 0x6D
  | .noExternal => 0x6E
  | .topicOps => 0x74
  | .secret => 0x73
  | .noCtcp => 0x43
  | .noNotice => 0x54
  | .noNick => 0x4E
  | .freeInvite => 0x67
  | .tlsOnly => 0x53
  | .modReg => 0x4D
  | .newsWire => 0x57
  | .operOnly => 0x4F
  | .adminOnly => 0x41

def defaultSpecs : List ModeSpec :=
  [⟨.ban, 0x62, .listA⟩, ⟨.exempt, 0x65, .listA⟩, ⟨.invex, 0x49, .listA⟩, ⟨.key, 0x6B, .paramB⟩,
    ⟨.limit, 0x6C, .paramC⟩, ⟨.inviteOnly, 0x69, .flagD⟩, ⟨.moderated, 0x6D, .flagD⟩,
    ⟨.noExternal, 0x6E, .flagD⟩, ⟨.topicOps, 0x74, .flagD⟩, ⟨.secret, 0x73, .flagD⟩,
    ⟨.noCtcp, 0x43, .flagD⟩, ⟨.noNotice, 0x54, .flagD⟩, ⟨.noNick, 0x4E, .flagD⟩,
    ⟨.freeInvite, 0x67, .flagD⟩, ⟨.tlsOnly, 0x53, .flagD⟩, ⟨.modReg, 0x4D, .flagD⟩,
    ⟨.newsWire, 0x57, .flagD⟩, ⟨.operOnly, 0x4F, .flagD⟩, ⟨.adminOnly, 0x41, .flagD⟩]

def specFromLetter (letter : UInt8) : Option ModeSpec :=
  defaultSpecs.find? fun spec => spec.letter == letter

def plusSign : UInt8 := 0x2B
def minusSign : UInt8 := 0x2D

def defaultMaxKeyBytes : Nat := 64
def defaultMaxListEntryBytes : Nat := 256

def validParamByte (ch : UInt8) : Bool :=
  ch != 0 && ch != 0x20 && ch != 0x09 && ch != 0x0D && ch != 0x0A

def validateListEntry (entry : Bytes) : Except ChanModeError Unit :=
  if entry.length = 0 then .error .invalidListEntry
  else if entry.length > defaultMaxListEntryBytes then .error .listEntryTooLong
  else if entry.all validParamByte then .ok () else .error .invalidListEntry

def validateKey (key : Bytes) : Except ChanModeError Unit :=
  if key.length = 0 then .error .invalidKey
  else if key.length > defaultMaxKeyBytes then .error .keyTooLong
  else if key.all validParamByte then .ok () else .error .invalidKey

def parseUnsigned (digits : Bytes) : Nat :=
  digits.foldl (fun value ch => value * 10 + (ch.toNat - 0x30)) 0

def parseLimit (bytes : Bytes) : Except ChanModeError Nat :=
  if bytes.length = 0 then .error .invalidLimit
  else if bytes.any fun ch => ch < 0x30 || ch > 0x39 then .error .invalidLimit
  else if 2 ^ 64 ≤ parseUnsigned bytes then .error .limitOutOfRange
  else if parseUnsigned bytes = 0 then .error .invalidLimit
  else .ok (parseUnsigned bytes)

def takesParam (kind : ModeKind) (op : ModeOp) : Bool :=
  match kind with
  | .listA | .paramB => true
  | .paramC => op == .add
  | .flagD => false

def checkParam (kind : ModeKind) (param : Bytes) : Except ChanModeError Unit :=
  match kind with
  | .listA => validateListEntry param
  | .paramB => validateKey param
  | .paramC => (parseLimit param).map fun _ => ()
  | .flagD => .ok ()

def consumeParam (spec : ModeSpec) (op : ModeOp) (params : List Bytes) (paramIndex : Nat) :
    Except ChanModeError (Option Bytes × Nat) :=
  if takesParam spec.kind op = false then .ok (none, paramIndex)
  else
    match params[paramIndex]? with
    | none => .error .missingParameter
    | some param => (checkParam spec.kind param).map fun _ => (some param, paramIndex + 1)

/-! ## Facts of the catalog -/

def kindOf : ChannelMode → ModeKind
  | .ban | .exempt | .invex => .listA
  | .key => .paramB
  | .limit => .paramC
  | _ => .flagD

def specOf (mode : ChannelMode) : ModeSpec := ⟨mode, letterOf mode, kindOf mode⟩

theorem specFromLetter_letterOf (mode : ChannelMode) :
    specFromLetter (letterOf mode) = some (specOf mode) := by
  cases mode <;> decide

theorem kind_of_specFromLetter {letter : UInt8} {spec : ModeSpec}
    (h : specFromLetter letter = some spec) : spec.kind = kindOf spec.mode := by
  have hall : ∀ spec ∈ defaultSpecs, spec.kind = kindOf spec.mode := by decide
  exact hall spec (List.mem_of_find?_eq_some h)

/-- The parameter is there exactly where the mode takes one, and passes its check. -/
def AppliedChange.Valid (change : AppliedChange) : Prop :=
  if takesParam (kindOf change.mode) change.op = false then change.param = none
  else ∃ param, change.param = some param ∧ checkParam (kindOf change.mode) param = .ok ()

theorem AppliedChange.Valid.param {change : AppliedChange} (hvalid : change.Valid)
    (htakes : takesParam (kindOf change.mode) change.op = true) :
    ∃ param, change.param = some param ∧ checkParam (kindOf change.mode) param = .ok () := by
  rwa [AppliedChange.Valid, if_neg (by rw [htakes]; decide)] at hvalid

theorem parseLimit_of_check {text : Bytes} (h : checkParam .paramC text = .ok ()) :
    ∃ value, parseLimit text = .ok value := by
  rw [checkParam] at h
  cases hlimit : parseLimit text with
  | error e =>
    rw [hlimit] at h
    cases h
  | ok value => exact ⟨value, rfl⟩

theorem consumeParam_valid {spec : ModeSpec} {op : ModeOp} {params : List Bytes}
    {paramIndex next : Nat} {param : Option Bytes} (hkind : spec.kind = kindOf spec.mode)
    (h : consumeParam spec op params paramIndex = .ok (param, next)) :
    (⟨op, spec.mode, param⟩ : AppliedChange).Valid := by
  rw [consumeParam, hkind] at h
  rw [AppliedChange.Valid]
  dsimp only
  by_cases htakes : takesParam (kindOf spec.mode) op = false
  · rw [if_pos htakes] at h ⊢
    cases h
    rfl
  rw [if_neg htakes] at h ⊢
  cases hparam : params[paramIndex]? with
  | none =>
    rw [hparam] at h
    cases h
  | some param' =>
    rw [hparam] at h
    cases hcheck : checkParam (kindOf spec.mode) param' with
    | error e =>
      simp only [hcheck] at h
      cases h
    | ok =>
      simp only [hcheck] at h
      cases h
      exact ⟨param', rfl, hcheck⟩

theorem consumeParam_of_valid {change : AppliedChange} (hvalid : change.Valid)
    {before after : List Bytes} :
    consumeParam (specOf change.mode) change.op
      (before ++ (change.param.toList ++ after)) before.length =
      .ok (change.param, before.length + change.param.toList.length) := by
  rw [AppliedChange.Valid] at hvalid
  rw [consumeParam, specOf]
  dsimp only
  split_ifs at hvalid ⊢ with htakes
  · rw [hvalid]
    rfl
  · obtain ⟨param, hparam, hcheck⟩ := hvalid
    rw [hparam]
    simp [hcheck, Except.map]

theorem letterOf_ne_sign (mode : ChannelMode) :
    letterOf mode ≠ plusSign ∧ letterOf mode ≠ minusSign := by
  cases mode <;> decide

end OnyxServer.Chanmode
