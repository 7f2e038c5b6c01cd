import OnyxServer.Lib.Wire

/-!
# The client line parser

`irc_line.zig`: one terminal CR, LF or CRLF is taken off, then tags, prefix, command and
parameters are cut out of the body, each up to the next space. The filled slots of the two
bounded arrays are lists with their bound.
-/
namespace OnyxServer.IrcLine

open Lib

def maxPara : Nat := 15
def maxTags : Nat := 64
def maxLineBody : Nat := 8191

def space : UInt8 := 0x20
def colon : UInt8 := 0x3A
def semicolon : UInt8 := 0x3B
def equals : UInt8 := 0x3D
def atSign : UInt8 := 0x40
def cr : UInt8 := 0x0D
def lf : UInt8 := 0x0A

inductive ParseError
  | emptyLine
  | oversizeLine
  | embeddedNul
  | embeddedLineBreak
  | missingCommand
  | malformedPrefix
  | malformedTags
  | tooManyParams
  | tooManyTags
  deriving DecidableEq

structure TagView where
  key : Bytes
  valueRaw : Option Bytes
  deriving DecidableEq

structure LineView where
  raw : Bytes
  tagsRaw : Option Bytes := none
  prefixRaw : Option Bytes := none
  command : Bytes := []
  params : List Bytes := []
  tags : List TagView := []
  trailing : Option Bytes := none
  paramsBound : params.length ≤ maxPara := by exact Nat.zero_le _
  tagsBound : tags.length ≤ maxTags := by exact Nat.zero_le _

def findByte (bytes : Bytes) (start : Nat) (needle : UInt8) : Option Nat :=
  ((bytes.drop start).findIdx? (· == needle)).map (start + ·)

def findSpace (bytes : Bytes) (start : Nat) : Option Nat := findByte bytes start space

def skipSpaces (bytes : Bytes) (start : Nat) : Nat :=
  start + ((bytes.drop start).takeWhile (· == space)).length

def stripLineEnding (input : Bytes) : Bytes :=
  if 2 ≤ input.length ∧ input.getD (input.length - 2) 0 = cr ∧
    input.getD (input.length - 1) 0 = lf then
    input.take (input.length - 2)
  else if 1 ≤ input.length ∧
      (input.getD (input.length - 1) 0 = cr ∨ input.getD (input.length - 1) 0 = lf) then
    input.take (input.length - 1)
  else input

def checkBody : Bytes → Except ParseError Unit
  | [] => .ok ()
  | ch :: rest =>
    if ch = 0 then .error .embeddedNul
    else if ch = cr ∨ ch = lf then .error .embeddedLineBreak
    else checkBody rest

def validTagByte (ch : UInt8) : Bool :=
  (0x61 ≤ ch && ch ≤ 0x7A) || (0x41 ≤ ch && ch ≤ 0x5A) || (0x30 ≤ ch && ch ≤ 0x39) ||
    ch == 0x2D || ch == 0x2E || ch == 0x2F || ch == 0x5F

def validTagKey (key : Bytes) : Bool := if key.length = 0 then false else key.all validTagByte

/-- Key and value of one item. -/
def splitTag (item : Bytes) : TagView :=
  match findByte item 0 equals with
  | some pos => ⟨item.take pos, some (item.drop (pos + 1))⟩
  | none => ⟨item, none⟩

def appendTag (view : LineView) (tag : TagView) : Except ParseError LineView :=
  if h : maxTags ≤ view.tags.length then .error .tooManyTags
  else if validTagKey tag.key = false then .error .malformedTags
  else .ok { view with
    tags := view.tags ++ [tag]
    tagsBound := by
      rw [List.length_append, List.length_singleton]
      omega }

def tagLoop (raw : Bytes) : Nat → Nat → LineView → Except ParseError LineView
  | 0, _, view => .ok view
  | fuel + 1, cursor, view =>
    if cursor ≤ raw.length then
      let next := (findByte raw cursor semicolon).getD raw.length
      if next = cursor then .error .malformedTags
      else
        match appendTag view (splitTag (slice raw cursor next)) with
        | .error e => .error e
        | .ok view => if next = raw.length then .ok view else tagLoop raw fuel (next + 1) view
    else .ok view

def parseTags (raw : Bytes) (view : LineView) : Except ParseError LineView :=
  tagLoop raw (raw.length + 1) 0 view

def appendParam (view : LineView) (param : Bytes) : Except ParseError LineView :=
  if h : maxPara ≤ view.params.length then .error .tooManyParams
  else .ok { view with
    params := view.params ++ [param]
    paramsBound := by
      rw [List.length_append, List.length_singleton]
      omega }

/-- The tags in front of the line, and the cursor behind them. -/
def parseTagSection (body : Bytes) (view : LineView) : Except ParseError (LineView × Nat) :=
  if body.getD 0 0 = atSign then
    match findSpace body 0 with
    | none => .error .missingCommand
    | some tagEnd =>
      if tagEnd = 1 then .error .malformedTags
      else
        match parseTags (slice body 1 tagEnd)
          { view with tagsRaw := some (slice body 0 tagEnd) } with
        | .error e => .error e
        | .ok view =>
          if body.length ≤ skipSpaces body tagEnd then .error .missingCommand
          else .ok (view, skipSpaces body tagEnd)
  else .ok (view, 0)

def parsePrefixSection (body : Bytes) (view : LineView) (cursor : Nat) :
    Except ParseError (LineView × Nat) :=
  if body.getD cursor 0 = colon then
    match findSpace body cursor with
    | none => .error .missingCommand
    | some prefixEnd =>
      if prefixEnd = cursor + 1 then .error .malformedPrefix
      else if body.length ≤ skipSpaces body prefixEnd then .error .missingCommand
      else .ok ({ view with prefixRaw := some (slice body (cursor + 1) prefixEnd) },
        skipSpaces body prefixEnd)
  else .ok (view, cursor)

def paramLoop (body : Bytes) : Nat → Nat → LineView → Except ParseError LineView
  | 0, _, view => .ok view
  | fuel + 1, cursor, view =>
    if cursor < body.length then
      if body.getD cursor 0 = colon then
        match appendParam view (body.drop (cursor + 1)) with
        | .error e => .error e
        | .ok view => .ok { view with trailing := some (body.drop (cursor + 1)) }
      else
        let paramEnd := (findSpace body cursor).getD body.length
        if cursor < paramEnd then
          match appendParam view (slice body cursor paramEnd) with
          | .error e => .error e
          | .ok view => paramLoop body fuel (skipSpaces body paramEnd) view
        else paramLoop body fuel (skipSpaces body paramEnd) view
    else .ok view

def parseCommand (body : Bytes) (view : LineView) (cursor : Nat) : Except ParseError LineView :=
  let commandEnd := (findSpace body cursor).getD body.length
  if commandEnd = cursor then .error .missingCommand
  else
    paramLoop body body.length (skipSpaces body commandEnd)
      { view with command := slice body cursor commandEnd }

def parseLine (input : Bytes) : Except ParseError LineView :=
  let body := stripLineEnding input
  if body.length = 0 then .error .emptyLine
  else if maxLineBody < body.length then .error .oversizeLine
  else
    match checkBody body with
    | .error e => .error e
    | .ok () =>
      match parseTagSection body { raw := body } with
      | .error e => .error e
      | .ok (view, cursor) =>
        match parsePrefixSection body view cursor with
        | .error e => .error e
        | .ok (view, cursor) => parseCommand body view cursor

/-!
## The grammar of a client line

What a line may look like: which fields it is made of, and where spaces and the colon of a
trailing parameter stand. A cursor is described by what stands in front of it and what
follows.
-/

def spaces (n : Nat) : Bytes := List.replicate n space

structure LineFields where
  tags : List TagView
  prefixRaw : Option Bytes
  command : Bytes
  params : List Bytes

/-- Without NUL and line breaks. -/
def Clean (bytes : Bytes) : Prop := (0 : UInt8) ∉ bytes ∧ cr ∉ bytes ∧ lf ∉ bytes

def Word (bytes : Bytes) : Prop := bytes ≠ [] ∧ space ∉ bytes

/-- A parameter that can stand without a colon. -/
def Middle (param : Bytes) : Prop := Word param ∧ param.head? ≠ some colon

structure TagView.Valid (tag : TagView) : Prop where
  key : validTagKey tag.key = true
  value : ∀ value, tag.valueRaw = some value → semicolon ∉ value ∧ space ∉ value ∧ Clean value

structure LineFields.Valid (fields : LineFields) : Prop where
  tagCount : fields.tags.length ≤ maxTags
  tags : ∀ tag ∈ fields.tags, tag.Valid
  prefixRaw : ∀ name, fields.prefixRaw = some name → Word name ∧ Clean name
  command : Word fields.command ∧ Clean fields.command
  commandColon : fields.prefixRaw = none → fields.command.head? ≠ some colon
  commandAt : fields.tags = [] → fields.prefixRaw = none → fields.command.head? ≠ some atSign
  paramCount : fields.params.length ≤ maxPara
  params : ∀ param ∈ fields.params, Clean param

def TagView.text (tag : TagView) : Bytes :=
  match tag.valueRaw with
  | none => tag.key
  | some value => tag.key ++ equals :: value

def tagsText : List TagView → Bytes
  | [] => []
  | [tag] => tag.text
  | tag :: next :: tags => tag.text ++ semicolon :: tagsText (next :: tags)

def tagSection (tags : List TagView) (n : Nat) : Bytes :=
  if tags = [] then [] else atSign :: (tagsText tags ++ spaces (n + 1))

def prefixSection (prefixRaw : Option Bytes) (n : Nat) : Bytes :=
  match prefixRaw with
  | none => []
  | some name => colon :: (name ++ spaces (n + 1))

/-- What may follow the command: the parameters, the trailing one among them, and the text. -/
inductive ParamTail : List Bytes → Option Bytes → Bytes → Prop
  | stop (n : Nat) : ParamTail [] none (spaces n)
  | trailing (n : Nat) (param : Bytes) :
      ParamTail [param] (some param) (spaces (n + 1) ++ colon :: param)
  | middle (n : Nat) {param : Bytes} {params : List Bytes} {last : Option Bytes} {tail : Bytes}
      (hmiddle : Middle param) (h : ParamTail params last tail) :
      ParamTail (param :: params) last (spaces (n + 1) ++ (param ++ tail))

/-- The body of a line with the given fields; the last parameter may be sent as trailing. -/
def Renders (fields : LineFields) (trailing : Option Bytes) (body : Bytes) : Prop :=
  ∃ n m tail, ParamTail fields.params trailing tail ∧
    body =
      tagSection fields.tags n ++ (prefixSection fields.prefixRaw m ++ (fields.command ++ tail))

def LineView.fields (view : LineView) : LineFields :=
  ⟨view.tags, view.prefixRaw, view.command, view.params⟩

variable {rest : Bytes} {needle : UInt8}

theorem findByte_absent (front : Bytes) (h : needle ∉ rest) :
    findByte (front ++ rest) front.length needle = none := by
  have hnone : rest.findIdx? (· == needle) = none := by
    rw [List.findIdx?_eq_none_iff]
    intro x hx
    rw [beq_eq_false_iff_ne]
    exact fun heq => h (heq ▸ hx)
  rw [findByte, List.drop_left, hnone]
  rfl

theorem findByte_at (front : Bytes) {piece : Bytes} (tail : Bytes) (h : needle ∉ piece) :
    findByte (front ++ (piece ++ needle :: tail)) front.length needle =
      some (front.length + piece.length) := by
  have hfirst : piece.findIdx? (· == needle) = none := by
    have habsent := findByte_absent [] h
    rwa [findByte, List.nil_append, List.length_nil, List.drop_zero,
      Option.map_eq_none_iff] at habsent
  rw [findByte, List.drop_left, List.findIdx?_append, hfirst, List.findIdx?_cons, beq_self_eq_true]
  simp

theorem length_spaces (front : Bytes) (n : Nat) :
    (front ++ spaces n).length = front.length + n := by
  rw [List.length_append, spaces, List.length_replicate]

theorem piece_split (needle : UInt8) (rest : Bytes) :
    ∃ piece tail, rest = piece ++ tail ∧ needle ∉ piece ∧
    (tail = [] ∨ tail.head? = some needle) := by
  induction rest with
  | nil => exact ⟨[], [], rfl, List.not_mem_nil, .inl rfl⟩
  | cons c rest ih =>
    by_cases hc : c = needle
    · exact ⟨[], c :: rest, rfl, List.not_mem_nil, .inr (congrArg some hc)⟩
    obtain ⟨piece, tail, hsplit, hpiece, htail⟩ := ih
    refine ⟨c :: piece, tail, by rw [hsplit, List.cons_append], ?_, htail⟩
    rw [List.mem_cons, not_or]
    exact ⟨fun heq => hc heq.symm, hpiece⟩

/-- The end of a piece: the next such octet, or the end of the text. -/
theorem pieceEnd_at (front : Bytes) {piece tail : Bytes} (hpiece : needle ∉ piece)
    (htail : tail = [] ∨ tail.head? = some needle) :
    (findByte (front ++ (piece ++ tail)) front.length needle).getD
      (front ++ (piece ++ tail)).length =
      front.length + piece.length := by
  rcases htail with rfl | htail
  · rw [List.append_nil, findByte_absent front hpiece, Option.getD_none, List.length_append]
  · obtain ⟨rest, rfl⟩ := List.head?_eq_some_iff.mp htail
    rw [findByte_at front rest hpiece, Option.getD_some]

theorem slice_at (front piece tail : Bytes) :
    slice (front ++ (piece ++ tail)) front.length (front.length + piece.length) = piece :=
  slice_field rfl rfl rfl

theorem spaces_split (rest : Bytes) :
    ∃ n rest', rest = spaces n ++ rest' ∧ rest'.head? ≠ some space := by
  induction rest with
  | nil => exact ⟨0, [], rfl, fun h => nomatch h⟩
  | cons c rest ih =>
    by_cases hc : c = space
    · obtain ⟨n, rest', hsplit, hhead⟩ := ih
      refine ⟨n + 1, rest', ?_, hhead⟩
      rw [hsplit, hc]
      rfl
    · exact ⟨0, c :: rest, rfl, fun h => hc (Option.some.inj h)⟩

theorem skipSpaces_at (front : Bytes) (n : Nat) (hrest : rest.head? ≠ some space) :
    skipSpaces (front ++ (spaces n ++ rest)) front.length = front.length + n := by
  have hstop : rest.takeWhile (· == space) = [] := by
    cases rest with
    | nil => rfl
    | cons c rest =>
      rw [List.takeWhile_cons, if_neg]
      exact fun heq => hrest (congrArg some (eq_of_beq heq))
  have hspaces : (spaces n ++ rest).takeWhile (· == space) = spaces n := by
    rw [List.takeWhile_append_of_pos, hstop, List.append_nil]
    intro c hc
    rw [List.eq_of_mem_replicate hc]
    rfl
  rw [skipSpaces, List.drop_left, hspaces, spaces, List.length_replicate]

theorem spaces_pos {n : Nat}
    (htail : spaces n ++ rest = [] ∨ (spaces n ++ rest).head? = some space)
    (hrest : rest.head? ≠ some space) (hne : rest ≠ []) : 0 < n := by
  cases n with
  | zero => exact absurd (htail.resolve_left hne) hrest
  | succ n => exact Nat.succ_pos n

theorem getD_at (front : Bytes) (c : UInt8) (rest : Bytes) :
    (front ++ c :: rest).getD front.length 0 = c := by
  rw [List.getD_eq_getElem?_getD, List.getElem?_append_right (Nat.le_refl _), Nat.sub_self]
  rfl

theorem word_at (front : Bytes) {piece : Bytes} (n : Nat) (hpiece : space ∉ piece)
    (hrest : rest.head? ≠ some space) :
    findSpace (front ++ (piece ++ (spaces (n + 1) ++ rest))) front.length =
      some (front.length + piece.length) ∧
      skipSpaces (front ++ (piece ++ (spaces (n + 1) ++ rest))) (front.length + piece.length) =
        front.length + piece.length + (n + 1) := by
  constructor
  · exact findByte_at front (spaces n ++ rest) hpiece
  · rw [← List.append_assoc, ← List.length_append]
    exact skipSpaces_at (front ++ piece) (n + 1) hrest

theorem word_found {front rest : Bytes} {stop : Nat}
    (h : findSpace (front ++ rest) front.length = some stop) :
    ∃ piece n rest', rest = piece ++ (spaces (n + 1) ++ rest') ∧ space ∉ piece ∧
      rest'.head? ≠ some space ∧ stop = front.length + piece.length := by
  obtain ⟨piece, tail, rfl, hpiece, htail⟩ := piece_split space rest
  rcases htail with rfl | htail
  · rw [List.append_nil] at h
    have habsent : findSpace (front ++ piece) front.length = none := findByte_absent front hpiece
    rw [habsent] at h
    cases h
  · obtain ⟨later, rfl⟩ := List.head?_eq_some_iff.mp htail
    have hat : findSpace (front ++ (piece ++ space :: later)) front.length =
        some (front.length + piece.length) :=
      findByte_at front later hpiece
    obtain ⟨n, rest', rfl, hrest'⟩ := spaces_split later
    exact ⟨piece, n, rest', rfl, hpiece, hrest', Option.some.inj (h.symm.trans hat)⟩

end OnyxServer.IrcLine
