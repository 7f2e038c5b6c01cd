import OnyxServer.Lib.Sorted
import OnyxServer.Text.Utf8

/-!
# CoilPack values

The canonical document format of `coilpack_value.zig`. The decoder refuses every
non-canonical form: overlong varints, unsorted or repeated map keys, invalid UTF-8,
truncation, trailing octets, and trees that are too deep or too large.
-/
namespace OnyxServer.Coilpack

open Lib Text

mutual

inductive Value where
  | nil
  | boolean (value : Bool)
  | unsigned (value : UInt64)
  | signed (value : Int64)
  | bytes (value : Bytes)
  | string (value : Bytes)
  | array (items : List Value)
  | map (entries : List MapEntry)

inductive MapEntry where
  | mk (key : Bytes) (value : Value)

end

def MapEntry.key : MapEntry → Bytes
  | .mk key _ => key

def MapEntry.value : MapEntry → Value
  | .mk _ value => value

inductive FormatError where
  | truncated
  | trailingBytes
  | unknownTag
  | nonCanonicalVarint
  | varintOverflow
  | invalidUtf8
  | mapKeysOutOfOrder
  | duplicateMapKey
  | nestingTooDeep
  | tooManyValues
  deriving DecidableEq

def maxDecodeDepth : Nat := 128
def maxDecodeValues : Nat := 1000000

def varintLenLoop : Nat → UInt64 → Nat
  | 0, _ => 1
  | fuel + 1, remaining =>
    if 0x80 ≤ remaining then varintLenLoop fuel (remaining >>> 7) + 1 else 1

/-- A word of 64 bits has at most ten groups of seven. -/
def varintLen (value : UInt64) : Nat := varintLenLoop 9 value

def appendVarintLoop : Nat → UInt64 → Bytes
  | 0, remaining => [remaining.toUInt8]
  | fuel + 1, remaining =>
    if 0x80 ≤ remaining then
      ((remaining &&& 0x7f).toUInt8 ||| 0x80) :: appendVarintLoop fuel (remaining >>> 7)
    else [remaining.toUInt8]

def appendVarint (value : UInt64) : Bytes := appendVarintLoop 9 value

def readVarintLoop : Nat → Nat → UInt64 → Bytes → Except FormatError (UInt64 × Bytes)
  | 0, _, _, _ => .error .varintOverflow
  | fuel + 1, i, result, input =>
    match input with
    | [] => .error .truncated
    | byte :: rest =>
      let payload := (byte &&& 0x7f).toUInt64
      if i = 9 ∧ 1 < payload then .error .varintOverflow
      else
        let result := result ||| (payload <<< UInt64.ofNat (i * 7))
        if byte &&& 0x80 = 0 then
          if varintLen result ≠ i + 1 then .error .nonCanonicalVarint else .ok (result, rest)
        else readVarintLoop fuel (i + 1) result rest

def readVarint (input : Bytes) : Except FormatError (UInt64 × Bytes) := readVarintLoop 10 0 0 input

def zigZagEncode (value : Int64) : UInt64 := (value.toUInt64 <<< 1) ^^^ (value >>> 63).toUInt64

def zigZagDecode (value : UInt64) : Int64 := ((value >>> 1) ^^^ (0 - (value &&& 1))).toInt64

structure Decoder where
  input : Bytes
  valuesSeen : Nat

def readBytesView (input : Bytes) : Except FormatError (Bytes × Bytes) :=
  match readVarint input with
  | .error e => .error e
  | .ok (len, rest) =>
    if rest.length < len.toNat then .error .truncated
    else .ok (rest.take len.toNat, rest.drop len.toNat)

def readItems (readOne : Decoder → Except FormatError (Value × Decoder)) :
    Nat → Decoder → Except FormatError (List Value × Decoder)
  | 0, decoder => .ok ([], decoder)
  | count + 1, decoder =>
    match readOne decoder with
    | .error e => .error e
    | .ok (item, decoder) =>
      match readItems readOne count decoder with
      | .error e => .error e
      | .ok (items, decoder) => .ok (item :: items, decoder)

def readEntries (readOne : Decoder → Except FormatError (Value × Decoder)) :
    Nat → Option Bytes → Decoder → Except FormatError (List MapEntry × Decoder)
  | 0, _, decoder => .ok ([], decoder)
  | count + 1, previous, decoder =>
    match readBytesView decoder.input with
    | .error e => .error e
    | .ok (key, rest) =>
      if previous = some key then .error .duplicateMapKey
      else if previous.any (fun prev => !decide (prev < key)) then .error .mapKeysOutOfOrder
      else
        match readOne { decoder with input := rest } with
        | .error e => .error e
        | .ok (value, decoder) =>
          match readEntries readOne count (some key) decoder with
          | .error e => .error e
          | .ok (entries, decoder) => .ok (.mk key value :: entries, decoder)

/-- `levels` is how many more levels of nesting may be entered. -/
def readValue : Nat → Decoder → Except FormatError (Value × Decoder)
  | 0, _ => .error .nestingTooDeep
  | levels + 1, decoder =>
    if decoder.valuesSeen = maxDecodeValues then .error .tooManyValues
    else
      let valuesSeen := decoder.valuesSeen + 1
      match decoder.input with
      | [] => .error .truncated
      | tag :: rest =>
        if tag = 0x00 then .ok (.nil, ⟨rest, valuesSeen⟩)
        else if tag = 0x01 then .ok (.boolean false, ⟨rest, valuesSeen⟩)
        else if tag = 0x02 then .ok (.boolean true, ⟨rest, valuesSeen⟩)
        else if tag = 0x03 then
          match readVarint rest with
          | .error e => .error e
          | .ok (n, rest) => .ok (.unsigned n, ⟨rest, valuesSeen⟩)
        else if tag = 0x04 then
          match readVarint rest with
          | .error e => .error e
          | .ok (n, rest) => .ok (.signed (zigZagDecode n), ⟨rest, valuesSeen⟩)
        else if tag = 0x05 then
          match readBytesView rest with
          | .error e => .error e
          | .ok (bytes, rest) => .ok (.bytes bytes, ⟨rest, valuesSeen⟩)
        else if tag = 0x06 then
          match readBytesView rest with
          | .error e => .error e
          | .ok (string, rest) =>
            if !validateUtf8 string then .error .invalidUtf8
            else .ok (.string string, ⟨rest, valuesSeen⟩)
        else if tag = 0x07 then
          match readVarint rest with
          | .error e => .error e
          | .ok (count, rest) =>
            match readItems (readValue levels) count.toNat ⟨rest, valuesSeen⟩ with
            | .error e => .error e
            | .ok (items, decoder) => .ok (.array items, decoder)
        else if tag = 0x08 then
          match readVarint rest with
          | .error e => .error e
          | .ok (count, rest) =>
            match readEntries (readValue levels) count.toNat none ⟨rest, valuesSeen⟩ with
            | .error e => .error e
            | .ok (entries, decoder) => .ok (.map entries, decoder)
        else .error .unknownTag

def decode (input : Bytes) : Except FormatError Value :=
  match readValue (maxDecodeDepth + 1) ⟨input, 0⟩ with
  | .error e => .error e
  | .ok (value, decoder) => if decoder.input ≠ [] then .error .trailingBytes else .ok value

def appendLenAndBytes (bytes : Bytes) : Bytes :=
  appendVarint (UInt64.ofNat bytes.length) ++ bytes

/-- The keyed encodings in ascending key order; a repeated key is refused where it
is met, before its value. -/
def appendSortedMap : Option Bytes → List (Bytes × Except FormatError Bytes) →
    Except FormatError Bytes
  | _, [] => .ok []
  | previous, (key, value) :: rest =>
    if previous = some key then .error .duplicateMapKey
    else
      match value with
      | .error e => .error e
      | .ok value =>
        match appendSortedMap (some key) rest with
        | .error e => .error e
        | .ok tail => .ok (appendLenAndBytes key ++ value ++ tail)

mutual

def encodeValue : Value → Except FormatError Bytes
  | .nil => .ok [0x00]
  | .boolean value => .ok [if value then 0x02 else 0x01]
  | .unsigned value => .ok (0x03 :: appendVarint value)
  | .signed value => .ok (0x04 :: appendVarint (zigZagEncode value))
  | .bytes value => .ok (0x05 :: appendLenAndBytes value)
  | .string value =>
    if !validateUtf8 value then .error .invalidUtf8 else .ok (0x06 :: appendLenAndBytes value)
  | .array items =>
    match encodeItems items with
    | .error e => .error e
    | .ok body => .ok (0x07 :: appendVarint (UInt64.ofNat items.length) ++ body)
  | .map entries =>
    match appendSortedMap none (sortByKey Prod.fst (encodeEntries entries)) with
    | .error e => .error e
    | .ok body => .ok (0x08 :: appendVarint (UInt64.ofNat entries.length) ++ body)

def encodeItems : List Value → Except FormatError Bytes
  | [] => .ok []
  | item :: items =>
    match encodeValue item with
    | .error e => .error e
    | .ok head =>
      match encodeItems items with
      | .error e => .error e
      | .ok tail => .ok (head ++ tail)

def encodeEntry : MapEntry → Bytes × Except FormatError Bytes
  | .mk key value => (key, encodeValue value)

def encodeEntries : List MapEntry → List (Bytes × Except FormatError Bytes)
  | [] => []
  | entry :: entries => encodeEntry entry :: encodeEntries entries

end

mutual

/-- Deep equality; the order of the entries of a map does not matter. -/
def eql : Value → Value → Bool
  | .nil, .nil => true
  | .boolean x, .boolean y => x == y
  | .unsigned x, .unsigned y => x == y
  | .signed x, .signed y => x == y
  | .bytes x, .bytes y => x == y
  | .string x, .string y => x == y
  | .array xs, .array ys => xs.length == ys.length && eqlItems xs ys
  | .map xs, .map ys => xs.length == ys.length && eqlLargeMaps xs ys
  | _, _ => false

def eqlItems : List Value → List Value → Bool
  | x :: xs, y :: ys => eql x y && eqlItems xs ys
  | _, _ => true

def eqlLargeMaps : List MapEntry → List MapEntry → Bool
  | [], _ => true
  | .mk key value :: rest, ys =>
    (ys.countP fun y => key == y.key && eql value y.value) == 1 && eqlLargeMaps rest ys

end

end OnyxServer.Coilpack
