import Mathlib.Data.Prod.Lex
import OnyxServer.Coilpack.Canonical
import OnyxServer.Lib.Format

/-!
# The atoms of the delta codec

Readers take from the front of what is left and refuse anything but the one way to write
each value; writers fail when their buffer is full.

Its varint is the canonical one of coilpack, with one more error: a tenth octet that
asks for an eleventh is too long, where one with a payload over one overflows.
-/
namespace OnyxServer.Delta

open Lib
open Coilpack (appendVarint readVarint)

inductive CodecError where
  | truncated
  | varintTooLong
  | varintOverflow
  | nonCanonicalVarint
  | bufferTooSmall
  | invalidDot
  | invalidDelta
  | nonCanonicalOrder
  | duplicateDot
  | dotOutsideCausalContext
  | causalContextMismatch
  | oversize
  | valueTooLarge
  | invalidMagic
  | unsupportedVersion
  | unknownEntityFamily
  | trailingBytes
  | badMagic
  | invalidMember
  | value (name : String)
  deriving DecidableEq

abbrev Reader (α : Type) := Cursor CodecError α
abbrev Out := Lib.Writer CodecError Unit

/-- A unique event produced by one replica. -/
structure Dot where
  replica : UInt64
  counter : UInt64
  deriving DecidableEq

def Dot.rank (dot : Dot) : UInt64 ×ₗ UInt64 := toLex (dot.replica, dot.counter)

theorem Dot.rank_injective : Function.Injective Dot.rank := by
  rintro ⟨r, c⟩ ⟨r', c'⟩ h
  have heq : (r, c) = (r', c') := h
  cases heq
  rfl

instance : LinearOrder Dot := LinearOrder.lift' Dot.rank Dot.rank_injective

theorem Dot.lt_iff {a b : Dot} :
    a < b ↔ a.replica < b.replica ∨ a.replica = b.replica ∧ a.counter < b.counter :=
  Prod.Lex.lt_iff

instance instNeZeroWallMs : NeZero (2 ^ 48) := inferInstance

structure Hlc where
  wallMs : Fin (2 ^ 48)
  logical : UInt16
  deriving DecidableEq

def Hlc.zero : Hlc := ⟨0, 0⟩

def Hlc.toU64 (hlc : Hlc) : UInt64 := UInt64.ofNat (hlc.wallMs.val * 2 ^ 16 + hlc.logical.toNat)

def hlcFromKey (key : UInt64) : Hlc :=
  ⟨⟨key.toNat / 2 ^ 16, by
    have h := key.toNat_lt
    omega⟩, UInt16.ofNat (key.toNat % 2 ^ 16)⟩

theorem hlcFromKey_toU64 (hlc : Hlc) : hlcFromKey hlc.toU64 = hlc := by
  obtain ⟨⟨wall, hwall⟩, logical⟩ := hlc
  have hlogical := logical.toNat_lt
  have hkey : (Hlc.toU64 ⟨⟨wall, hwall⟩, logical⟩).toNat = wall * 2 ^ 16 + logical.toNat := by
    show (UInt64.ofNat (wall * 2 ^ 16 + logical.toNat)).toNat = _
    rw [UInt64.toNat_ofNat']
    omega
  unfold hlcFromKey
  simp only [hkey, Hlc.mk.injEq, Fin.mk.injEq]
  refine ⟨by omega, ?_⟩
  rw [show (wall * 2 ^ 16 + logical.toNat) % 2 ^ 16 = logical.toNat by omega, UInt16.ofNat_toNat]

theorem toU64_hlcFromKey (key : UInt64) : (hlcFromKey key).toU64 = key := by
  have h := key.toNat_lt
  have hlow : (UInt16.ofNat (key.toNat % 2 ^ 16)).toNat = key.toNat % 2 ^ 16 := by
    rw [UInt16.toNat_ofNat']
    omega
  unfold hlcFromKey Hlc.toU64
  rw [hlow, show key.toNat / 2 ^ 16 * 2 ^ 16 + key.toNat % 2 ^ 16 =
    key.toNat by omega, UInt64.ofNat_toNat]

def readU8 : Reader UInt8 := (fun bytes => bytes.headD 0) <$> takeBytes .truncated 1
def readU64Le : Reader UInt64 :=
  (fun bytes => UInt64.ofNat (leNat bytes)) <$> takeBytes .truncated 8

/-- What coilpack's overflow is here, by the tenth octet. -/
def varintError (input : Bytes) : Coilpack.FormatError → CodecError
  | .truncated => .truncated
  | .nonCanonicalVarint => .nonCanonicalVarint
  | _ => if 1 < input.getD 9 0 &&& 0x7f then .varintOverflow else .varintTooLong

def readVarint : Reader UInt64 := fun input =>
  match Coilpack.readVarint input with
  | .error e => .error (varintError input e)
  | .ok answer => .ok answer

def readBytes : Reader Bytes := do
  let len ← readVarint
  takeBytes .truncated len.toNat

def readBoundedBytes (maxLen : UInt64) : Reader Bytes := do
  let bytes ← readBytes
  require (bytes.length ≤ maxLen.toNat) .oversize
  pure bytes

def readBoundedCount (maxCount : UInt64) : Reader Nat := do
  let count ← readVarint
  require (count ≤ maxCount) .oversize
  pure count.toNat

def validateDot (dot : Dot) : Except CodecError Unit :=
  if dot.counter = 0 then .error .invalidDot else .ok ()

def readDot : Reader Dot := do
  let replica ← readVarint
  let counter ← readVarint
  check (validateDot ⟨replica, counter⟩)
  pure ⟨replica, counter⟩

variable (capacity : Nat)

def emit (bytes : Bytes) : Out := put .bufferTooSmall capacity bytes

def bytesField (bytes : Bytes) : Bytes := appendVarint (UInt64.ofNat bytes.length) ++ bytes
def countField (count : Nat) : Bytes := appendVarint (UInt64.ofNat count)
def dotField (dot : Dot) : Bytes := appendVarint dot.replica ++ appendVarint dot.counter

def writeDot (dot : Dot) : Out := do
  liftM (validateDot dot)
  emit capacity (appendVarint dot.replica)
  emit capacity (appendVarint dot.counter)

/-! ## What the readers accept -/

theorem exact_readU8 : Exact readU8 (fun _ => True) fun b => [b] := by
  intro xs b rest
  change (takeBytes CodecError.truncated 1 >>= fun bytes => pure (bytes.headD 0)) xs =
    .ok (b, rest) ↔ _
  rw [(exact_takeBytes _ _).bind_iff]
  constructor
  · rintro ⟨field, mid, ⟨hlen, rfl⟩, hpure⟩
    obtain ⟨rfl, rfl⟩ := cursor_pure_iff.mp hpure
    obtain ⟨a, rfl⟩ := List.length_eq_one_iff.mp hlen
    exact ⟨trivial, rfl⟩
  · rintro ⟨-, rfl⟩
    exact ⟨[b], rest, ⟨rfl, rfl⟩, rfl⟩

theorem exact_readU64Le : Exact readU64Le (fun _ => True) fun value => leBytes 8 value.toNat := by
  intro xs value rest
  change (takeBytes CodecError.truncated 8 >>= fun bytes => pure (UInt64.ofNat (leNat bytes))) xs =
    .ok (value, rest) ↔ _
  rw [(exact_takeBytes _ _).bind_iff]
  constructor
  · rintro ⟨field, mid, ⟨hlen, rfl⟩, hpure⟩
    obtain ⟨rfl, rfl⟩ := cursor_pure_iff.mp hpure
    have hlt := leNat_lt field
    rw [hlen] at hlt
    refine ⟨trivial, ?_⟩
    show field ++ rest = leBytes 8 (UInt64.ofNat (leNat field)).toNat ++ rest
    rw [UInt64.toNat_ofNat', Nat.mod_eq_of_lt (by omega), ← hlen, leBytes_leNat]
  · rintro ⟨-, rfl⟩
    refine ⟨leBytes 8 value.toNat, rest, ⟨leBytes_length _ _, rfl⟩, cursor_pure_iff.mpr ⟨?_, rfl⟩⟩
    rw [leNat_leBytes_u64, UInt64.ofNat_toNat]

theorem exact_readVarint : Exact readVarint (fun _ => True) appendVarint := by
  intro xs value rest
  unfold readVarint
  constructor
  · intro h
    split at h
    · cases h
    · rename_i answer hread
      cases h
      exact ⟨trivial, Coilpack.readVarint_ok hread⟩
  · rintro ⟨-, rfl⟩
    rw [Coilpack.readVarint_append]

theorem exact_readBytes : Exact readBytes (fun bytes => bytes.length < 2 ^ 64) bytesField := by
  intro xs bytes rest
  unfold readBytes bytesField
  rw [exact_readVarint.bind_iff]
  constructor
  · rintro ⟨len, mid, ⟨-, rfl⟩, htake⟩
    obtain ⟨hlen, rfl⟩ := (exact_takeBytes _ _ _ _ _).mp htake
    rw [hlen, UInt64.ofNat_toNat, List.append_assoc]
    refine ⟨?_, rfl⟩
    show bytes.length < 2 ^ 64
    rw [hlen]
    exact len.toNat_lt
  · rintro ⟨hlen, rfl⟩
    refine ⟨UInt64.ofNat bytes.length, bytes ++ rest, ⟨trivial, List.append_assoc _ _ _⟩, ?_⟩
    refine (exact_takeBytes _ _ _ _ _).mpr ⟨?_, rfl⟩
    rw [UInt64.toNat_ofNat', Nat.mod_eq_of_lt hlen]

theorem exact_readBoundedBytes (maxLen : UInt64) :
    Exact (readBoundedBytes maxLen) (fun bytes => bytes.length ≤ maxLen.toNat) bytesField := by
  intro xs bytes rest
  have hmax := maxLen.toNat_lt
  unfold readBoundedBytes
  rw [exact_readBytes.bind_iff]
  constructor
  · rintro ⟨field, mid, ⟨-, rfl⟩, hrest⟩
    obtain ⟨hle, hpure⟩ := require_bind_iff.mp hrest
    obtain ⟨rfl, rfl⟩ := cursor_pure_iff.mp hpure
    exact ⟨hle, rfl⟩
  · rintro ⟨hle, rfl⟩
    exact ⟨bytes, rest, ⟨by omega, rfl⟩, require_bind_iff.mpr ⟨hle, rfl⟩⟩

theorem exact_readBoundedCount (maxCount : UInt64) :
    Exact (readBoundedCount maxCount) (fun count => count ≤ maxCount.toNat) countField := by
  intro xs count rest
  have hmax := maxCount.toNat_lt
  unfold readBoundedCount countField
  rw [exact_readVarint.bind_iff]
  constructor
  · rintro ⟨value, mid, ⟨-, rfl⟩, hrest⟩
    obtain ⟨hle, hpure⟩ := require_bind_iff.mp hrest
    obtain ⟨rfl, rfl⟩ := cursor_pure_iff.mp hpure
    exact ⟨UInt64.le_iff_toNat_le.mp hle, by rw [UInt64.ofNat_toNat]⟩
  · rintro ⟨hle, rfl⟩
    have hcount : (UInt64.ofNat count).toNat = count := by
      rw [UInt64.toNat_ofNat', Nat.mod_eq_of_lt (by omega)]
    refine ⟨UInt64.ofNat count, rest, ⟨trivial, rfl⟩, require_bind_iff.mpr ⟨?_, ?_⟩⟩
    · rw [UInt64.le_iff_toNat_le, hcount]
      exact hle
    · exact cursor_pure_iff.mpr ⟨hcount.symm, rfl⟩

theorem validateDot_ok {dot : Dot} : validateDot dot = .ok () ↔ dot.counter ≠ 0 := by
  unfold validateDot
  split <;> simp_all

theorem exact_readDot : Exact readDot (fun dot => dot.counter ≠ 0) dotField := by
  intro xs dot rest
  unfold readDot dotField
  rw [exact_readVarint.bind_iff]
  constructor
  · rintro ⟨replica, mid, ⟨-, rfl⟩, hsecond⟩
    obtain ⟨counter, tail, ⟨-, rfl⟩, hlast⟩ := exact_readVarint.bind_iff.mp hsecond
    obtain ⟨hvalid, hpure⟩ := check_bind_iff.mp hlast
    obtain ⟨rfl, rfl⟩ := cursor_pure_iff.mp hpure
    exact ⟨validateDot_ok.mp hvalid, by rw [List.append_assoc]⟩
  · rintro ⟨hvalid, rfl⟩
    refine ⟨dot.replica, appendVarint dot.counter ++ rest, ⟨trivial, by rw [List.append_assoc]⟩, ?_⟩
    refine exact_readVarint.bind_iff.mpr ⟨dot.counter, rest, ⟨trivial, rfl⟩, ?_⟩
    exact check_bind_iff.mpr ⟨validateDot_ok.mpr hvalid, rfl⟩

theorem emits_writeDot {dot : Dot} (h : dot.counter ≠ 0) :
    Emits .bufferTooSmall capacity (writeDot capacity dot) (dotField dot) := by
  have hvalid := validateDot_ok.mpr h
  have hboth := (emits_put CodecError.bufferTooSmall capacity (appendVarint dot.replica)).bind
    (emits_put _ _ (appendVarint dot.counter))
  intro written hroom
  unfold writeDot
  rw [hvalid]
  exact hboth written hroom

end OnyxServer.Delta
