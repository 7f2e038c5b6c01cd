import OnyxServer.Lib.Scanner
import OnyxServer.Lib.Trace
import OnyxServer.S2s.Frame

/-!
# The stream decoder

The decoder appends what arrives to an accumulator and takes complete frames off its
front. Frames of an unknown type are skipped; a header that declares more than the frame
limit or the limit of its type is an error as soon as it is complete.
-/
namespace OnyxServer.S2s

open Lib List

inductive PartialError where
  | invalidPartialFrame
  | oversizeFrame
  deriving DecidableEq

def maxUsize : Nat := usizeLimit - 1

structure Decoder where
  maxFrameSize : Nat
  accumulator : Bytes
  payloadBuf : Bytes
  deriving DecidableEq

/-- The length that a complete header declares. -/
def declaredLen (bytes : Bytes) : Nat := leNat (slice bytes 1 (1 + lengthLen))

/-- One round of the loop in `next`: what the front of the accumulator is. -/
def inspect (maxFrameSize : Nat) (accumulator : Bytes) : Verdict Frame DecodeError :=
  if accumulator.length < headerLen then .wait
  else
    let frameType := FrameType.fromTag (accumulator.headD 0)
    let payloadLen := declaredLen accumulator
    let total := headerLen + payloadLen
    if maxUsize - headerLen < payloadLen then .stop .oversizeFrame
    else if maxFrameSize < total then .stop .oversizeFrame
    else if frameType.any (payloadExceedsTypeLimit · payloadLen) then .stop .oversizeFrame
    else if accumulator.length < total then .wait
    else .take total (frameType.map fun known => ⟨known, slice accumulator headerLen total⟩)

namespace Decoder

def init (maxFrameSize : Nat) : Decoder := ⟨maxFrameSize, [], []⟩

def validatePartial (bytes : Bytes) (maxFrameSize : Nat) : Except PartialError Unit :=
  if bytes.length = 0 then .ok ()
  else if maxFrameSize ≤ bytes.length then .error .oversizeFrame
  else if bytes.length < headerLen then .ok ()
  else
    let payloadLen := declaredLen bytes
    match checkedAdd headerLen payloadLen with
    | none => .error .oversizeFrame
    | some total =>
      if maxFrameSize < total then .error .oversizeFrame
      else if (FrameType.fromTag (bytes.headD 0)).any (payloadExceedsTypeLimit · payloadLen) then
        .error .oversizeFrame
      else if total ≤ bytes.length then .error .invalidPartialFrame
      else .ok ()

def feed (decoder : Decoder) (bytes : Bytes) (alloc : Bool) : Except DecodeError Unit × Decoder :=
  if alloc then (.ok (), { decoder with accumulator := decoder.accumulator ++ bytes })
  else (.error .outOfMemory, decoder)

def discardPrefix (decoder : Decoder) (count : Nat) : Decoder :=
  { decoder with accumulator := decoder.accumulator.drop count }

/-- The fuel is more than the octets left, and every round takes some. -/
def nextLoop : Nat → Decoder → Bool → Except DecodeError (Option Frame) × Decoder
  | 0, decoder, _ => (.ok none, decoder)
  | fuel + 1, decoder, alloc =>
    match inspect decoder.maxFrameSize decoder.accumulator with
    | .wait => (.ok none, decoder)
    | .stop e => (.error e, decoder)
    | .take total none => nextLoop fuel (decoder.discardPrefix total) alloc
    | .take total (some frame) =>
      if alloc then
        (.ok (some frame), { decoder.discardPrefix total with payloadBuf := frame.payload })
      else (.error .outOfMemory, decoder)

def next (decoder : Decoder) (alloc : Bool) : Except DecodeError (Option Frame) × Decoder :=
  nextLoop (decoder.accumulator.length + 1) decoder alloc

def finish (decoder : Decoder) : Except DecodeError Unit :=
  if decoder.accumulator.length ≠ 0 then .error .truncated else .ok ()

end Decoder

/-! ## The decoder as a scanner -/

variable {xs : Bytes}

theorem declaredLen_append (h : headerLen ≤ xs.length) (ys : Bytes) :
    declaredLen (xs ++ ys) = declaredLen xs := by
  simp only [headerLen] at h
  simp only [declaredLen, slice, lengthLen]
  rw [drop_append_of_le_length (by omega), take_append_of_le_length]
  rw [length_drop]
  omega

theorem slice_append {start stop : Nat} (h : stop ≤ xs.length) (ys : Bytes) :
    slice (xs ++ ys) start stop = slice xs start stop := by
  simp only [slice]
  by_cases hstart : start ≤ stop
  · rw [drop_append_of_le_length (by omega), take_append_of_le_length]
    rw [length_drop]
    omega
  · rw [Nat.sub_eq_zero_of_le (by omega), take_zero, take_zero]

theorem headD_append (h : headerLen ≤ xs.length) (ys : Bytes) :
    (xs ++ ys).headD 0 = xs.headD 0 := by
  cases xs with
  | nil => simp [headerLen] at h
  | cons x xs => rfl

theorem declaredLen_lt (h : headerLen ≤ xs.length) : declaredLen xs < 2 ^ 32 := by
  have hlt := leNat_lt (slice xs 1 (1 + lengthLen))
  have hlen : (slice xs 1 (1 + lengthLen)).length = 4 := by
    simp only [headerLen] at h
    simp only [slice, lengthLen, length_take, length_drop]
    omega
  rw [hlen] at hlt
  exact hlt

/-- A header that the decoder accepts under the frame limit. -/
def HeaderFits (maxFrameSize : Nat) (bytes : Bytes) : Prop :=
  headerLen + declaredLen bytes ≤ maxFrameSize ∧
    (FrameType.fromTag (bytes.headD 0)).any (payloadExceedsTypeLimit · (declaredLen bytes)) = false

instance (maxFrameSize : Nat) (bytes : Bytes) : Decidable (HeaderFits maxFrameSize bytes) :=
  inferInstanceAs (Decidable (_ ∧ _))

theorem inspect_eq (maxFrameSize : Nat) (xs : Bytes) :
    inspect maxFrameSize xs =
      if xs.length < headerLen then .wait
      else if ¬ HeaderFits maxFrameSize xs then .stop .oversizeFrame
      else if xs.length < headerLen + declaredLen xs then .wait
      else .take (headerLen + declaredLen xs) ((FrameType.fromTag (xs.headD 0)).map fun known =>
        ⟨known, slice xs headerLen (headerLen + declaredLen xs)⟩) := by
  unfold inspect HeaderFits
  by_cases hshort : xs.length < headerLen
  · rw [if_pos hshort, if_pos hshort]
  have hword : declaredLen xs < 2 ^ 32 := declaredLen_lt (by omega)
  have husize : ¬ maxUsize - headerLen < declaredLen xs := by
    simp only [maxUsize, usizeLimit, headerLen]
    omega
  rw [if_neg hshort, if_neg hshort]
  simp only [husize, ↓reduceIte]
  by_cases hmax : maxFrameSize < headerLen + declaredLen xs
  · rw [if_pos hmax, if_pos (by omega)]
  rw [if_neg hmax]
  by_cases hlimit : (FrameType.fromTag (xs.headD 0)).any
    (payloadExceedsTypeLimit · (declaredLen xs)) = true
  · rw [if_pos hlimit, if_pos (fun hfits => by rw [hfits.2] at hlimit; cases hlimit)]
  · rw [if_neg hlimit, if_neg (not_not.mpr ⟨Nat.not_lt.mp hmax, by simpa using hlimit⟩)]

theorem headerFits_append {maxFrameSize : Nat} (h : headerLen ≤ xs.length)
    (ys : Bytes) : HeaderFits maxFrameSize (xs ++ ys) ↔ HeaderFits maxFrameSize xs := by
  rw [HeaderFits, declaredLen_append h, headD_append h, HeaderFits]

/-- More input does not change a verdict. -/
theorem inspect_stable (maxFrameSize : Nat) (xs ys : Bytes) (h : inspect maxFrameSize xs ≠ .wait) :
    inspect maxFrameSize (xs ++ ys) = inspect maxFrameSize xs := by
  rw [inspect_eq] at h
  rw [inspect_eq, inspect_eq]
  have hlong : headerLen ≤ xs.length := by
    by_contra hshort
    rw [if_pos (by omega)] at h
    exact h rfl
  have hmore : headerLen ≤ (xs ++ ys).length := by
    rw [length_append]
    omega
  rw [if_neg (by omega)] at h
  rw [if_neg (Nat.not_lt.mpr hmore), if_neg (Nat.not_lt.mpr hlong), declaredLen_append hlong,
    headD_append hlong]
  simp only [headerFits_append hlong]
  by_cases hfits : HeaderFits maxFrameSize xs
  · rw [if_neg (not_not.mpr hfits)] at h
    have hall : headerLen + declaredLen xs ≤ xs.length := by
      by_contra hbody
      rw [if_pos (by omega)] at h
      exact h rfl
    rw [if_neg (not_not.mpr hfits), if_neg (not_not.mpr hfits),
      if_neg (by rw [length_append]; omega), if_neg (by omega), slice_append hall]
  · rw [if_pos hfits, if_pos hfits]

theorem inspect_take {maxFrameSize n : Nat} {out : Option Frame}
    (h : inspect maxFrameSize xs = .take n out) : 0 < n ∧ n ≤ xs.length := by
  rw [inspect_eq] at h
  split_ifs at h
  · cases h
    exact ⟨by simp only [headerLen]; omega, by omega⟩

def scanner (maxFrameSize : Nat) : Scanner UInt8 Frame DecodeError where
  scan := inspect maxFrameSize
  stable := inspect_stable maxFrameSize
  count_pos _ _ _ h := (inspect_take h).1
  count_le _ _ _ h := (inspect_take h).2

/-- A buffer passes the checkpoint validator exactly when the decoder waits on it. -/
theorem validatePartial_iff {maxFrameSize : Nat} (hmax : headerLen ≤ maxFrameSize) (bytes : Bytes) :
    Decoder.validatePartial bytes maxFrameSize = .ok () ↔ inspect maxFrameSize bytes = .wait := by
  rw [inspect_eq, Decoder.validatePartial]
  by_cases hshort : bytes.length < headerLen
  · have hroom : ¬ maxFrameSize ≤ bytes.length := by omega
    simp only [hshort, hroom, ↓reduceIte, ite_self]
  have hword : declaredLen bytes < 2 ^ 32 := declaredLen_lt (by omega)
  have hadd : checkedAdd headerLen (declaredLen bytes) = some (headerLen + declaredLen bytes) :=
    checkedAdd_some (by simp only [headerLen, usizeLimit]; omega)
  have hpos : bytes.length ≠ 0 := by
    simp only [headerLen] at hshort
    omega
  simp only [hshort, hpos, hadd, ↓reduceIte]
  by_cases hfits : HeaderFits maxFrameSize bytes
  · obtain ⟨htotal, hlimit⟩ := hfits
    rw [if_neg (not_not.mpr ⟨htotal, hlimit⟩)]
    simp only [hlimit, Bool.false_eq_true, ↓reduceIte, Nat.not_lt.mpr htotal]
    by_cases hbody : bytes.length < headerLen + declaredLen bytes
    · have hroom : ¬ maxFrameSize ≤ bytes.length := by omega
      have hmissing : ¬ headerLen + declaredLen bytes ≤ bytes.length := by omega
      simp only [hbody, hroom, hmissing, ↓reduceIte]
    · have hall : headerLen + declaredLen bytes ≤ bytes.length := by omega
      simp only [hbody, hall, ↓reduceIte]
      split <;> simp
  · rw [if_pos hfits]
    by_cases htotal : maxFrameSize < headerLen + declaredLen bytes
    · rw [if_pos htotal]
      split <;> simp
    cases hlimit : (FrameType.fromTag (bytes.headD 0)).any
      (payloadExceedsTypeLimit · (declaredLen bytes)) with
    | false => exact absurd ⟨Nat.not_lt.mp htotal, hlimit⟩ hfits
    | true =>
      simp only [↓reduceIte, htotal]
      split <;> simp

end OnyxServer.S2s
