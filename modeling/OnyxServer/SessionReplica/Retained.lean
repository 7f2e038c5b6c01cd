import Mathlib.Order.Compare
import OnyxServer.Lib.Smallest
import OnyxServer.SessionReplica.Store

/-!
# Retained objects

What the store offers to peers that lack it: every signed object that has not expired, from
five tables, in the order of a cursor that names values only. A page is built by insertion
into a bounded buffer, so the order in which the tables are met does not matter.
-/
namespace OnyxServer.SessionReplica

open Lib List

inductive RetainedKind where
  | offer
  | revoke
  | attachmentLease
  | groupRevoke
  deriving DecidableEq

def retainedKindRank : RetainedKind → UInt8
  | .offer => 0
  | .revoke => 1
  | .attachmentLease => 2
  | .groupRevoke => 3

theorem retainedKindRank_injective : Function.Injective retainedKindRank := by
  intro a b h
  cases a <;> cases b <;> first | rfl | exact absurd h (by decide)

structure RetainedCursor where
  token : Token
  kind : RetainedKind
  originNode : NodeId
  revision : Revision
  digest : Digest
  deriving DecidableEq

namespace RetainedCursor

def compare (a b : RetainedCursor) : Ordering :=
  let tokenOrder := cmp a.token b.token
  if tokenOrder ≠ .eq then tokenOrder
  else
    let kindOrder := cmp (retainedKindRank a.kind) (retainedKindRank b.kind)
    if kindOrder ≠ .eq then kindOrder
    else
      let originOrder := cmp a.originNode b.originNode
      if originOrder ≠ .eq then originOrder
      else
        let revisionOrder := a.revision.compare b.revision
        if revisionOrder ≠ .eq then revisionOrder
        else cmp a.digest b.digest

def rank (c : RetainedCursor) : Token ×ₗ UInt8 ×ₗ NodeId ×ₗ Revision ×ₗ Digest :=
  toLex
    (c.token, toLex (retainedKindRank c.kind, toLex (c.originNode, toLex (c.revision, c.digest))))

theorem rank_injective : Function.Injective rank := by
  intro a b h
  obtain ⟨htoken, h⟩ := Prod.mk.inj (toLex.injective h)
  obtain ⟨hkind, h⟩ := Prod.mk.inj (toLex.injective h)
  obtain ⟨horigin, h⟩ := Prod.mk.inj (toLex.injective h)
  obtain ⟨hrevision, hdigest⟩ := Prod.mk.inj (toLex.injective h)
  have hkind' := retainedKindRank_injective hkind
  cases a
  cases b
  simp only at htoken hkind' horigin hrevision hdigest
  rw [htoken, hkind', horigin, hrevision, hdigest]

instance : LinearOrder RetainedCursor := LinearOrder.lift' rank rank_injective

theorem cmp_toLex {α β : Type} [LinearOrder α] [LinearOrder β] (a a' : α) (b b' : β) :
    cmp (toLex (a, b)) (toLex (a', b')) = if cmp a a' ≠ .eq then cmp a a' else cmp b b' := by
  rcases lt_trichotomy a a' with h | rfl | h
  · rw [cmp_eq_lt_iff _ _ |>.mpr h, if_pos nofun]
    exact (cmp_eq_lt_iff _ _).mpr (Prod.Lex.toLex_lt_toLex.mpr (.inl h))
  · rw [cmp_self_eq_eq, if_neg (not_not.mpr rfl)]
    rcases lt_trichotomy b b' with h | rfl | h
    · rw [(cmp_eq_lt_iff _ _).mpr h]
      exact (cmp_eq_lt_iff _ _).mpr (Prod.Lex.toLex_lt_toLex.mpr (.inr ⟨rfl, h⟩))
    · rw [cmp_self_eq_eq, cmp_self_eq_eq]
    · rw [(cmp_eq_gt_iff _ _).mpr h]
      exact (cmp_eq_gt_iff _ _).mpr (Prod.Lex.toLex_lt_toLex.mpr (.inr ⟨rfl, h⟩))
  · rw [cmp_eq_gt_iff _ _ |>.mpr h, if_pos nofun]
    exact (cmp_eq_gt_iff _ _).mpr (Prod.Lex.toLex_lt_toLex.mpr (.inl h))

/-- The comparison is the one of the linear order. -/
theorem compare_eq_cmp (a b : RetainedCursor) : a.compare b = cmp a b := by
  have hrank : cmp a b = cmp a.rank b.rank := rfl
  rw [hrank, rank, rank, cmp_toLex, cmp_toLex, cmp_toLex, cmp_toLex, ← Revision.compare_eq_cmp]
  unfold compare
  congr!

variable {a b : RetainedCursor}

theorem compare_lt : a.compare b = .lt ↔ a < b := by rw [compare_eq_cmp, cmp_eq_lt_iff]
theorem compare_eq : a.compare b = .eq ↔ a = b := by rw [compare_eq_cmp, cmp_eq_eq_iff]
theorem compare_gt : a.compare b = .gt ↔ b < a := by rw [compare_eq_cmp, cmp_eq_gt_iff]

end RetainedCursor

structure RetainedObject where
  kind : RetainedKind
  token : Token
  originNode : NodeId
  revision : Revision
  expiresAtMs : Int64
  wire : Bytes
  digest : Digest
  deriving DecidableEq

def RetainedObject.cursor (self : RetainedObject) : RetainedCursor where
  token := self.token
  kind := self.kind
  originNode := self.originNode
  revision := self.revision
  digest := self.digest

variable (crypto : Crypto)

/-- The rows own wires that decode, so the decoder is not run again. -/
def retainedObjectFromWire (signed : SignedOffer) : RetainedObject where
  kind :=
    if signed.offer.operation = .groupRevoke then .groupRevoke
    else if signed.offer.operation = .upsert ∨ signed.offer.operation = .inventoryUpsert then .offer
    else .revoke
  token := signed.offer.token
  originNode := signed.offer.revision.originNode
  revision := signed.offer.revision
  expiresAtMs := if signed.offer.operation = .groupRevoke then Int64.maxValue
    else signed.offer.expiresAtMs
  wire := signed.wire
  digest := digestBytes crypto signed.transcript

def retainedAttachmentLeaseObjectFromWire (signed : SignedAttachmentLease) : RetainedObject where
  kind := .attachmentLease
  token := signed.lease.token
  originNode := signed.lease.revision.originNode
  revision := signed.lease.revision
  expiresAtMs := signed.lease.expiresAtMs
  wire := signed.wire
  digest := digestBytes crypto signed.transcript

/-- Where the buffer takes the cursor; nowhere if it is there already. -/
def insertionPoint (cursor : RetainedCursor) : List RetainedObject → Option Nat
  | [] => some 0
  | object :: rest =>
    match cursor.compare object.cursor with
    | .lt => some 0
    | .eq => none
    | .gt => (insertionPoint cursor rest).map (· + 1)

def considerRetainedObject (after : Option RetainedCursor) (room : Nat) (out : List RetainedObject)
    (candidate : RetainedObject) : List RetainedObject :=
  if room = 0 then out
  else if after.any fun lower => candidate.cursor.compare lower ≠ .gt then out
  else
    match insertionPoint candidate.cursor out with
    | none => out
    | some insertAt =>
      if insertAt = room then out
      else if out.length < room then out.take insertAt ++ candidate :: out.drop insertAt
      else out.take insertAt ++ candidate :: (out.drop insertAt).dropLast

def tombstoneExportable (nowMs revokeExpiresAtMs : Int64) : Bool :=
  decide (nowMs ≤ revokeExpiresAtMs)

namespace Store

variable (self : Store) (nowMs : Int64)

def retainedCount : Nat :=
  let count := self.quarantines.entries.foldl
    (fun count slot => if nowMs ≤ slot.2.expiresAtMs then count + 2 else count) 0
  let count := self.entries.entries.foldl
    (fun count slot => if slot.2.quarantineUntilMs = none ∧
      nowMs ≤ slot.2.expiresAtMs then count + 1 else count) count
  let count := self.tombstones.entries.foldl
    (fun count slot => if slot.2.quarantineUntilMs = none ∧
      tombstoneExportable nowMs slot.2.offerExpiresAtMs then
      count + 1 else count) count
  let count := self.attachmentLeases.entries.foldl
    (fun count slot =>
      if slot.2.replayUntilMs self.cfg < nowMs then count
      else if slot.2.conflicted ∧ slot.2.conflictWire = none then count
      else count + 1 + slot.2.conflictWire.isSome.toNat) count
  count + HashMap.count self.groupRevocations

def entryObject (key : OriginKey) (entry : Entry) : RetainedObject where
  kind := .offer
  token := key.token
  originNode := key.originNode
  revision := entry.revision
  expiresAtMs := entry.expiresAtMs
  wire := entry.wire.wire
  digest := entry.digest crypto

def tombstoneObject (key : OriginKey) (tombstone : Tombstone) : RetainedObject where
  kind := .revoke
  token := key.token
  originNode := key.originNode
  revision := tombstone.revision
  expiresAtMs := tombstone.offerExpiresAtMs
  wire := tombstone.wire.wire
  digest := tombstone.digest crypto

/-- The smallest retained objects greater than the cursor, at most `room` of them. -/
def retainedObjectsAfter (after : Option RetainedCursor) (room : Nat) : List RetainedObject :=
  if room = 0 then []
  else
    let consider := considerRetainedObject after room
    let out := self.quarantines.entries.foldl
      (fun out slot =>
        if slot.2.expiresAtMs < nowMs then out
        else consider (consider out (retainedObjectFromWire crypto slot.2.firstWire))
          (retainedObjectFromWire crypto slot.2.secondWire)) []
    let out := self.entries.entries.foldl
      (fun out slot =>
        if slot.2.quarantineUntilMs ≠ none ∨ slot.2.expiresAtMs < nowMs then out
        else consider out (entryObject crypto slot.1 slot.2)) out
    let out := self.attachmentLeases.entries.foldl
      (fun out slot =>
        if slot.2.replayUntilMs self.cfg < nowMs ∨
        (slot.2.conflicted ∧ slot.2.conflictWire = none) then out
        else
          let out := consider out (retainedAttachmentLeaseObjectFromWire crypto slot.2.wire)
          match slot.2.conflictWire with
          | some wire => consider out (retainedAttachmentLeaseObjectFromWire crypto wire)
          | none => out) out
    let out := self.tombstones.entries.foldl
      (fun out slot =>
        if slot.2.quarantineUntilMs ≠ none ∨
        !tombstoneExportable nowMs slot.2.offerExpiresAtMs then out
        else consider out (tombstoneObject crypto slot.1 slot.2)) out
    self.groupRevocations.entries.foldl
      (fun out slot => consider out (retainedObjectFromWire crypto slot.2.wire)) out

end Store

variable {after : Option RetainedCursor} {room : Nat} {met out : List RetainedObject}
    {candidate : RetainedObject}
variable {cursor : RetainedCursor}

theorem insertionPoint_none (h : insertionPoint cursor out = none) :
    ∃ object ∈ out, object.cursor = cursor := by
  induction out with
  | nil => cases h
  | cons object rest ih =>
    unfold insertionPoint at h
    split at h
    · cases h
    · next heq => exact ⟨object, mem_cons_self, (RetainedCursor.compare_eq.mp heq).symm⟩
    · obtain ⟨found, hfound, hcursor⟩ := ih (Option.map_eq_none_iff.mp h)
      exact ⟨found, mem_cons_of_mem object hfound, hcursor⟩

/-- Everything in front of the point lies before the cursor, everything behind it after. -/
theorem insertionPoint_some {insertAt : Nat}
    (hascending : out.Pairwise fun x y => x.cursor < y.cursor)
    (h : insertionPoint cursor out = some insertAt) : insertAt ≤ out.length ∧
      (∀ object ∈ out.take insertAt, object.cursor < cursor) ∧
      ∀ object ∈ out.drop insertAt, cursor < object.cursor := by
  induction out generalizing insertAt with
  | nil =>
    cases h
    exact ⟨Nat.le_refl 0, nofun, nofun⟩
  | cons object rest ih =>
    obtain ⟨hfirst, hrest⟩ := pairwise_cons.mp hascending
    unfold insertionPoint at h
    split at h
    · next hlt =>
      cases h
      have hlow := RetainedCursor.compare_lt.mp hlt
      exact ⟨Nat.zero_le _, nofun,
        forall_mem_cons.mpr ⟨hlow, fun later hlater => hlow.trans (hfirst later hlater)⟩⟩
    · cases h
    · next hgt =>
      obtain ⟨point, hpoint, rfl⟩ := Option.map_eq_some_iff.mp h
      obtain ⟨hle, hbefore, hafter⟩ := ih hrest hpoint
      refine ⟨Nat.succ_le_succ hle, ?_, hafter⟩
      exact forall_mem_cons.mpr ⟨RetainedCursor.compare_gt.mp hgt, hbefore⟩

/-- A full buffer drops its last object for the new one. -/
theorem insert_full {insertAt : Nat} (hlength : out.length = room) (hroom : insertAt < room) :
    out.take insertAt ++ candidate :: (out.drop insertAt).dropLast =
      (out.take insertAt ++ candidate :: out.drop insertAt).take room := by
  have hrest : out.drop insertAt ≠ [] := by
    rw [Ne, drop_eq_nil_iff]
    omega
  have htotal : (out.take insertAt ++ candidate :: out.drop insertAt).length - 1 = room := by
    rw [length_append, length_cons, length_take, length_drop]
    omega
  rw [← htotal, ← dropLast_eq_take, dropLast_append_of_ne_nil (cons_ne_nil _ _),
    dropLast_cons_of_ne_nil hrest]

theorem considerRetainedObject_smallest (after : Option RetainedCursor) (candidate : RetainedObject)
    (hroom : room ≠ 0) (h : Smallest RetainedObject.cursor room met out) :
    Smallest RetainedObject.cursor room
      (met ++ [candidate].filter (behind RetainedObject.cursor after))
      (considerRetainedObject after room out candidate) := by
  have hguard : (after.any fun lower => candidate.cursor.compare lower ≠ .gt) =
      !behind RetainedObject.cursor after candidate := by
    cases after with
    | none => rfl
    | some lower =>
      rw [Option.any_some, behind, Option.all_some, ← decide_not]
      exact decide_eq_decide.mpr (not_congr RetainedCursor.compare_gt)
  unfold considerRetainedObject
  rw [if_neg hroom, hguard]
  split
  · next hbefore =>
    have hnot : ¬ behind RetainedObject.cursor after candidate = true := by simpa using hbefore
    rw [filter_cons_of_neg hnot, filter_nil, append_nil]
    exact h
  rename_i hbehind
  have hin : behind RetainedObject.cursor after candidate = true := by simpa using hbehind
  rw [filter_cons_of_pos hin, filter_nil]
  split
  · next hthere =>
    exact h.skip (.inl (insertionPoint_none hthere))
  rename_i insertAt hpoint
  obtain ⟨hle, hbefore, hafter⟩ := insertionPoint_some h.ascending hpoint
  have hfits := h.fits
  have hinserted : Smallest RetainedObject.cursor room (met ++ [candidate])
      ((out.take insertAt ++ candidate :: out.drop insertAt).take room) := by
    apply Smallest.insert
    · rw [take_append_drop]
      exact h
    · exact hbefore
    · exact hafter
  split
  · next hfull =>
    -- the point is behind a full buffer
    have hlength : out.length = room := by omega
    rw [hfull, ← hlength, take_length] at hbefore
    exact h.skip (.inr ⟨hlength, hbefore⟩)
  split
  · next hspace =>
    rw [take_of_length_le] at hinserted
    · exact hinserted
    · rw [length_append, length_cons, length_take, length_drop]
      omega
  · next hspace =>
    have hlength : out.length = room := by omega
    rw [insert_full hlength (by omega)]
    exact hinserted

theorem foldl_smallest (hroom : room ≠ 0) (objects : List RetainedObject)
    (h : Smallest RetainedObject.cursor room met out) :
    Smallest RetainedObject.cursor room (met ++ objects.filter (behind RetainedObject.cursor after))
      (objects.foldl (considerRetainedObject after room) out) := by
  induction objects generalizing met out with
  | nil =>
    rw [filter_nil, append_nil]
    exact h
  | cons object objects ih =>
    have hall := ih (considerRetainedObject_smallest after object hroom h)
    rw [append_assoc, ← filter_append] at hall
    exact hall

namespace Store

variable {crypto : Crypto} {nowMs : Int64}

def quarantineObjects (crypto : Crypto) (nowMs : Int64) (slot : Sigma fun _ : Token => Quarantine) :
    List RetainedObject :=
  if slot.2.expiresAtMs < nowMs then []
  else [retainedObjectFromWire crypto slot.2.firstWire,
    retainedObjectFromWire crypto slot.2.secondWire]

def entryObjects (crypto : Crypto) (nowMs : Int64) (slot : Sigma fun _ : OriginKey => Entry) :
    List RetainedObject :=
  if slot.2.quarantineUntilMs ≠ none ∨
    slot.2.expiresAtMs < nowMs then [] else [entryObject crypto slot.1 slot.2]

def leaseObjects (crypto : Crypto) (cfg : Config) (nowMs : Int64)
    (slot : Sigma fun _ : OriginKey => AttachmentLeaseEntry) : List RetainedObject :=
  if slot.2.replayUntilMs cfg < nowMs ∨ (slot.2.conflicted ∧ slot.2.conflictWire = none) then []
  else (slot.2.wire :: slot.2.conflictWire.toList).map
    (retainedAttachmentLeaseObjectFromWire crypto)

def tombstoneObjects (crypto : Crypto) (nowMs : Int64)
    (slot : Sigma fun _ : OriginKey => Tombstone) :
    List RetainedObject :=
  if slot.2.quarantineUntilMs ≠ none ∨ !tombstoneExportable nowMs slot.2.offerExpiresAtMs then []
  else [tombstoneObject crypto slot.1 slot.2]

def groupObjects (crypto : Crypto) (slot : Sigma fun _ : Token => GroupRevocation) :
    List RetainedObject :=
  [retainedObjectFromWire crypto slot.2.wire]

/-- Everything the store exports at a clock, in the order the tables are met. -/
def retainedObjects (crypto : Crypto) (self : Store) (nowMs : Int64) : List RetainedObject :=
  self.quarantines.entries.flatMap (quarantineObjects crypto nowMs) ++
    (self.entries.entries.flatMap (entryObjects crypto nowMs) ++
      (self.attachmentLeases.entries.flatMap (leaseObjects crypto self.cfg nowMs) ++
        (self.tombstones.entries.flatMap (tombstoneObjects crypto nowMs) ++
          self.groupRevocations.entries.flatMap (groupObjects crypto))))

/-- A loop over rows that takes the objects of each row is a loop over all of the objects. -/
theorem foldl_rows {α β : Type} (objects : α → List RetainedObject) {rows : List α}
    {step : β → RetainedObject → β} {visit : β → α → β}
    (hvisit : ∀ out row, visit out row = (objects row).foldl step out)
    (out : β) : rows.foldl visit out = (rows.flatMap objects).foldl step out := by
  rw [foldl_flatMap]
  congr 1
  exact funext fun out => funext fun row => hvisit out row

theorem retainedObjectsAfter_eq (self : Store) (hroom : room ≠ 0) :
    self.retainedObjectsAfter crypto nowMs after room =
    (self.retainedObjects crypto nowMs).foldl (considerRetainedObject after room) [] := by
  simp only [retainedObjectsAfter, if_neg hroom, retainedObjects, foldl_append]
  rw [foldl_rows (quarantineObjects crypto nowMs), foldl_rows (entryObjects crypto nowMs),
    foldl_rows (leaseObjects crypto self.cfg nowMs), foldl_rows (tombstoneObjects crypto nowMs),
    foldl_rows (groupObjects crypto)]
  · exact fun out slot => rfl
  · intro out slot
    unfold tombstoneObjects
    split
    · rfl
    · rfl
  · intro out slot
    unfold leaseObjects
    split
    · rfl
    · cases slot.2.conflictWire with
      | none => rfl
      | some wire => rfl
  · intro out slot
    unfold entryObjects
    split
    · rfl
    · rfl
  · intro out slot
    unfold quarantineObjects
    split
    · rfl
    · rfl

/-- A page holds the smallest retained objects behind its cursor. -/
theorem retainedObjectsAfter_smallest (crypto : Crypto) (self : Store) (nowMs : Int64)
    (after : Option RetainedCursor) (room : Nat) :
    Smallest RetainedObject.cursor room
      ((self.retainedObjects crypto nowMs).filter (behind RetainedObject.cursor after))
      (self.retainedObjectsAfter crypto nowMs after room) := by
  by_cases hroom : room = 0
  · subst hroom
    exact ⟨List.Pairwise.nil, Nat.le_refl 0, nofun, fun x _ => .inr ⟨rfl, nofun⟩⟩
  · rw [retainedObjectsAfter_eq self hroom]
    exact foldl_smallest hroom _ Smallest.nil

theorem foldl_count {α : Type} (objects : α → List RetainedObject) {rows : List α}
    {visit : Nat → α → Nat}
    (hvisit : ∀ count row, visit count row = count + (objects row).length) (count : Nat) :
    rows.foldl visit count = count + (rows.flatMap objects).length := by
  induction rows generalizing count with
  | nil => rfl
  | cons row rows ih => rw [foldl_cons, ih, hvisit, flatMap_cons, length_append, Nat.add_assoc]

/-- `retainedCount` counts the objects that are paged. -/
theorem retainedCount_eq (self : Store) (nowMs : Int64) :
    self.retainedCount nowMs = (self.retainedObjects crypto nowMs).length := by
  have hgroups : HashMap.count self.groupRevocations =
      (self.groupRevocations.entries.flatMap (groupObjects crypto)).length := by
    rw [length_flatMap]
    simp [groupObjects, HashMap.count]
  simp only [retainedCount, retainedObjects, length_append]
  rw [foldl_count (quarantineObjects crypto nowMs), foldl_count (entryObjects crypto nowMs),
    foldl_count (tombstoneObjects crypto nowMs),
    foldl_count (leaseObjects crypto self.cfg nowMs), hgroups]
  · omega
  · intro count slot
    unfold leaseObjects
    by_cases hpast : slot.2.replayUntilMs self.cfg < nowMs
    · simp [hpast]
    by_cases hbare : slot.2.conflicted = true ∧ slot.2.conflictWire = none
    · simp [hpast, hbare]
    simp only [hpast, hbare, if_false, or_self]
    cases slot.2.conflictWire with
    | none => rfl
    | some wire => rfl
  · intro count slot
    unfold tombstoneObjects
    by_cases hmarker : slot.2.quarantineUntilMs = none
    · cases htime : tombstoneExportable nowMs slot.2.offerExpiresAtMs with
      | false => simp [hmarker]
      | true => simp [hmarker]
    · simp [hmarker]
  · intro count slot
    unfold entryObjects
    by_cases hmarker : slot.2.quarantineUntilMs = none
    · by_cases htime : slot.2.expiresAtMs < nowMs
      · simp [hmarker, htime]
      · simp [hmarker, htime, Int64.not_lt.mp htime]
    · simp [hmarker]
  · intro count slot
    unfold quarantineObjects
    by_cases htime : slot.2.expiresAtMs < nowMs
    · simp [htime]
    · simp [htime, Int64.not_lt.mp htime]

end Store

end OnyxServer.SessionReplica
