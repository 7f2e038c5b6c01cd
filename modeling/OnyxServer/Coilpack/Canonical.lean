import OnyxServer.Coilpack.Integers

/-!
# CoilPack is canonical

A value has one encoding and an accepted encoding has one value, up to the order of the
entries of its maps: the encoder sorts them and the decoder takes them only sorted.
-/
namespace OnyxServer.Coilpack

open Lib Text List

mutual

/-- The value with every map in the order of its keys. -/
def Value.sorted : Value → Value
  | .array items => .array (sortedItems items)
  | .map entries => .map (sortByKey MapEntry.key (sortedEntries entries))
  | value => value

def sortedItems : List Value → List Value
  | [] => []
  | item :: items => item.sorted :: sortedItems items

def sortedEntries : List MapEntry → List MapEntry
  | [] => []
  | .mk key value :: entries => .mk key value.sorted :: sortedEntries entries

end

mutual

/-- How many levels of arrays and maps are entered. -/
def Value.depth : Value → Nat
  | .array items => itemsDepth items
  | .map entries => entriesDepth entries
  | _ => 0

def itemsDepth : List Value → Nat
  | [] => 0
  | item :: items => max (item.depth + 1) (itemsDepth items)

def entriesDepth : List MapEntry → Nat
  | [] => 0
  | .mk _ value :: entries => max (value.depth + 1) (entriesDepth entries)

end

mutual

/-- How many values there are in the tree. -/
def Value.nodes : Value → Nat
  | .array items => 1 + itemsNodes items
  | .map entries => 1 + entriesNodes entries
  | _ => 1

def itemsNodes : List Value → Nat
  | [] => 0
  | item :: items => item.nodes + itemsNodes items

def entriesNodes : List MapEntry → Nat
  | [] => 0
  | .mk _ value :: entries => value.nodes + entriesNodes entries

end

def MapEntry.sorted (entry : MapEntry) : MapEntry := .mk entry.key entry.value.sorted

/-- Strings are UTF-8 and the keys of a map differ. The bounds are those of a slice, whose
length is a 64-bit word. -/
inductive Value.WellFormed : Value → Prop where
  | nil : Value.WellFormed .nil
  | boolean (value : Bool) : Value.WellFormed (.boolean value)
  | unsigned (value : UInt64) : Value.WellFormed (.unsigned value)
  | signed (value : Int64) : Value.WellFormed (.signed value)
  | bytes {value : Bytes} (slice : value.length < 2 ^ 64) : Value.WellFormed (.bytes value)
  | string {value : Bytes} (slice : value.length < 2 ^ 64) (utf8 : validateUtf8 value = true) :
      Value.WellFormed (.string value)
  | array {items : List Value} (slice : items.length < 2 ^ 64)
      (each : ∀ item ∈ items, Value.WellFormed item) : Value.WellFormed (.array items)
  | map {entries : List MapEntry} (slice : entries.length < 2 ^ 64)
      (keySlices : ∀ entry ∈ entries, entry.key.length < 2 ^ 64)
        (keys : (entries.map MapEntry.key).Nodup)
      (each : ∀ entry ∈ entries, Value.WellFormed entry.value) : Value.WellFormed (.map entries)

section Lists

variable {items : List Value} {entries : List MapEntry}

theorem sortedItems_eq (items : List Value) : sortedItems items = items.map Value.sorted := by
  induction items with
  | nil => rfl
  | cons item items ih => rw [sortedItems, ih, map_cons]

theorem sortedEntries_eq (entries : List MapEntry) :
    sortedEntries entries = entries.map MapEntry.sorted := by
  induction entries with
  | nil => rfl
  | cons entry entries ih =>
    obtain ⟨key, value⟩ := entry
    rw [sortedEntries, ih, map_cons]
    rfl

theorem encodeEntries_eq (entries : List MapEntry) :
    encodeEntries entries = entries.map encodeEntry := by
  induction entries with
  | nil => rfl
  | cons entry entries ih => rw [encodeEntries, ih, map_cons]

theorem itemsNodes_eq (items : List Value) : itemsNodes items = (items.map Value.nodes).sum := by
  induction items with
  | nil => rfl
  | cons item items ih => rw [itemsNodes, ih, map_cons, sum_cons]

theorem entriesNodes_eq (entries : List MapEntry) :
    entriesNodes entries = (entries.map fun entry => entry.value.nodes).sum := by
  induction entries with
  | nil => rfl
  | cons entry entries ih =>
    obtain ⟨key, value⟩ := entry
    rw [entriesNodes, ih, map_cons, sum_cons]
    rfl

theorem itemsDepth_lt {levels : Nat} :
    itemsDepth items < levels + 1 ↔ ∀ item ∈ items, item.depth < levels := by
  induction items with
  | nil => simp [itemsDepth]
  | cons item items ih =>
    rw [itemsDepth, forall_mem_cons, ← ih]
    omega

theorem entriesDepth_lt {levels : Nat} :
    entriesDepth entries < levels + 1 ↔ ∀ entry ∈ entries, entry.value.depth < levels := by
  induction entries with
  | nil => simp [entriesDepth]
  | cons entry entries ih =>
    obtain ⟨key, value⟩ := entry
    rw [entriesDepth, forall_mem_cons, ← ih]
    change _ ↔ value.depth < levels ∧ _
    omega

theorem sortByKey_map {α β κ : Type} [LinearOrder κ] {key : α → κ} {key' : β → κ} {f : α → β}
    (hkey : ∀ x, key' (f x) = key x) (xs : List α) :
    sortByKey key' (xs.map f) = (sortByKey key xs).map f := by
  refine (map_insertionSort _ _ f xs fun a _ b _ => ?_).symm
  rw [hkey, hkey]

theorem sortByKey_eq_self {α κ : Type} [LinearOrder κ] {key : α → κ} {xs : List α}
    (h : Ascending key xs) :
    sortByKey key xs = xs := by
  have hnodup : (xs.map key).Nodup := by
    refine pairwise_map.mpr (List.Pairwise.imp (fun hab => ?_) h)
    exact ne_of_lt hab
  exact Ascending.ext (sortByKey_ascending hnodup) h fun a => (sortByKey_perm key xs).mem_iff

theorem Value.sorted_map (entries : List MapEntry) :
    (Value.map entries).sorted = .map ((sortByKey MapEntry.key entries).map MapEntry.sorted) := by
  rw [Value.sorted, sortedEntries_eq,
    sortByKey_map fun entry : MapEntry => (rfl : entry.sorted.key = entry.key)]
  rfl

theorem encodeEntry_fst (entry : MapEntry) : (encodeEntry entry).1 = entry.key := by
  cases entry
  rfl

theorem encodeEntry_eq (entry : MapEntry) :
    encodeEntry entry = (entry.key, encodeValue entry.value) := by
  cases entry
  rfl

theorem sortByKey_encodeEntries (entries : List MapEntry) :
    sortByKey Prod.fst (encodeEntries entries) =
      (sortByKey MapEntry.key entries).map encodeEntry := by
  rw [encodeEntries_eq, sortByKey_map encodeEntry_fst]

end Lists

theorem readBytesView_append {bytes : Bytes} (h : bytes.length < 2 ^ 64) (rest : Bytes) :
    readBytesView (appendLenAndBytes bytes ++ rest) = .ok (bytes, rest) := by
  have hlen : (UInt64.ofNat bytes.length).toNat = bytes.length := UInt64.toNat_ofNat_of_lt' h
  rw [readBytesView, appendLenAndBytes, append_assoc, readVarint_append]
  simp only [hlen]
  rw [if_neg (by simp), take_left, drop_left]

/-- The value is encoded, and read back in order, within the limits of the decoder. The
count of values is compared with its limit for equality: a count past it is not limited. -/
def Value.Reads (value : Value) : Prop :=
  ∃ bytes, encodeValue value = .ok bytes ∧ ∀ levels seen rest, value.depth < levels →
    seen + value.nodes ≤ maxDecodeValues ∨ maxDecodeValues < seen →
    readValue levels ⟨bytes ++ rest, seen⟩ = .ok (value.sorted, ⟨rest, seen + value.nodes⟩)

section Reading

variable {items : List Value} {entries : List MapEntry}

theorem readItems_encode (h : ∀ item ∈ items, item.Reads) :
    ∃ body, encodeItems items = .ok body ∧
    ∀ levels seen rest, (∀ item ∈ items, item.depth < levels) →
      seen + (items.map Value.nodes).sum ≤ maxDecodeValues ∨ maxDecodeValues < seen →
      readItems (readValue levels) items.length ⟨body ++ rest, seen⟩ =
        .ok (items.map Value.sorted, ⟨rest, seen + (items.map Value.nodes).sum⟩) := by
  induction items with
  | nil => exact ⟨[], rfl, fun levels seen rest _ _ => rfl⟩
  | cons item items ih =>
    obtain ⟨hitem, hitems⟩ := forall_mem_cons.mp h
    obtain ⟨head, hhead, hread⟩ := hitem
    obtain ⟨tail, htail, hreads⟩ := ih hitems
    refine ⟨head ++ tail, ?_, ?_⟩
    · simp only [encodeItems, hhead, htail]
    · intro levels seen rest hdepth hnodes
      obtain ⟨hfirst, hrest⟩ := forall_mem_cons.mp hdepth
      simp only [map_cons, sum_cons] at hnodes ⊢
      have hone := hread levels seen (tail ++ rest) hfirst (by omega)
      have hmany := hreads levels (seen + item.nodes) rest hrest (by omega)
      rw [length_cons, readItems, append_assoc, hone]
      simp only [hmany]
      rw [Nat.add_assoc]

theorem readEntries_encode (hasc : Ascending MapEntry.key entries)
    (h : ∀ entry ∈ entries, entry.value.Reads)
    (hkeys : ∀ entry ∈ entries, entry.key.length < 2 ^ 64) (previous : Option Bytes)
    (hprevious : ∀ prev ∈ previous, ∀ entry ∈ entries, prev < entry.key) :
    ∃ body, appendSortedMap previous (entries.map encodeEntry) = .ok body ∧
      ∀ levels seen rest, (∀ entry ∈ entries, entry.value.depth < levels) →
      seen + (entries.map fun entry => entry.value.nodes).sum ≤ maxDecodeValues ∨
      maxDecodeValues < seen →
      readEntries (readValue levels) entries.length previous ⟨body ++ rest, seen⟩ =
        .ok (entries.map MapEntry.sorted,
          ⟨rest, seen + (entries.map fun entry => entry.value.nodes).sum⟩) := by
  induction entries generalizing previous with
  | nil => exact ⟨[], rfl, fun levels seen rest _ _ => rfl⟩
  | cons entry entries ih =>
    obtain ⟨hentry, hentries⟩ := forall_mem_cons.mp h
    obtain ⟨hkey, hkeys⟩ := forall_mem_cons.mp hkeys
    obtain ⟨hfirst, hasc⟩ := ascending_cons.mp hasc
    obtain ⟨value, hvalue, hread⟩ := hentry
    have hnext : ∀ prev ∈ some entry.key, ∀ other ∈ entries, prev < other.key := by
      intro prev hprev other hother
      obtain rfl := Option.mem_some_iff.mp hprev
      exact hfirst other hother
    obtain ⟨tail, htail, hreads⟩ := ih hasc hentries hkeys (some entry.key) hnext
    obtain ⟨hne, -, horder⟩ :=
      order_checks fun prev hprev => hprevious prev hprev entry mem_cons_self
    refine ⟨appendLenAndBytes entry.key ++ value ++ tail, ?_, ?_⟩
    · simp only [map_cons, encodeEntry_eq, appendSortedMap, hne, ↓reduceIte, hvalue, htail]
    · intro levels seen rest hdepth hnodes
      obtain ⟨hdeep, hdepths⟩ := forall_mem_cons.mp hdepth
      simp only [map_cons, sum_cons] at hnodes ⊢
      have hone := hread levels seen (tail ++ rest) hdeep (by omega)
      have hmany := hreads levels (seen + entry.value.nodes) rest hdepths (by omega)
      rw [length_cons, readEntries, append_assoc, append_assoc, readBytesView_append hkey]
      simp only [hne, horder, Bool.false_eq_true, ↓reduceIte, hone, hmany]
      rw [Nat.add_assoc]
      rfl

/-- The limits are checked before the tag is read. -/
theorem readValue_cons {levels seen : Nat} {tag : UInt8} {rest : Bytes}
    (hseen : seen ≠ maxDecodeValues) :
    readValue (levels + 1) ⟨tag :: rest, seen⟩ =
      if tag = 0x00 then .ok (.nil, ⟨rest, seen + 1⟩)
      else if tag = 0x01 then .ok (.boolean false, ⟨rest, seen + 1⟩)
      else if tag = 0x02 then .ok (.boolean true, ⟨rest, seen + 1⟩)
      else if tag = 0x03 then
        match readVarint rest with
        | .error e => .error e
        | .ok (n, rest) => .ok (.unsigned n, ⟨rest, seen + 1⟩)
      else if tag = 0x04 then
        match readVarint rest with
        | .error e => .error e
        | .ok (n, rest) => .ok (.signed (zigZagDecode n), ⟨rest, seen + 1⟩)
      else if tag = 0x05 then
        match readBytesView rest with
        | .error e => .error e
        | .ok (bytes, rest) => .ok (.bytes bytes, ⟨rest, seen + 1⟩)
      else if tag = 0x06 then
        match readBytesView rest with
        | .error e => .error e
        | .ok (string, rest) =>
          if !validateUtf8 string then .error .invalidUtf8
          else .ok (.string string, ⟨rest, seen + 1⟩)
      else if tag = 0x07 then
        match readVarint rest with
        | .error e => .error e
        | .ok (count, rest) =>
          match readItems (readValue levels) count.toNat ⟨rest, seen + 1⟩ with
          | .error e => .error e
          | .ok (items, decoder) => .ok (.array items, decoder)
      else if tag = 0x08 then
        match readVarint rest with
        | .error e => .error e
        | .ok (count, rest) =>
          match readEntries (readValue levels) count.toNat none ⟨rest, seen + 1⟩ with
          | .error e => .error e
          | .ok (entries, decoder) => .ok (.map entries, decoder)
      else .error .unknownTag := by
  rw [readValue]
  exact if_neg hseen

theorem Value.Reads.leaf {value : Value} {tag : UInt8} {body : Bytes}
    (hencode : encodeValue value = .ok (tag :: body))
    (hread : ∀ levels seen rest, seen ≠ maxDecodeValues →
      readValue (levels + 1) ⟨tag :: (body ++ rest), seen⟩ = .ok (value, ⟨rest, seen + 1⟩))
    (hsorted : value.sorted = value) (hnodes : value.nodes = 1) : value.Reads := by
  refine ⟨tag :: body, hencode, ?_⟩
  intro levels seen rest hdepth hseen
  rw [hnodes] at hseen
  cases levels with
  | zero => omega
  | succ levels => rw [cons_append, hread levels seen rest (by omega), hsorted, hnodes]

theorem Value.WellFormed.reads {value : Value} (h : value.WellFormed) : value.Reads := by
  induction h with
  | nil =>
    refine .leaf rfl (fun levels seen rest hseen => ?_) rfl rfl
    rw [readValue_cons hseen]
    rfl
  | boolean value =>
    cases value with
    | false =>
      refine .leaf rfl (fun levels seen rest hseen => ?_) rfl rfl
      rw [readValue_cons hseen]
      rfl
    | true =>
      refine .leaf rfl (fun levels seen rest hseen => ?_) rfl rfl
      rw [readValue_cons hseen]
      rfl
  | unsigned value =>
    refine .leaf rfl (fun levels seen rest hseen => ?_) rfl rfl
    rw [readValue_cons hseen, readVarint_append]
    rfl
  | signed value =>
    refine .leaf rfl (fun levels seen rest hseen => ?_) rfl rfl
    rw [readValue_cons hseen, readVarint_append, ← zigZagDecode_encode value, zigZagEncode_decode]
    rfl
  | bytes slice =>
    refine .leaf rfl (fun levels seen rest hseen => ?_) rfl rfl
    rw [readValue_cons hseen, readBytesView_append slice]
    rfl
  | @string value slice utf8 =>
    refine .leaf (by rw [encodeValue, utf8]; rfl) (fun levels seen rest hseen => ?_) rfl rfl
    rw [readValue_cons hseen, readBytesView_append slice]
    simp only [utf8]
    rfl
  | @array items slice each ih =>
    obtain ⟨body, hbody, hread⟩ := readItems_encode ih
    have hcount : (UInt64.ofNat items.length).toNat = items.length :=
      UInt64.toNat_ofNat_of_lt' slice
    refine ⟨0x07 :: appendVarint (UInt64.ofNat items.length) ++ body, by
      rw [encodeValue, hbody], ?_⟩
    intro levels seen rest hdepth hseen
    rw [Value.nodes, itemsNodes_eq] at hseen ⊢
    rw [Value.depth] at hdepth
    cases levels with
    | zero => omega
    | succ levels =>
      have hitems := hread levels (seen + 1) rest (itemsDepth_lt.mp hdepth) (by omega)
      rw [cons_append, cons_append, readValue_cons (by omega), append_assoc, readVarint_append]
      simp only [hcount, hitems]
      rw [Value.sorted, sortedItems_eq, Nat.add_assoc]
      rfl
  | @map entries slice keySlices keys each ih =>
    have hasc := sortByKey_ascending keys
    have hperm := sortByKey_perm MapEntry.key entries
    have hlength := hperm.length_eq
    obtain ⟨body, hbody, hread⟩ :=
      readEntries_encode hasc (fun entry hentry => ih entry (hperm.mem_iff.mp hentry))
      (fun entry hentry => keySlices entry (hperm.mem_iff.mp hentry)) none nofun
    have hcount : (UInt64.ofNat entries.length).toNat =
        (sortByKey MapEntry.key entries).length := by
      rw [hlength]
      exact UInt64.toNat_ofNat_of_lt' slice
    refine ⟨0x08 :: appendVarint (UInt64.ofNat entries.length) ++ body, ?_, ?_⟩
    · rw [encodeValue, sortByKey_encodeEntries, hbody]
    · intro levels seen rest hdepth hseen
      have hsum := (hperm.map fun entry => entry.value.nodes).sum_nat
      rw [Value.nodes, entriesNodes_eq, ← hsum] at hseen ⊢
      rw [Value.depth] at hdepth
      cases levels with
      | zero => omega
      | succ levels =>
        have hentries := hread levels (seen + 1) rest
          (fun entry hentry => entriesDepth_lt.mp hdepth entry (hperm.mem_iff.mp hentry)) (by omega)
        rw [cons_append, cons_append, readValue_cons (by omega), append_assoc, readVarint_append]
        simp only [hcount, hentries]
        rw [Value.sorted_map, Nat.add_assoc]
        rfl

end Reading

/-! ## The writer on the reader -/

theorem readBytesView_ok {input rest bytes : Bytes} (h : readBytesView input = .ok (bytes, rest)) :
    input = appendLenAndBytes bytes ++ rest ∧ bytes.length < 2 ^ 64 := by
  rw [readBytesView] at h
  cases hlen : readVarint input with
  | error e =>
    rw [hlen] at h
    cases h
  | ok read =>
    obtain ⟨len, body⟩ := read
    rw [hlen] at h
    simp only at h
    split_ifs at h with hroom
    cases h
    have hlength : (body.take len.toNat).length = len.toNat := by
      rw [length_take]
      omega
    refine ⟨?_, ?_⟩
    · rw [appendLenAndBytes, hlength, UInt64.ofNat_toNat, append_assoc, take_append_drop]
      exact readVarint_ok hlen
    · rw [hlength]
      exact len.toNat_lt

/-- A value as the decoder answers it: written, it gives the octets it was read from. -/
structure Written (levels : Nat) (before after : Decoder) (value : Value) : Prop where
  encodes : ∃ bytes, encodeValue value = .ok bytes ∧ before.input = bytes ++ after.input
  wellFormed : value.WellFormed
  sorted : value.sorted = value
  depth : value.depth < levels
  nodes : after.valuesSeen = before.valuesSeen + value.nodes
  bound : after.valuesSeen ≤ maxDecodeValues

section Writing

variable {levels : Nat} {before after : Decoder}

theorem readItems_ok
    (hone : ∀ {before after : Decoder} {value : Value}, before.valuesSeen ≤ maxDecodeValues →
      readValue levels before = .ok (value, after) → Written levels before after value)
    {count : Nat} {items : List Value} (hbefore : before.valuesSeen ≤ maxDecodeValues)
    (h : readItems (readValue levels) count before = .ok (items, after)) :
    items.length = count ∧
    (∃ body, encodeItems items = .ok body ∧ before.input = body ++ after.input) ∧
      (∀ item ∈ items, item.WellFormed) ∧ items.map Value.sorted = items ∧
      (∀ item ∈ items, item.depth < levels) ∧
      after.valuesSeen = before.valuesSeen + (items.map Value.nodes).sum ∧
      after.valuesSeen ≤ maxDecodeValues := by
  induction count generalizing before items with
  | zero =>
    cases h
    exact ⟨rfl, ⟨[], rfl, rfl⟩, nofun, rfl, nofun, rfl, hbefore⟩
  | succ count ih =>
    rw [readItems] at h
    split at h
    · cases h
    rename_i item middle hitem
    split at h
    · cases h
    rename_i rest last hrest
    cases h
    have hwritten := hone hbefore hitem
    obtain ⟨hlength, ⟨body, hbody, hinput⟩, hwell, hsorted, hdepth, hnodes, hbound⟩ :=
      ih hwritten.bound hrest
    obtain ⟨head, hhead, hfront⟩ := hwritten.encodes
    refine ⟨by rw [length_cons, hlength], ⟨head ++ body, ?_, ?_⟩,
      forall_mem_cons.mpr ⟨hwritten.wellFormed, hwell⟩, ?_,
      forall_mem_cons.mpr ⟨hwritten.depth, hdepth⟩, ?_, hbound⟩
    · simp only [encodeItems, hhead, hbody]
    · rw [hfront, hinput, append_assoc]
    · rw [map_cons, hwritten.sorted, hsorted]
    · rw [hnodes, hwritten.nodes, map_cons, sum_cons, Nat.add_assoc]

theorem readEntries_ok
    (hone : ∀ {before after : Decoder} {value : Value}, before.valuesSeen ≤ maxDecodeValues →
      readValue levels before = .ok (value, after) → Written levels before after value)
    {count : Nat} {previous : Option Bytes} {entries : List MapEntry}
    (hbefore : before.valuesSeen ≤ maxDecodeValues)
    (h : readEntries (readValue levels) count previous before = .ok (entries, after)) :
    entries.length = count ∧ Ascending MapEntry.key entries ∧
      (∀ prev ∈ previous, ∀ entry ∈ entries, prev < entry.key) ∧
      (∃ body, appendSortedMap previous (entries.map encodeEntry) = .ok body ∧
        before.input = body ++ after.input) ∧
      (∀ entry ∈ entries, entry.key.length < 2 ^ 64 ∧ entry.value.WellFormed) ∧
      entries.map MapEntry.sorted = entries ∧ (∀ entry ∈ entries, entry.value.depth < levels) ∧
      after.valuesSeen = before.valuesSeen + (entries.map fun entry => entry.value.nodes).sum ∧
      after.valuesSeen ≤ maxDecodeValues := by
  induction count generalizing before previous entries with
  | zero =>
    cases h
    exact ⟨rfl, .nil, nofun, ⟨[], rfl, rfl⟩, nofun, rfl, nofun, rfl, hbefore⟩
  | succ count ih =>
    rw [readEntries] at h
    split at h
    · cases h
    rename_i key body hkey
    split at h
    · cases h
    rename_i hne
    split at h
    · cases h
    rename_i horder
    split at h
    · cases h
    rename_i value middle hvalue
    split at h
    · cases h
    rename_i rest last hrest
    cases h
    obtain ⟨hinput, hslice⟩ := readBytesView_ok hkey
    have hwritten := @hone ⟨body, before.valuesSeen⟩ _ _ hbefore hvalue
    obtain ⟨hlength, hasc, hfirst, ⟨tail, htail, hback⟩, hwell, hsorted, hdepth, hnodes, hbound⟩ :=
      ih hwritten.bound hrest
    obtain ⟨head, hhead, hfront⟩ := hwritten.encodes
    have hless : ∀ prev ∈ previous, prev < key := by
      intro prev hprev
      rw [Option.mem_def.mp hprev] at horder
      simpa using horder
    have hafter : ∀ entry ∈ rest, key < entry.key := fun entry hentry => hfirst key rfl entry hentry
    refine ⟨by rw [length_cons, hlength], ascending_cons.mpr ⟨hafter, hasc⟩, ?_,
      ⟨appendLenAndBytes key ++ head ++ tail, ?_, ?_⟩,
      forall_mem_cons.mpr ⟨⟨hslice, hwritten.wellFormed⟩, hwell⟩, ?_,
      forall_mem_cons.mpr ⟨hwritten.depth, hdepth⟩, ?_, hbound⟩
    · intro prev hprev
      refine forall_mem_cons.mpr ⟨hless prev hprev, fun entry hentry => ?_⟩
      exact (hless prev hprev).trans (hafter entry hentry)
    · simp only [map_cons, encodeEntry_eq, MapEntry.key, MapEntry.value, appendSortedMap, hne,
        ↓reduceIte, hhead, htail]
    · have hbody : body = head ++ middle.input := hfront
      rw [hinput, hbody, hback, append_assoc, append_assoc]
    · rw [map_cons, hsorted, MapEntry.sorted, MapEntry.key, MapEntry.value, hwritten.sorted]
    · simp only [hnodes, hwritten.nodes, map_cons, sum_cons, MapEntry.value, Nat.add_assoc]

theorem Written.leaf {seen : Nat} {tag : UInt8} {body rest : Bytes} {value : Value}
    (hencode : encodeValue value = .ok (tag :: body)) (hwell : value.WellFormed)
    (hsorted : value.sorted = value) (hdepth : value.depth = 0) (hnodes : value.nodes = 1)
    (hseen : seen + 1 ≤ maxDecodeValues) :
    Written (levels + 1) ⟨tag :: (body ++ rest), seen⟩ ⟨rest, seen + 1⟩ value := by
  refine ⟨⟨tag :: body, hencode, rfl⟩, hwell, hsorted, ?_, ?_, hseen⟩
  · rw [hdepth]
    exact Nat.succ_pos levels
  · rw [hnodes]

theorem readValue_ok {value : Value} (hbefore : before.valuesSeen ≤ maxDecodeValues)
    (h : readValue levels before = .ok (value, after)) : Written levels before after value := by
  induction levels generalizing before after value with
  | zero => cases h
  | succ levels ih =>
    obtain ⟨input, seen⟩ := before
    cases input with
    | nil =>
      rw [readValue] at h
      split at h
      · cases h
      · cases h
    | cons tag rest =>
      by_cases hfull : seen = maxDecodeValues
      · rw [readValue] at h
        simp only [hfull, ↓reduceIte] at h
        cases h
      have hseen : seen + 1 ≤ maxDecodeValues := Nat.lt_of_le_of_ne hbefore hfull
      rw [readValue_cons hfull] at h
      split at h
      · next htag =>
        cases h
        subst htag
        exact .leaf rfl .nil rfl rfl rfl hseen
      split at h
      · next htag =>
        cases h
        subst htag
        exact @Written.leaf levels seen 0x01 [] rest (.boolean false) rfl
          (.boolean _) rfl rfl rfl hseen
      split at h
      · next htag =>
        cases h
        subst htag
        exact @Written.leaf levels seen 0x02 [] rest (.boolean true) rfl
          (.boolean _) rfl rfl rfl hseen
      split at h
      · next htag =>
        split at h
        · cases h
        rename_i number rest' hread
        cases h
        subst htag
        rw [readVarint_ok hread]
        exact .leaf rfl (.unsigned _) rfl rfl rfl hseen
      split at h
      · next htag =>
        split at h
        · cases h
        rename_i number rest' hread
        cases h
        subst htag
        rw [readVarint_ok hread]
        refine .leaf ?_ (.signed _) rfl rfl rfl hseen
        rw [encodeValue, zigZagEncode_decode]
      split at h
      · next htag =>
        split at h
        · cases h
        rename_i bytes rest' hread
        cases h
        subst htag
        obtain ⟨hinput, hslice⟩ := readBytesView_ok hread
        rw [hinput]
        exact .leaf rfl (.bytes hslice) rfl rfl rfl hseen
      split at h
      · next htag =>
        split at h
        · cases h
        rename_i string rest' hread
        split_ifs at h with hutf8
        cases h
        subst htag
        have hvalid : validateUtf8 string = true := by simpa using hutf8
        obtain ⟨hinput, hslice⟩ := readBytesView_ok hread
        rw [hinput]
        refine .leaf ?_ (.string hslice hvalid) rfl rfl rfl hseen
        rw [encodeValue, hvalid]
        rfl
      split at h
      · next htag =>
        split at h
        · cases h
        rename_i count rest' hread
        split at h
        · cases h
        rename_i items decoder hitems
        cases h
        subst htag
        obtain ⟨hlength, ⟨body, hbody, hinput⟩, hwell, hsorted, hdepth, hnodes, hbound⟩ :=
          @readItems_ok levels ⟨rest', seen + 1⟩ after ih _ _ hseen hitems
        have hslice : items.length < 2 ^ 64 := by
          rw [hlength]
          exact count.toNat_lt
        have hcount : UInt64.ofNat items.length = count := by rw [hlength, UInt64.ofNat_toNat]
        refine ⟨⟨0x07 :: appendVarint count ++ body, ?_, ?_⟩, .array hslice hwell, ?_, ?_,
          ?_, hbound⟩
        · rw [encodeValue, hbody, hcount]
        · have hrest : rest' = body ++ after.input := hinput
          rw [readVarint_ok hread, hrest, cons_append, cons_append, append_assoc]
        · rw [Value.sorted, sortedItems_eq, hsorted]
        · exact itemsDepth_lt.mpr hdepth
        · rw [hnodes, Value.nodes, itemsNodes_eq, Nat.add_assoc]
      split at h
      · next htag =>
        split at h
        · cases h
        rename_i count rest' hread
        split at h
        · cases h
        rename_i entries decoder hentries
        cases h
        subst htag
        obtain ⟨hlength, hasc, -, ⟨body, hbody, hinput⟩, hwell, hsorted, hdepth, hnodes, hbound⟩ :=
          @readEntries_ok levels ⟨rest', seen + 1⟩ after ih _ _ _ hseen hentries
        have hslice : entries.length < 2 ^ 64 := by
          rw [hlength]
          exact count.toNat_lt
        have hcount : UInt64.ofNat entries.length = count := by rw [hlength, UInt64.ofNat_toNat]
        have hkeys : (entries.map MapEntry.key).Nodup :=
          pairwise_map.mpr (List.Pairwise.imp (fun hab => ne_of_lt hab) hasc)
        refine ⟨⟨0x08 :: appendVarint count ++ body, ?_, ?_⟩,
          .map hslice (fun entry hentry => (hwell entry hentry).1) hkeys
            (fun entry hentry => (hwell entry hentry).2), ?_, ?_, ?_, hbound⟩
        · rw [encodeValue, sortByKey_encodeEntries, sortByKey_eq_self hasc, hbody, hcount]
        · have hrest : rest' = body ++ after.input := hinput
          rw [readVarint_ok hread, hrest, cons_append, cons_append, append_assoc]
        · rw [Value.sorted_map, sortByKey_eq_self hasc, hsorted]
        · exact entriesDepth_lt.mpr hdepth
        · rw [hnodes, Value.nodes, entriesNodes_eq, Nat.add_assoc]
      cases h

end Writing

end OnyxServer.Coilpack
