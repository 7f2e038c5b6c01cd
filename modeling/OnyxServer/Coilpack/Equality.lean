import OnyxServer.Coilpack.Canonical

/-!
# Equality of CoilPack values

Deep equality counts, for every entry of one map, the entries of the other that match it.
Among maps with distinct keys this is equality after sorting, which is equality of the
encodings.
-/
namespace OnyxServer.Coilpack

open Lib Text List

section Equality

variable {u v : Value}

theorem eqlItems_eq {xs ys : List Value} (hlength : xs.length = ys.length)
    (h : ∀ x ∈ xs, ∀ y ∈ ys, eql x y = true ↔ x.sorted = y.sorted) :
    eqlItems xs ys = true ↔ xs.map Value.sorted = ys.map Value.sorted := by
  induction xs generalizing ys with
  | nil =>
    obtain rfl := length_eq_zero_iff.mp hlength.symm
    simp [eqlItems]
  | cons x xs ih =>
    cases ys with
    | nil => cases hlength
    | cons y ys =>
      have hrest := ih (Nat.succ.inj hlength) fun x' hx' y' hy' =>
        h x' (mem_cons_of_mem _ hx') y' (mem_cons_of_mem _ hy')
      rw [eqlItems, Bool.and_eq_true, h x mem_cons_self y mem_cons_self, hrest, map_cons,
        map_cons, List.cons.injEq]

theorem eqlLargeMaps_eq (xs ys : List MapEntry) :
    eqlLargeMaps xs ys = xs.all fun x =>
      (ys.countP fun y => x.key == y.key && eql x.value y.value) == 1 := by
  induction xs with
  | nil => rfl
  | cons x xs ih =>
    obtain ⟨key, value⟩ := x
    rw [eqlLargeMaps, ih, all_cons]
    rfl

theorem mem_map_sorted {x : MapEntry} {ys : List MapEntry} :
    x.sorted ∈ ys.map MapEntry.sorted ↔ ∃ y ∈ ys, x.key = y.key ∧
    x.value.sorted = y.value.sorted := by
  rw [mem_map]
  refine exists_congr fun y => and_congr_right fun _ => ?_
  rw [MapEntry.sorted, MapEntry.sorted, MapEntry.mk.injEq]
  exact and_congr eq_comm eq_comm

/-- Among distinct keys an entry matches once or not at all. -/
theorem countP_match {x : MapEntry} {ys : List MapEntry} (hkeys : (ys.map MapEntry.key).Nodup)
    (h : ∀ y ∈ ys, eql x.value y.value = true ↔ x.value.sorted = y.value.sorted) :
    (ys.countP fun y => x.key == y.key && eql x.value y.value) = 1 ↔
    x.sorted ∈ ys.map MapEntry.sorted := by
  have hmost : (ys.countP fun y => x.key == y.key && eql x.value y.value) ≤ 1 := by
    calc (ys.countP fun y => x.key == y.key && eql x.value y.value)
        ≤ ys.countP fun y => x.key == y.key :=
          countP_mono_left fun y _ hy => (Bool.and_eq_true _ _ ▸ hy).1
      _ = (ys.map MapEntry.key).count x.key := by
        rw [List.count, countP_map]
        refine countP_congr fun y _ => ?_
        rw [Function.comp, beq_iff_eq, beq_iff_eq, eq_comm]
      _ ≤ 1 := nodup_iff_count_le_one.mp hkeys x.key
  have hsome : 0 < (ys.countP fun y => x.key == y.key && eql x.value y.value) ↔
      x.sorted ∈ ys.map MapEntry.sorted := by
    rw [countP_pos_iff, mem_map_sorted]
    refine exists_congr fun y => and_congr_right fun hy => ?_
    rw [Bool.and_eq_true, beq_iff_eq, h y hy]
  rw [← hsome]
  omega

theorem eqlLargeMaps_iff {xs ys : List MapEntry} (hlength : xs.length = ys.length)
    (hxs : (xs.map MapEntry.key).Nodup) (hys : (ys.map MapEntry.key).Nodup)
    (h : ∀ x ∈ xs, ∀ y ∈ ys, eql x.value y.value = true ↔ x.value.sorted = y.value.sorted) :
    eqlLargeMaps xs ys = true ↔ (Value.map xs).sorted = (Value.map ys).sorted := by
  have hall : eqlLargeMaps xs ys = true ↔ xs.map MapEntry.sorted ⊆ ys.map MapEntry.sorted := by
    rw [eqlLargeMaps_eq, all_eq_true]
    constructor
    · intro hcount entry hentry
      obtain ⟨x, hx, rfl⟩ := mem_map.mp hentry
      exact (countP_match hys (h x hx)).mp (beq_iff_eq.mp (hcount x hx))
    · intro hsubset x hx
      exact beq_iff_eq.mpr ((countP_match hys (h x hx)).mpr (hsubset (mem_map_of_mem hx)))
  have hkeys : ∀ entries : List MapEntry, (entries.map MapEntry.sorted).map MapEntry.key =
      entries.map MapEntry.key := by
    intro entries
    rw [map_map]
    rfl
  rw [hall, Value.sorted, Value.sorted, sortedEntries_eq, sortedEntries_eq, Value.map.injEq]
  constructor
  · intro hsubset
    have hnodup : (xs.map MapEntry.sorted).Nodup :=
      List.Nodup.of_map MapEntry.key (by rw [hkeys]; exact hxs)
    have hperm : (xs.map MapEntry.sorted).Perm (ys.map MapEntry.sorted) :=
      (subperm_of_subset hnodup hsubset).perm_of_length_le (by simp [hlength])
    refine Ascending.ext (sortByKey_ascending (by rw [hkeys]; exact hxs))
      (sortByKey_ascending (by rw [hkeys]; exact hys)) fun entry => ?_
    rw [(sortByKey_perm _ _).mem_iff, (sortByKey_perm _ _).mem_iff, hperm.mem_iff]
  · intro hsorted entry hentry
    rw [← (sortByKey_perm MapEntry.key _).mem_iff, ← hsorted]
    exact (sortByKey_perm _ _).mem_iff.mpr hentry

/-- Deep equality is equality after sorting. -/
theorem eql_iff_sorted (hu : u.WellFormed) (hv : v.WellFormed) :
    eql u v = true ↔ u.sorted = v.sorted := by
  induction hu generalizing v with
  | nil => cases hv <;> simp [eql, Value.sorted]
  | boolean value => cases hv <;> simp [eql, Value.sorted]
  | unsigned value => cases hv <;> simp [eql, Value.sorted]
  | signed value => cases hv <;> simp [eql, Value.sorted]
  | bytes slice => cases hv <;> simp [eql, Value.sorted]
  | string slice utf8 => cases hv <;> simp [eql, Value.sorted]
  | @array items slice each ih =>
    cases hv with
    | @array others slice' each' =>
      rw [eql, Value.sorted, Value.sorted, sortedItems_eq, sortedItems_eq, Value.array.injEq,
        Bool.and_eq_true, beq_iff_eq]
      constructor
      · rintro ⟨hlength, hitems⟩
        exact (eqlItems_eq hlength fun x hx y hy => ih x hx (each' y hy)).mp hitems
      · intro hmap
        have hlength : items.length = others.length := by simpa using congrArg List.length hmap
        exact ⟨hlength, (eqlItems_eq hlength fun x hx y hy => ih x hx (each' y hy)).mpr hmap⟩
    | _ => simp [eql, Value.sorted]
  | @map entries slice keySlices keys each ih =>
    cases hv with
    | @map others slice' keySlices' keys' each' =>
      rw [eql, Bool.and_eq_true, beq_iff_eq]
      constructor
      · rintro ⟨hlength, hmaps⟩
        exact (eqlLargeMaps_iff hlength keys keys' fun x hx y hy => ih x hx (each' y hy)).mp hmaps
      · intro hsorted
        have hlength : entries.length = others.length := by
          rw [Value.sorted_map, Value.sorted_map, Value.map.injEq] at hsorted
          have hlengths := congrArg List.length hsorted
          rwa [length_map, length_map, (sortByKey_perm _ _).length_eq,
            (sortByKey_perm _ _).length_eq] at hlengths
        exact ⟨hlength,
          (eqlLargeMaps_iff hlength keys keys' fun x hx y hy => ih x hx (each' y hy)).mpr hsorted⟩
    | _ => simp [eql, Value.sorted]

theorem encodeItems_sorted {items : List Value}
    (h : ∀ item ∈ items, encodeValue item.sorted = encodeValue item) :
    encodeItems (items.map Value.sorted) = encodeItems items := by
  induction items with
  | nil => rfl
  | cons item items ih =>
    obtain ⟨hitem, hitems⟩ := forall_mem_cons.mp h
    rw [map_cons, encodeItems, encodeItems, hitem, ih hitems]

theorem encodeValue_sorted (h : u.WellFormed) : encodeValue u.sorted = encodeValue u := by
  induction h with
  | nil => rfl
  | boolean value => rfl
  | unsigned value => rfl
  | signed value => rfl
  | bytes slice => rfl
  | string slice utf8 => rfl
  | @array items slice each ih =>
    rw [Value.sorted, sortedItems_eq, encodeValue, encodeValue, encodeItems_sorted ih, length_map]
  | @map entries slice keySlices keys each ih =>
    have hperm := sortByKey_perm MapEntry.key entries
    have hasc : Ascending MapEntry.key ((sortByKey MapEntry.key entries).map MapEntry.sorted) :=
      pairwise_map.mpr (sortByKey_ascending keys)
    have hentries : ((sortByKey MapEntry.key entries).map MapEntry.sorted).map encodeEntry =
        (sortByKey MapEntry.key entries).map encodeEntry := by
      rw [map_map]
      refine map_congr_left fun entry hentry => ?_
      rw [Function.comp, encodeEntry_eq, encodeEntry_eq, MapEntry.sorted, MapEntry.key,
        MapEntry.value, ih entry (hperm.mem_iff.mp hentry)]
    rw [Value.sorted_map, encodeValue, encodeValue, sortByKey_encodeEntries,
      sortByKey_encodeEntries, sortByKey_eq_self hasc, hentries, length_map, hperm.length_eq]

/-- Equal encodings have equal values, up to the order of entries. -/
theorem encodeValue_inj (hu : u.WellFormed) (hv : v.WellFormed)
    (h : encodeValue u = encodeValue v) :
    u.sorted = v.sorted := by
  obtain ⟨bytes, hencode, hread⟩ := hu.reads
  obtain ⟨bytes', hencode', hread'⟩ := hv.reads
  rw [hencode, hencode'] at h
  cases h
  have hfirst :=
    hread (max u.depth v.depth + 1) (maxDecodeValues + 1) [] (by omega) (Or.inr (by omega))
  have hsecond :=
    hread' (max u.depth v.depth + 1) (maxDecodeValues + 1) [] (by omega) (Or.inr (by omega))
  rw [hfirst] at hsecond
  exact (Prod.mk.inj (Except.ok.inj hsecond)).1

theorem eql_iff_encodings (hu : u.WellFormed) (hv : v.WellFormed) :
    eql u v = true ↔ encodeValue u = encodeValue v := by
  rw [eql_iff_sorted hu hv]
  constructor
  · intro hsorted
    rw [← encodeValue_sorted hu, ← encodeValue_sorted hv, hsorted]
  · exact encodeValue_inj hu hv

end Equality

/-- Every length of the value is a 64-bit word, as the length of a slice is. -/
inductive Value.Slices : Value → Prop where
  | nil : Value.Slices .nil
  | boolean (value : Bool) : Value.Slices (.boolean value)
  | unsigned (value : UInt64) : Value.Slices (.unsigned value)
  | signed (value : Int64) : Value.Slices (.signed value)
  | bytes {value : Bytes} (slice : value.length < 2 ^ 64) : Value.Slices (.bytes value)
  | string {value : Bytes} (slice : value.length < 2 ^ 64) : Value.Slices (.string value)
  | array {items : List Value} (slice : items.length < 2 ^ 64)
      (each : ∀ item ∈ items, Value.Slices item) :
      Value.Slices (.array items)
  | map {entries : List MapEntry} (slice : entries.length < 2 ^ 64)
      (keySlices : ∀ entry ∈ entries, entry.key.length < 2 ^ 64)
      (each : ∀ entry ∈ entries, Value.Slices entry.value) : Value.Slices (.map entries)

theorem encodeItems_ok {items : List Value} {body : Bytes} (h : encodeItems items = .ok body) :
    ∀ item ∈ items, ∃ bytes, encodeValue item = .ok bytes := by
  induction items generalizing body with
  | nil => nofun
  | cons item items ih =>
    rw [encodeItems] at h
    split at h
    · cases h
    rename_i head hhead
    split at h
    · cases h
    · next tail htail => exact forall_mem_cons.mpr ⟨⟨head, hhead⟩, ih htail⟩

/-- Of entries in the order of their keys, only those with distinct keys are written. -/
theorem appendSortedMap_ok {previous : Option Bytes}
    {entries : List (Bytes × Except FormatError Bytes)}
    {body : Bytes} (hsorted : entries.Pairwise fun a b => a.1 ≤ b.1)
    (hprevious : ∀ prev ∈ previous, ∀ entry ∈ entries, prev ≤ entry.1)
    (h : appendSortedMap previous entries = .ok body) :
    Ascending Prod.fst entries ∧ (∀ prev ∈ previous, ∀ entry ∈ entries, prev < entry.1) ∧
      ∀ entry ∈ entries, ∃ bytes, entry.2 = .ok bytes := by
  induction entries generalizing previous body with
  | nil => exact ⟨.nil, nofun, nofun⟩
  | cons entry entries ih =>
    obtain ⟨key, value⟩ := entry
    obtain ⟨hfirst, hrest⟩ := pairwise_cons.mp hsorted
    rw [appendSortedMap.eq_def] at h
    simp only at h
    split at h
    · cases h
    rename_i hne
    split at h
    · cases h
    rename_i bytes
    split at h
    · cases h
    rename_i tail htail
    obtain ⟨hasc, hafter, hvalues⟩ := ih hrest (fun prev hprev entry hentry => by
      obtain rfl := Option.mem_some_iff.mp hprev
      exact hfirst entry hentry) htail
    have hless : ∀ prev ∈ previous, prev < key := by
      intro prev hprev
      refine lt_of_le_of_ne (hprevious prev hprev _ mem_cons_self) ?_
      rintro rfl
      exact hne hprev
    have hkey : ∀ entry ∈ entries, key < entry.1 := fun entry hentry => hafter key rfl entry hentry
    refine ⟨ascending_cons.mpr ⟨hkey, hasc⟩, fun prev hprev => ?_,
      forall_mem_cons.mpr ⟨⟨bytes, rfl⟩, hvalues⟩⟩
    exact forall_mem_cons.mpr
      ⟨hless prev hprev, fun entry hentry => (hless prev hprev).trans (hkey entry hentry)⟩

variable {value : Value} {bytes : Bytes}

theorem Value.Slices.wellFormed (h : value.Slices)
    (hencode : encodeValue value = .ok bytes) : value.WellFormed := by
  induction h generalizing bytes with
  | nil => exact .nil
  | boolean value => exact .boolean value
  | unsigned value => exact .unsigned value
  | signed value => exact .signed value
  | bytes slice => exact .bytes slice
  | @string value slice =>
    rw [encodeValue] at hencode
    split_ifs at hencode
    · next hutf8 => exact .string slice (by simpa using hutf8)
  | @array items slice each ih =>
    rw [encodeValue] at hencode
    split at hencode
    · cases hencode
    rename_i body hbody
    refine .array slice fun item hitem => ?_
    obtain ⟨bytes, hbytes⟩ := encodeItems_ok hbody item hitem
    exact ih item hitem hbytes
  | @map entries slice keySlices each ih =>
    rw [encodeValue] at hencode
    split at hencode
    · cases hencode
    rename_i body hbody
    have hperm := sortByKey_perm Prod.fst (encodeEntries entries)
    obtain ⟨hasc, -, hvalues⟩ := appendSortedMap_ok (sortByKey_sorted _ _) (by simp) hbody
    have hkeys : (entries.map MapEntry.key).Nodup := by
      have hnodup := pairwise_map.mpr (hasc.imp fun hab => ne_of_lt hab)
      have hmap := ((hperm.map Prod.fst).nodup_iff).mp hnodup
      rw [encodeEntries_eq, map_map] at hmap
      rwa [← funext encodeEntry_fst]
    refine .map slice keySlices hkeys fun entry hentry => ?_
    have hmem : encodeEntry entry ∈ sortByKey Prod.fst (encodeEntries entries) := by
      rw [hperm.mem_iff, encodeEntries_eq]
      exact mem_map_of_mem hentry
    obtain ⟨bytes, hbytes⟩ := hvalues _ hmem
    rw [encodeEntry_eq] at hbytes
    exact ih entry hentry hbytes

theorem decode_encodeValue (hwell : value.WellFormed) (hdepth : value.depth ≤ maxDecodeDepth)
    (hnodes : value.nodes ≤ maxDecodeValues) :
    ∃ bytes, encodeValue value = .ok bytes ∧ decode bytes = .ok value.sorted := by
  obtain ⟨bytes, hbytes, hread⟩ := hwell.reads
  have hok := hread (maxDecodeDepth + 1) 0 [] (by omega) (Or.inl (by omega))
  rw [append_nil] at hok
  refine ⟨bytes, hbytes, ?_⟩
  rw [decode, hok]
  rfl

theorem decode_written (h : decode bytes = .ok value) :
    Written (maxDecodeDepth + 1) ⟨bytes, 0⟩ ⟨[], value.nodes⟩ value := by
  rw [decode] at h
  split at h
  · cases h
  rename_i read decoder hread
  split_ifs at h with hrest
  cases h
  have hwritten := readValue_ok (Nat.zero_le _) hread
  have hdecoder : decoder = ⟨[], value.nodes⟩ := by
    have hnodes := hwritten.nodes
    obtain ⟨input, seen⟩ := decoder
    simp only [Nat.zero_add, not_not] at hnodes hrest
    rw [hnodes, hrest]
  rw [← hdecoder]
  exact hwritten

theorem encodeValue_decode (h : decode bytes = .ok value) :
    encodeValue value = .ok bytes := by
  obtain ⟨written, hwritten, hbytes⟩ := (decode_written h).encodes
  rw [append_nil] at hbytes
  rw [hwritten, ← hbytes]

/-- CoilPack is canonical. Within the limits of the decoder every well-formed value is
encoded and read back with its maps sorted, and what is read is encoded to the octets it
was read from, so the decoder accepts the encodings of those values and nothing else. Two
values that are encoded are equal if and only if their encodings are. -/
theorem coilpack_canonical :
    (∀ value : Value, value.WellFormed → value.depth ≤ maxDecodeDepth →
      value.nodes ≤ maxDecodeValues →
      ∃ bytes, encodeValue value = .ok bytes ∧ decode bytes = .ok value.sorted) ∧
    (∀ (bytes : Bytes) (value : Value), decode bytes = .ok value → encodeValue value = .ok bytes) ∧
    (∀ bytes : Bytes, (∃ value, decode bytes = .ok value) ↔
      ∃ value : Value, value.WellFormed ∧ value.depth ≤ maxDecodeDepth ∧
      value.nodes ≤ maxDecodeValues ∧ encodeValue value = .ok bytes) ∧
    ∀ (u v : Value) (a b : Bytes), u.Slices → v.Slices → encodeValue u = .ok a →
    encodeValue v = .ok b →
      (eql u v = true ↔ a = b) := by
  refine ⟨fun value => decode_encodeValue, fun bytes value => encodeValue_decode, ?_, ?_⟩
  · intro bytes
    constructor
    · rintro ⟨value, h⟩
      have hwritten := decode_written h
      exact ⟨value, hwritten.wellFormed, Nat.le_of_lt_succ hwritten.depth, hwritten.bound,
        encodeValue_decode h⟩
    · rintro ⟨value, hwell, hdepth, hnodes, hbytes⟩
      obtain ⟨written, hencoded, hok⟩ := decode_encodeValue hwell hdepth hnodes
      obtain rfl := Except.ok.inj (hbytes.symm.trans hencoded)
      exact ⟨value.sorted, hok⟩
  · intro u v a b hu hv ha hb
    rw [eql_iff_encodings (hu.wellFormed ha) (hv.wellFormed hb), ha, hb, Except.ok.injEq]

/-- A map whose keys are out of order. -/
theorem coilpack_canonical_unordered :
    ∃ bytes,
      encodeValue
        (.map [.mk [98] (.unsigned 300), .mk [97] (.array [.string [120], .signed (-1)])]) =
        .ok bytes ∧
      decode bytes =
        .ok (.map [.mk [97] (.array [.string [120], .signed (-1)]), .mk [98] (.unsigned 300)]) ∧
      encodeValue
        (.map [.mk [97] (.array [.string [120], .signed (-1)]), .mk [98] (.unsigned 300)]) =
        .ok bytes := by
  have harray : (Value.array [.string [120], .signed (-1)]).WellFormed := by
    refine .array (by decide) (forall_mem_cons.mpr ⟨.string (by decide) (by decide), ?_⟩)
    exact forall_mem_cons.mpr ⟨.signed _, nofun⟩
  have hwell :
      (Value.map [.mk [98] (.unsigned 300),
      .mk [97] (.array [.string [120], .signed (-1)])]).WellFormed := by
    refine .map (by decide) (by decide) (by decide) (forall_mem_cons.mpr ⟨.unsigned _, ?_⟩)
    exact forall_mem_cons.mpr ⟨harray, nofun⟩
  obtain ⟨bytes, hencode, hdecode⟩ := coilpack_canonical.1 _ hwell (by decide) (by decide)
  exact ⟨bytes, hencode, hdecode, coilpack_canonical.2.1 bytes _ hdecode⟩

end OnyxServer.Coilpack
