import OnyxServer.ReplayGuard.Window

/-!
# Checkpoints of the replay guard

The canonical byte form of a guard and its strict decoder. Origins are written in
ascending key order whatever the order of the table; a restore of the bytes finds
the same state under every key.
-/
namespace OnyxServer.ReplayGuard

open Lib List

inductive CheckpointError where
  | outOfMemory
  | badMagic
  | unsupportedVersion
  | invalidConfig
  | configMismatch
  | capacityExceeded
  | checkpointTooLarge
  | truncated
  | trailingBytes
  | checksumMismatch
  | duplicateOrigin
  | duplicateHlc
  | nonCanonicalOrder
  | invalidWatermark
  | invalidField
  deriving DecidableEq

def Config.eql (a b : Config) : Bool :=
  a.windowSize == b.windowSize && a.maxOrigins == b.maxOrigins

/-- "RVG2" -/
def magic : Bytes := [0x52, 0x56, 0x47, 0x32]
def checkpointVersion : UInt8 := 1
def checkpointHeaderLen : Nat := 19
def checksumLen : Nat := 32
def originPrefixLen : Nat := 32 + 1 + 8 + 2
def checkpointEntryLen : Nat := 8 + 16

/-- "onyx-relay-v2-replay-checkpoint-v1" -/
def checkpointChecksumDomain : Bytes :=
  "onyx-relay-v2-replay-checkpoint-v1".toUTF8.toList

/-- The hash is the only code outside the repository a checkpoint uses. -/
abbrev Blake3 := Bytes → FixedBytes 32

def checkpointChecksum (blake3 : Blake3) (pre : Bytes) : FixedBytes 32 :=
  blake3 (checkpointChecksumDomain ++ pre)

def encodeEntry (entry : Entry) : Bytes := beBytes 8 entry.hlc.toNat ++ entry.relayId.val

def encodeOrigin (pubkey : PublicKey) (origin : OriginState) : Bytes :=
  pubkey.val ++ ((if origin.retiredThroughHlc.isSome then 1 else 0) ::
    (beBytes 8 (origin.retiredThroughHlc.getD 0).toNat ++
      (beBytes 2 origin.entries.length ++ origin.entries.flatMap encodeEntry)))

def encodeOrigins (ordered : List (Sigma fun _ : PublicKey => OriginState)) : Bytes :=
  ordered.flatMap fun origin => encodeOrigin origin.1 origin.2

/-- The sizing loop over the table, in table order. -/
def measureOrigins (windowSize : Nat) :
    List (Sigma fun _ : PublicKey => OriginState) → Nat → Except CheckpointError Nat
  | [], bodyLen => .ok bodyLen
  | entry :: rest, bodyLen =>
    let count := entry.2.entries.length
    if count = 0 ∨ windowSize < count then .error .invalidField
    else
      match checkedMul count checkpointEntryLen with
      | none => .error .checkpointTooLarge
      | some entryBytes =>
        match checkedAdd bodyLen (originPrefixLen + entryBytes) with
        | none => .error .checkpointTooLarge
        | some bodyLen =>
          if hardMaxCheckpointBytes < bodyLen then .error .checkpointTooLarge
          else measureOrigins windowSize rest bodyLen

/-- The table in ascending key order. -/
def orderedOrigins (guard : Guard) : List (Sigma fun _ : PublicKey => OriginState) :=
  sortByKey Sigma.fst guard.origins.entries

def encodePrefix (config : Config) (ordered : List (Sigma fun _ : PublicKey => OriginState))
    (bodyLen : Nat) : Bytes :=
  magic ++ (checkpointVersion ::
    (beBytes 2 config.windowSize ++ (beBytes 4 config.maxOrigins ++
      (beBytes 4 ordered.length ++ (beBytes 4 bodyLen ++ encodeOrigins ordered)))))

def Guard.encodeCheckpoint (blake3 : Blake3) (guard : Guard) (alloc : Allocator) :
    Except CheckpointError Bytes :=
  if guard.config.maxOrigins < guard.count then .error .capacityExceeded
  else if !alloc 0 then .error .outOfMemory
  else
    match measureOrigins guard.config.windowSize guard.origins.entries 0 with
    | .error e => .error e
    | .ok bodyLen =>
      match checkedAdd checkpointHeaderLen bodyLen with
      | none => .error .checkpointTooLarge
      | some prefixLen =>
        match checkedAdd prefixLen checksumLen with
        | none => .error .checkpointTooLarge
        | some totalLen =>
          if hardMaxCheckpointBytes < totalLen then .error .checkpointTooLarge
          else if !alloc 1 then .error .outOfMemory
          else
            let pre := encodePrefix guard.config (orderedOrigins guard) bodyLen
            .ok (pre ++ (checkpointChecksum blake3 pre).val)

def decodeEntries (retired : Option UInt64) :
    Nat → Option UInt64 → Bytes → Except CheckpointError (List Entry × Bytes)
  | 0, _, rest => .ok ([], rest)
  | count + 1, previousHlc, rest =>
    let hlc := UInt64.ofNat (beNat (rest.take 8))
    let relayId : RelayId := FixedBytes.ofSlice 16 (rest.drop 8)
    if retires retired hlc then .error .invalidWatermark
    else if previousHlc = some hlc then .error .duplicateHlc
    else if previousHlc.any (fun previous => decide (hlc < previous)) then
      .error .nonCanonicalOrder
    else
      match decodeEntries retired count (some hlc) (rest.drop 24) with
      | .error e => .error e
      | .ok (entries, rest) => .ok (⟨hlc, relayId⟩ :: entries, rest)

/-- One origin of the body; `fits` answers the reservation of its window. -/
def decodeOrigin (config : Config) (previous : Option PublicKey) (fits : Bool) (rest : Bytes) :
    Except CheckpointError (PublicKey × OriginState × Bytes) :=
  if rest.length < originPrefixLen then .error .truncated
  else
    let pubkey : PublicKey := FixedBytes.ofSlice 32 rest
    if previous = some pubkey then .error .duplicateOrigin
    else if previous.any (fun key => !decide (key < pubkey)) then .error .nonCanonicalOrder
    else
      let retiredPresent := (rest.drop 32).headD 0
      if 1 < retiredPresent then .error .invalidField
      else
        let retiredRaw := UInt64.ofNat (beNat (slice rest 33 41))
        if retiredPresent = 0 ∧ retiredRaw ≠ 0 then .error .invalidWatermark
        else
          let retired := if retiredPresent = 1 then some retiredRaw else none
          let entryCount := beNat (slice rest 41 43)
          if entryCount = 0 ∨ config.windowSize < entryCount then .error .capacityExceeded
          else
            match checkedMul entryCount checkpointEntryLen with
            | none => .error .checkpointTooLarge
            | some entriesBytes =>
              if (rest.drop originPrefixLen).length < entriesBytes then .error .truncated
              else if !fits then .error .outOfMemory
              else
                match decodeEntries retired entryCount none (rest.drop originPrefixLen) with
                | .error e => .error e
                | .ok (entries, rest) =>
                  .ok (pubkey, { retiredThroughHlc := retired, entries }, rest)

def decodeOrigins (config : Config) (alloc : Allocator) :
    Nat → Nat → Option PublicKey → (AList fun _ : PublicKey => OriginState) → Bytes →
      Except CheckpointError ((AList fun _ : PublicKey => OriginState) × Bytes)
  | 0, _, _, restored, rest => .ok (restored, rest)
  | count + 1, site, previous, restored, rest =>
    match decodeOrigin config previous (alloc site) rest with
    | .error e => .error e
    | .ok (pubkey, origin, rest) =>
      decodeOrigins config alloc count (site + 1) (some pubkey) (restored.insert pubkey origin) rest

def decodeCheckpoint (blake3 : Blake3) (expected : Config) (bytes : Bytes) (alloc : Allocator) :
    Except CheckpointError Guard :=
  if !expected.valid then .error .invalidConfig
  else if bytes.length < checkpointHeaderLen + checksumLen then .error .truncated
  else if bytes.take 4 ≠ magic then .error .badMagic
  else if slice bytes 4 5 ≠ [checkpointVersion] then .error .unsupportedVersion
  else
    let encoded : Config :=
      { windowSize := beNat (slice bytes 5 7), maxOrigins := beNat (slice bytes 7 11) }
    if !encoded.valid then .error .invalidConfig
    else if !encoded.eql expected then .error .configMismatch
    else
      let originCount := beNat (slice bytes 11 15)
      let bodyLen := beNat (slice bytes 15 19)
      if expected.maxOrigins < originCount then .error .capacityExceeded
      else if hardMaxCheckpointBytes < bodyLen then .error .checkpointTooLarge
      else
        match checkedAdd checkpointHeaderLen bodyLen with
        | none => .error .checkpointTooLarge
        | some prefixLen =>
          match checkedAdd prefixLen checksumLen with
          | none => .error .checkpointTooLarge
          | some expectedLen =>
            if hardMaxCheckpointBytes < expectedLen then .error .checkpointTooLarge
            else if bytes.length < expectedLen then .error .truncated
            else if expectedLen < bytes.length then .error .trailingBytes
            else if (checkpointChecksum blake3 (bytes.take prefixLen)).val ≠ bytes.drop prefixLen
            then .error .checksumMismatch
            else
              match Guard.init expected with
              | none => .error .invalidConfig
              | some empty =>
                if !alloc 0 then .error .outOfMemory
                else
                  match decodeOrigins expected alloc originCount 1 none empty.origins
                      (slice bytes checkpointHeaderLen prefixLen) with
                  | .error e => .error e
                  | .ok (origins, rest) =>
                    if rest ≠ [] then .error .trailingBytes else .ok { empty with origins }

/-! ## Restoring what was sealed -/

@[simp] theorem encodeEntry_length (entry : Entry) : (encodeEntry entry).length = 24 := by
  simp [encodeEntry, entry.relayId.property]

theorem flatMap_encodeEntry_length (entries : List Entry) :
    (entries.flatMap encodeEntry).length = entries.length * checkpointEntryLen := by
  induction entries with
  | nil => rfl
  | cons entry entries ih =>
    simp only [flatMap_cons, length_append, encodeEntry_length, ih, length_cons]
    simp only [checkpointEntryLen]
    omega

theorem encodeOrigin_length (pubkey : PublicKey) (origin : OriginState) :
    (encodeOrigin pubkey origin).length =
      originPrefixLen + origin.entries.length * checkpointEntryLen := by
  simp only [encodeOrigin, length_append, length_cons, beBytes_length,
    flatMap_encodeEntry_length, pubkey.property, originPrefixLen]
  omega

theorem decodeEntries_encodeEntry {retired : Option UInt64} {entries : List Entry} (tail : Bytes)
    (hasc : Ascending Entry.hlc entries) (habove : ∀ entry ∈ entries, Above retired entry.hlc) :
    ∀ previous : Option UInt64, (∀ entry ∈ entries, Above previous entry.hlc) →
      decodeEntries retired entries.length previous (entries.flatMap encodeEntry ++ tail) =
        .ok (entries, tail) := by
  induction entries with
  | nil => intro _ _; rfl
  | cons entry entries ih =>
    intro previous hprev
    obtain ⟨hfirst, hrest⟩ := ascending_cons.mp hasc
    have hhlc : UInt64.ofNat (beNat (((entry :: entries).flatMap encodeEntry ++ tail).take 8)) =
        entry.hlc := by
      simp only [flatMap_cons, encodeEntry, append_assoc]
      rw [take_left' (beBytes_length _ _), u64_read]
    have hid : FixedBytes.ofSlice 16 (((entry :: entries).flatMap encodeEntry ++ tail).drop 8) =
        entry.relayId := by
      simp only [flatMap_cons, encodeEntry, append_assoc]
      rw [drop_left' (beBytes_length _ _), FixedBytes.ofSlice_append]
    have hdrop : ((entry :: entries).flatMap encodeEntry ++ tail).drop 24 =
        entries.flatMap encodeEntry ++ tail := by
      rw [flatMap_cons, append_assoc, drop_left' (encodeEntry_length entry)]
    have hlive := not_retires_of_above (habove entry mem_cons_self)
    obtain ⟨hne, horder, -⟩ := order_checks (hprev entry mem_cons_self)
    have hnext := ih hrest (fun e he => habove e (mem_cons_of_mem _ he)) (some entry.hlc)
      (fun e he w hw => Option.some.inj hw ▸ hfirst e he)
    simp only [length_cons, decodeEntries, hhlc, hid, hdrop, hlive, hne, horder, hnext]
    simp

section Origin

variable {config : Config} {pubkey : PublicKey} {origin : OriginState}
  {previous : Option PublicKey}

theorem decodeOrigin_encodeOrigin (hvalid : config.valid = true) (hwf : origin.Wf config.windowSize)
    (hprev : ∀ key, previous = some key → key < pubkey) (fits : Bool) (tail : Bytes) :
    decodeOrigin config previous fits (encodeOrigin pubkey origin ++ tail) =
      if fits then .ok (pubkey, origin, tail) else .error .outOfMemory := by
  have hwindow := (Config.valid_iff.mp hvalid).1.2
  unfold hardMaxWindowSize at hwindow
  have hlen := encodeOrigin_length pubkey origin
  have hpos := hwf.nonempty
  have hmax := hwf.bounded
  have hkey : FixedBytes.ofSlice 32 (encodeOrigin pubkey origin ++ tail) = pubkey := by
    rw [encodeOrigin, append_assoc, FixedBytes.ofSlice_append]
  have hshort : ¬ (encodeOrigin pubkey origin ++ tail).length < originPrefixLen := by
    rw [length_append, hlen]
    omega
  obtain ⟨hne, -, horder⟩ := order_checks hprev
  have hbody : ∃ flag, flag = (if origin.retiredThroughHlc.isSome then (1 : UInt8) else 0) ∧
      encodeOrigin pubkey origin ++ tail = pubkey.val ++ ([flag] ++
        (beBytes 8 (origin.retiredThroughHlc.getD 0).toNat ++
          (beBytes 2 origin.entries.length ++ (origin.entries.flatMap encodeEntry ++ tail)))) :=
    ⟨_, rfl, by simp [encodeOrigin]⟩
  obtain ⟨flag, hflag, hbody⟩ := hbody
  have hpk := pubkey.property
  have hhead : ((encodeOrigin pubkey origin ++ tail).drop 32).headD 0 = flag := by
    rw [hbody, drop_left' hpk]
    rfl
  have hraw : slice (encodeOrigin pubkey origin ++ tail) 33 41 =
      beBytes 8 (origin.retiredThroughHlc.getD 0).toNat :=
    slice_field (l := pubkey.val ++ [flag]) (by rw [hbody, append_assoc]) (by simp [hpk])
      (by simp)
  have hcount : slice (encodeOrigin pubkey origin ++ tail) 41 43 =
      beBytes 2 origin.entries.length :=
    slice_field (l := pubkey.val ++ ([flag] ++ beBytes 8 (origin.retiredThroughHlc.getD 0).toNat))
      (by rw [hbody, append_assoc, append_assoc]) (by simp [hpk]) (by simp)
  have hdrop : (encodeOrigin pubkey origin ++ tail).drop originPrefixLen =
      origin.entries.flatMap encodeEntry ++ tail := by
    rw [hbody, ← append_assoc, ← append_assoc, ← append_assoc]
    apply drop_left'
    simp [hpk, originPrefixLen]
  have hn : beNat (beBytes 2 origin.entries.length) = origin.entries.length :=
    beNat_beBytes (by omega)
  have hmul : checkedMul origin.entries.length checkpointEntryLen =
      some (origin.entries.length * checkpointEntryLen) :=
    checkedMul_some (by simp only [checkpointEntryLen, usizeLimit]; omega)
  have hroom : ¬ (origin.entries.flatMap encodeEntry ++ tail).length <
      origin.entries.length * checkpointEntryLen := by
    rw [length_append, flatMap_encodeEntry_length]
    omega
  have hentries := decodeEntries_encodeEntry tail hwf.ascending hwf.above none
    (fun e he w hw => by cases hw)
  have hcnt : ¬ (origin.entries.length = 0 ∨ config.windowSize < origin.entries.length) := by omega
  simp only [decodeOrigin, hkey, hhead, hraw, hcount, hn, hdrop, u64_read, hmul, hroom,
    if_neg hshort, if_neg hne, horder, if_neg hcnt]
  obtain ⟨_ | w, entries⟩ := origin
  · simp only [Option.isSome_none, Bool.false_eq_true, ↓reduceIte] at hflag
    subst hflag
    cases fits <;> simp [hentries]
  · simp only [Option.isSome_some, ↓reduceIte] at hflag
    subst hflag
    cases fits <;> simp [hentries]

end Origin

/-- Sizing measures the body, and refuses it exactly when it is too large. -/
theorem measureOrigins_eq {windowSize : Nat} (hwindow : windowSize ≤ hardMaxWindowSize) :
    ∀ (table : List (Sigma fun _ : PublicKey => OriginState)) (bodyLen : Nat),
      (∀ entry ∈ table, entry.2.Wf windowSize) → bodyLen ≤ hardMaxCheckpointBytes →
      measureOrigins windowSize table bodyLen =
        if hardMaxCheckpointBytes < bodyLen + (encodeOrigins table).length then
          .error .checkpointTooLarge
        else .ok (bodyLen + (encodeOrigins table).length) := by
  intro table
  induction table with
  | nil =>
    intro bodyLen _ hle
    simp [measureOrigins, encodeOrigins, Nat.not_lt.mpr hle]
  | cons entry table ih =>
    intro bodyLen hwf hle
    have hentry := hwf entry mem_cons_self
    have hcount : ¬ (entry.2.entries.length = 0 ∨ windowSize < entry.2.entries.length) := by
      have := hentry.nonempty
      have := hentry.bounded
      omega
    have hsmall : entry.2.entries.length * checkpointEntryLen ≤ 4096 * 24 :=
      Nat.mul_le_mul (hentry.bounded.trans hwindow) (Nat.le_refl 24)
    have hmul := checkedMul_some (a := entry.2.entries.length) (b := checkpointEntryLen)
      (by unfold usizeLimit; omega)
    have hadd := checkedAdd_some (a := bodyLen)
      (b := originPrefixLen + entry.2.entries.length * checkpointEntryLen)
      (by unfold usizeLimit; unfold hardMaxCheckpointBytes at hle; unfold originPrefixLen; omega)
    have hlen : (encodeOrigins (entry :: table)).length =
        (originPrefixLen + entry.2.entries.length * checkpointEntryLen) +
          (encodeOrigins table).length := by
      simp only [encodeOrigins, flatMap_cons, length_append, encodeOrigin_length]
    simp only [measureOrigins, if_neg hcount, hmul, hadd, hlen]
    split
    · rename_i hbig
      rw [if_pos (by omega)]
    · rename_i hfits
      rw [ih _ (fun e he => hwf e (mem_cons_of_mem _ he)) (by omega), Nat.add_assoc]

theorem decodeOrigins_encodeOrigins {config : Config} (hvalid : config.valid = true)
    (alloc : Allocator) {ordered : List (Sigma fun _ : PublicKey => OriginState)}
    (hasc : Ascending Sigma.fst ordered) (hwf : ∀ entry ∈ ordered, entry.2.Wf config.windowSize) :
    ∀ (site : Nat) (previous : Option PublicKey)
    (restored : AList fun _ : PublicKey => OriginState),
      (∀ key, previous = some key → ∀ entry ∈ ordered, key < entry.1) →
      decodeOrigins config alloc ordered.length site previous restored (encodeOrigins ordered) =
          .error .outOfMemory ∨
      decodeOrigins config alloc ordered.length site previous restored (encodeOrigins ordered) =
          .ok (ordered.foldl (fun table entry => table.insert entry.1 entry.2) restored, []) := by
  induction ordered with
  | nil =>
    intro _ _ _ _
    exact Or.inr rfl
  | cons entry ordered ih =>
    intro site previous restored hprev
    obtain ⟨hfirst, hrest⟩ := ascending_cons.mp hasc
    have horigin := decodeOrigin_encodeOrigin hvalid (hwf entry mem_cons_self)
      (fun key hkey => hprev key hkey entry mem_cons_self) (alloc site)
      (encodeOrigins ordered)
    have happend : encodeOrigins (entry :: ordered) =
        encodeOrigin entry.1 entry.2 ++ encodeOrigins ordered := flatMap_cons
    simp only [length_cons, decodeOrigins, happend, horigin]
    cases alloc site with
    | false => exact Or.inl rfl
    | true =>
      exact ih hrest (fun e he => hwf e (mem_cons_of_mem _ he)) (site + 1) (some entry.1)
        (restored.insert entry.1 entry.2) (fun key hkey e he => Option.some.inj hkey ▸ hfirst e he)

/-- Equal up to the order of the table. -/
structure Guard.Same (a b : Guard) : Prop where
  config : a.config = b.config
  lookup : ∀ key, a.origins.lookup key = b.origins.lookup key

theorem Guard.Same.perm {a b : Guard} (h : a.Same b) :
    a.origins.entries.Perm b.origins.entries :=
  lookup_ext a.origins.nodupKeys b.origins.nodupKeys fun key origin => by
    have hkey := h.lookup key
    simp only [AList.lookup] at hkey
    rw [hkey]

theorem Guard.Same.wf {a b : Guard} (h : a.Same b) (hwf : a.Wf) : b.Wf := by
  refine ⟨h.config ▸ hwf.valid, ?_, fun key origin hkey => ?_⟩
  · have hlen := h.perm.length_eq
    have hcap := hwf.capacity
    rw [Guard.count, ← hlen, ← h.config]
    exact hcap
  · rw [← h.lookup] at hkey
    rw [← h.config]
    exact hwf.origins key origin hkey

theorem orderedOrigins_ascending (guard : Guard) : Ascending Sigma.fst (orderedOrigins guard) :=
  sortByKey_ascending guard.origins.keys_nodup

variable {guard : Guard} {entry : Sigma fun _ : PublicKey => OriginState}

theorem mem_orderedOrigins :
    entry ∈ orderedOrigins guard ↔ entry ∈ guard.origins.entries :=
  (sortByKey_perm _ _).mem_iff

theorem Guard.Wf.of_mem (hwf : guard.Wf)
    (h : entry ∈ guard.origins.entries) :
    entry.2.Wf guard.config.windowSize :=
  hwf.origins entry.1 entry.2 (AList.mem_lookup_iff.mpr h)

/-- The sealed bytes do not depend on the order of the table. -/
theorem Guard.Same.orderedOrigins {a b : Guard} (h : a.Same b) :
    orderedOrigins a = ReplayGuard.orderedOrigins b :=
  (orderedOrigins_ascending a).ext (orderedOrigins_ascending b) fun entry => by
    rw [mem_orderedOrigins, mem_orderedOrigins, h.perm.mem_iff]

def Guard.body (guard : Guard) : Bytes := encodeOrigins (orderedOrigins guard)

def Guard.sealedPrefix (guard : Guard) : Bytes :=
  encodePrefix guard.config (orderedOrigins guard) guard.body.length

/-- Encoding fails on size or memory only. -/
theorem encodeCheckpoint_eq (blake3 : Blake3) (hwf : guard.Wf) (alloc : Allocator) :
    guard.encodeCheckpoint blake3 alloc =
      if !alloc 0 then .error .outOfMemory
      else if hardMaxCheckpointBytes < checkpointHeaderLen + guard.body.length + checksumLen then
        .error .checkpointTooLarge
      else if !alloc 1 then .error .outOfMemory
      else .ok (guard.sealedPrefix ++ (checkpointChecksum blake3 guard.sealedPrefix).val) := by
  have hlen : (encodeOrigins guard.origins.entries).length = guard.body.length :=
    ((sortByKey_perm Sigma.fst guard.origins.entries).symm.flatMap_right _).length_eq
  have hmeasure := measureOrigins_eq (Config.valid_iff.mp hwf.valid).1.2 guard.origins.entries 0
    (fun entry h => hwf.of_mem h) (Nat.zero_le _)
  rw [hlen, Nat.zero_add] at hmeasure
  simp only [Guard.encodeCheckpoint, if_neg (Nat.not_lt.mpr hwf.capacity), hmeasure]
  cases alloc 0 with
  | false => rfl
  | true =>
    by_cases hbig : hardMaxCheckpointBytes < guard.body.length
    · have hbigger : hardMaxCheckpointBytes <
          checkpointHeaderLen + guard.body.length + checksumLen := by omega
      simp [hbig, hbigger]
    unfold hardMaxCheckpointBytes at hbig
    have hpre := checkedAdd_some (a := checkpointHeaderLen) (b := guard.body.length)
      (by unfold checkpointHeaderLen usizeLimit; omega)
    have htotal := checkedAdd_some (a := checkpointHeaderLen + guard.body.length)
      (b := checksumLen) (by unfold checkpointHeaderLen checksumLen usizeLimit; omega)
    have hsmall : ¬ hardMaxCheckpointBytes < guard.body.length := hbig
    simp only [if_neg hsmall, hpre, htotal]
    rfl

theorem lookup_foldl_insert (ordered : List (Sigma fun _ : PublicKey => OriginState))
    (hasc : Ascending Sigma.fst ordered) (table : AList fun _ : PublicKey => OriginState)
    (key : PublicKey) :
    (ordered.foldl (fun table entry => table.insert entry.1 entry.2) table).lookup key =
      (ordered.dlookup key).or (table.lookup key) := by
  induction ordered generalizing table with
  | nil => rfl
  | cons entry ordered ih =>
    obtain ⟨hfirst, hrest⟩ := ascending_cons.mp hasc
    rw [foldl_cons, ih hrest]
    by_cases hkey : key = entry.1
    · subst hkey
      have hnone : ordered.dlookup entry.1 = none := by
        rw [dlookup_eq_none]
        intro hmem
        obtain ⟨other, hother, heq⟩ := mem_map.mp hmem
        exact absurd (heq ▸ hfirst other hother) (lt_irrefl _)
      rw [hnone, AList.lookup_insert, dlookup_cons_eq]
      rfl
    · rw [AList.lookup_insert_ne hkey, dlookup_cons_ne _ _ hkey]

theorem encodePrefix_length (config : Config)
    (ordered : List (Sigma fun _ : PublicKey => OriginState)) (bodyLen : Nat) :
    (encodePrefix config ordered bodyLen).length =
      checkpointHeaderLen + (encodeOrigins ordered).length := by
  simp only [encodePrefix, length_append, length_cons, beBytes_length, magic,
    length_nil, checkpointHeaderLen]
  omega

theorem sealedPrefix_header (hwf : guard.Wf)
    (hsize : guard.body.length ≤ hardMaxCheckpointBytes) (sum : Bytes) :
    let bytes := guard.sealedPrefix ++ sum
    bytes.take 4 = magic ∧ slice bytes 4 5 = [checkpointVersion] ∧
      beNat (slice bytes 5 7) = guard.config.windowSize ∧
      beNat (slice bytes 7 11) = guard.config.maxOrigins ∧
      beNat (slice bytes 11 15) = (orderedOrigins guard).length ∧
      beNat (slice bytes 15 19) = guard.body.length ∧
      slice bytes checkpointHeaderLen (checkpointHeaderLen + guard.body.length) = guard.body := by
  intro bytes
  obtain ⟨⟨-, hwindow⟩, -, horigins⟩ := Config.valid_iff.mp hwf.valid
  have hcap := hwf.capacity
  have hcount : (orderedOrigins guard).length = guard.count :=
    (sortByKey_perm Sigma.fst guard.origins.entries).length_eq
  unfold hardMaxWindowSize at hwindow
  unfold hardMaxOrigins at horigins
  unfold hardMaxCheckpointBytes at hsize
  let wBytes := beBytes 2 guard.config.windowSize
  let mBytes := beBytes 4 guard.config.maxOrigins
  let cBytes := beBytes 4 (orderedOrigins guard).length
  let bBytes := beBytes 4 guard.body.length
  have hbytes : bytes = magic ++ ([checkpointVersion] ++ (wBytes ++ (mBytes ++ (cBytes ++
      (bBytes ++ (guard.body ++ sum)))))) := by
    simp [bytes, Guard.sealedPrefix, encodePrefix, wBytes, mBytes, cBytes, bBytes, Guard.body]
  have hw : slice bytes 5 7 = wBytes :=
    slice_field (l := magic ++ [checkpointVersion]) (by rw [hbytes, append_assoc]) rfl
      (by simp [wBytes])
  have hm : slice bytes 7 11 = mBytes :=
    slice_field (l := magic ++ ([checkpointVersion] ++ wBytes))
      (by rw [hbytes]; iterate 2 rw [append_assoc]) (by simp [wBytes, magic]) (by simp [mBytes])
  have hc : slice bytes 11 15 = cBytes :=
    slice_field (l := magic ++ ([checkpointVersion] ++ (wBytes ++ mBytes)))
      (by rw [hbytes]; iterate 3 rw [append_assoc]) (by simp [wBytes, mBytes, magic])
      (by simp [cBytes])
  have hb : slice bytes 15 19 = bBytes :=
    slice_field (l := magic ++ ([checkpointVersion] ++ (wBytes ++ (mBytes ++ cBytes))))
      (by rw [hbytes]; iterate 4 rw [append_assoc]) (by simp [wBytes, mBytes, cBytes, magic])
      (by simp [bBytes])
  refine ⟨?_, ?_, ?_, ?_, ?_, ?_, ?_⟩
  · rw [hbytes]
    rfl
  · rw [hbytes]
    rfl
  · rw [hw, beNat_beBytes (by omega)]
  · rw [hm, beNat_beBytes (by omega)]
  · rw [hc, beNat_beBytes (by omega)]
  · rw [hb, beNat_beBytes (by omega)]
  · exact slice_field
      (l := magic ++ ([checkpointVersion] ++ (wBytes ++ (mBytes ++ (cBytes ++ bBytes)))))
      (by rw [hbytes]; iterate 5 rw [append_assoc])
      (by simp [wBytes, mBytes, cBytes, bBytes, magic, checkpointHeaderLen]) rfl

theorem decodeCheckpoint_sealed (blake3 : Blake3) (hwf : guard.Wf)
    (hsize : checkpointHeaderLen + guard.body.length + checksumLen ≤ hardMaxCheckpointBytes)
    (alloc : Allocator) :
    decodeCheckpoint blake3 guard.config
        (guard.sealedPrefix ++ (checkpointChecksum blake3 guard.sealedPrefix).val) alloc =
      .error .outOfMemory ∨
    ∃ restored, decodeCheckpoint blake3 guard.config
        (guard.sealedPrefix ++ (checkpointChecksum blake3 guard.sealedPrefix).val) alloc =
      .ok restored ∧ guard.Same restored := by
  obtain ⟨hmagic, hversion, hwindow, hmax, hcount, hbody, hslice⟩ :=
    sealedPrefix_header hwf (by omega) (checkpointChecksum blake3 guard.sealedPrefix).val
  have hlen : guard.sealedPrefix.length = checkpointHeaderLen + guard.body.length :=
    encodePrefix_length _ _ _
  have htotal : (guard.sealedPrefix ++ (checkpointChecksum blake3 guard.sealedPrefix).val).length =
      checkpointHeaderLen + guard.body.length + checksumLen := by
    rw [length_append, hlen, (checkpointChecksum blake3 guard.sealedPrefix).property]
    rfl
  have hordered : (orderedOrigins guard).length = guard.count :=
    (sortByKey_perm Sigma.fst guard.origins.entries).length_eq
  have hcap := hwf.capacity
  have hpre := checkedAdd_some (a := checkpointHeaderLen) (b := guard.body.length)
    (by unfold hardMaxCheckpointBytes at hsize; unfold usizeLimit; omega)
  have hall := checkedAdd_some (a := checkpointHeaderLen + guard.body.length) (b := checksumLen)
    (by unfold hardMaxCheckpointBytes at hsize; unfold usizeLimit; omega)
  have hinit : Guard.init guard.config = some { config := guard.config, origins := ∅ } :=
    if_pos hwf.valid
  have heql : Config.eql ⟨guard.config.windowSize, guard.config.maxOrigins⟩ guard.config =
      true := by
    simp [Config.eql]
  have htake := @List.take_left' _ _ (checkpointChecksum blake3 guard.sealedPrefix).val _ hlen
  have hdrop := @List.drop_left' _ _ (checkpointChecksum blake3 guard.sealedPrefix).val _ hlen
  have hwf' : ∀ entry ∈ orderedOrigins guard, entry.2.Wf guard.config.windowSize :=
    fun entry h => hwf.of_mem (mem_orderedOrigins.mp h)
  simp only [decodeCheckpoint, hwf.valid, hmagic, hversion, hwindow, hmax, hcount, hbody, hpre,
    hall, hinit, heql, htake, hdrop, hslice, htotal]
  rw [if_neg (by simp), if_neg (by omega), if_neg (by simp), if_neg (by simp), if_neg (by simp),
    if_neg (by simp), if_neg (by omega), if_neg (by omega), if_neg (by omega), if_neg (by omega),
    if_neg (by omega), if_neg (by simp)]
  cases alloc 0 with
  | false => exact Or.inl rfl
  | true =>
    rw [if_neg (by simp)]
    rcases decodeOrigins_encodeOrigins hwf.valid alloc
      (orderedOrigins_ascending guard) hwf' 1 none ∅
      (fun key hkey => by cases hkey) with hoom | hok
    · refine Or.inl ?_
      simp only [Guard.body, hoom]
    refine Or.inr ⟨⟨guard.config, (orderedOrigins guard).foldl
      (fun table entry => table.insert entry.1 entry.2) ∅⟩, ?_, rfl, fun key => ?_⟩
    · simp only [Guard.body, hok]
      rfl
    rw [lookup_foldl_insert _ (orderedOrigins_ascending guard), AList.lookup_empty, Option.or_none]
    exact perm_dlookup key guard.origins.nodupKeys (sortByKey_perm _ _).symm

/-- Replace a live guard by the restore of its own checkpoint; any failure leaves
it unchanged. -/
def Guard.reseal (blake3 : Blake3) (guard : Guard) (encodeAlloc decodeAlloc : Allocator) : Guard :=
  match guard.encodeCheckpoint blake3 encodeAlloc with
  | .error _ => guard
  | .ok bytes =>
    match decodeCheckpoint blake3 guard.config bytes decodeAlloc with
    | .error _ => guard
    | .ok restored => restored

theorem reseal_same (blake3 : Blake3) (hwf : guard.Wf)
    (encodeAlloc decodeAlloc : Allocator) :
    guard.Same (guard.reseal blake3 encodeAlloc decodeAlloc) := by
  have hrefl : guard.Same guard := ⟨rfl, fun _ => rfl⟩
  rw [Guard.reseal, encodeCheckpoint_eq blake3 hwf]
  cases encodeAlloc 0 with
  | false => exact hrefl
  | true =>
    by_cases hsize : hardMaxCheckpointBytes <
        checkpointHeaderLen + guard.body.length + checksumLen
    · simpa [hsize] using hrefl
    cases encodeAlloc 1 with
    | false => simpa [hsize] using hrefl
    | true =>
      simp only [hsize, Bool.not_true, Bool.false_eq_true, ↓reduceIte]
      rcases decodeCheckpoint_sealed blake3 hwf (Nat.not_lt.mp hsize) decodeAlloc with
        hoom | ⟨restored, hok, hsame⟩
      · rw [hoom]
        exact hrefl
      · rw [hok]
        exact hsame

end OnyxServer.ReplayGuard
