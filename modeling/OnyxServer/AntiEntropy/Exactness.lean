import OnyxServer.AntiEntropy.TrieHash
import OnyxServer.Lib.Keyed

/-!
# The Merkle difference is exact

Where SHA-256 has no collision among what is hashed, the roots agree exactly on equal
maps, the difference of two trees misses no changed key, and the ranges to repair are
the changed keys and no others.
-/
namespace OnyxServer.AntiEntropy

open Lib List

variable {sha : Bytes → Hash}

/-- The messages hashed to compare two trees, from the roots down to the terminal subtrees. -/
def hashedMessages (localTree remoteTree : MerkleTree sha) : List Bytes :=
  (MerkleTrie.diffInputs digest entryBit maxPrefixBits [] localTree.entries remoteTree.entries).map
    message

/-- The key has a value on the remote side that the local side has not. -/
def Changed (localValues remoteValues : Bytes → Option Hash) (key : Bytes) : Prop :=
  (remoteValues key).isSome ∧ localValues key ≠ remoteValues key

section Trees

variable {t u : MerkleTree sha} (ht : t.Ordered) (hu : u.Ordered)
  (hinj : Set.InjOn sha {m | m ∈ hashedMessages t u})

theorem lookup_eq_of_entries (h : t.entries = u.entries) : t.lookup = u.lookup :=
  funext fun key => congrArg (valueIn · key) h

include ht hu hinj in
theorem root_eq_iff : t.root = u.root ↔ t.lookup = u.lookup := by
  constructor
  · intro heq
    rw [root_eq, root_eq] at heq
    have hbind := (digest_binding hinj).mono fun i hi => MerkleTrie.mem_diffInputs hi
    exact lookup_eq_of_entries (ht.ext hu (MerkleTrie.mem_iff_of_hash_eq hbind heq))
  · intro heq
    rw [root_eq, root_eq, entries_eq ht hu (congrFun heq)]

/-- The keys that the walk lists, before they are sorted. -/
def walked (t u : MerkleTree sha) : List (Entry sha) :=
  MerkleTrie.diff digest entryBit maxPrefixBits [] t.entries u.entries

theorem diffTrees_eq (t u : MerkleTree sha) :
    diffTrees t u = sortByKey id ((walked t u).map (·.key)) := by
  have hwalk := diffPrefix_eq t u maxPrefixBits [] [] rfl
  rw [under_root, under_root, nil_append] at hwalk
  exact congrArg (sortByKey id) hwalk

theorem mem_diffTrees {key : Bytes} : key ∈ diffTrees t u ↔ ∃ e ∈ walked t u, e.key = key := by
  rw [diffTrees_eq, (sortByKey_perm id _).mem_iff, mem_map]

include hu in
theorem diffTrees_ascending : (diffTrees t u).Pairwise (· < ·) := by
  have hnodup : ((walked t u).map (·.key)).Nodup := by
    refine List.Nodup.map_on (fun a ha b hb hkey => ?_) (MerkleTrie.diff_nodup hu.nodup)
    exact hu.eq_of_key (MerkleTrie.diff_subset ha) (MerkleTrie.diff_subset hb) hkey
  rw [diffTrees_eq]
  exact sortByKey_ascending (by rwa [map_id'])

include hu in
theorem diffTrees_remote {key : Bytes} (h : key ∈ diffTrees t u) : (u.lookup key).isSome := by
  obtain ⟨e, he, rfl⟩ := mem_diffTrees.mp h
  have hvalue := (valueIn_some_iff hu).mpr ⟨e, MerkleTrie.diff_subset he, rfl, rfl⟩
  exact Option.isSome_iff_exists.mpr ⟨e.valueHash, hvalue⟩

include ht hu hinj in
theorem diffTrees_complete {key : Bytes} (h : Changed t.lookup u.lookup key) :
    key ∈ diffTrees t u := by
  obtain ⟨value, hvalue⟩ := Option.isSome_iff_exists.mp h.1
  obtain ⟨e, he, rfl, rfl⟩ := (valueIn_some_iff hu).mp hvalue
  refine mem_diffTrees.mpr ⟨e, MerkleTrie.mem_diff (digest_binding hinj) he fun hmem => ?_, rfl⟩
  have hheld := (valueIn_some_iff ht).mpr ⟨e, hmem, rfl, rfl⟩
  exact h.2 (Eq.trans hheld hvalue.symm)

end Trees

/-- The summary of a list of digests, each put in turn. -/
def summaryOf (digests : List (Bytes × Hash)) : Summary sha :=
  digests.foldl (fun summary digest => putDigest summary digest.1 digest.2) Summary.init

/-- The run of the tree behind a summary. -/
def digestOps (digests : List (Bytes × Hash)) : List Op :=
  digests.map fun digest => .put digest.1 digest.2 true

/-- The tree of a summary is what the run leaves, and its entries answer what that tree holds. -/
structure Summary.Mirrors (summary : Summary sha) (ops : List Op) : Prop where
  tree : summary.tree = build sha ops
  hash : ∀ key, summary.hashFor key = mapOf ops key

theorem summary_parts (digests : List (Bytes × Hash)) (summary : Summary sha) :
    digests.foldl (fun summary digest => putDigest summary digest.1 digest.2) summary =
      ⟨(digestOps digests).foldl step summary.tree,
        summary.entries ++ digests.map fun digest => ⟨digest.1, digest.2⟩⟩ := by
  induction digests generalizing summary with
  | nil => simp [digestOps]
  | cons digest digests ih =>
    rw [foldl_cons, ih]
    simp [putDigest, digestOps, step]

theorem summaryOf_tree (digests : List (Bytes × Hash)) :
    (summaryOf digests : Summary sha).tree = build sha (digestOps digests) := by
  rw [summaryOf, summary_parts]
  rfl

theorem hashFor_summaryOf (digests : List (Bytes × Hash)) (key : Bytes) :
    (summaryOf digests : Summary sha).hashFor key =
      (digests.find? fun digest => digest.1 == key).map (·.2) := by
  rw [summaryOf, summary_parts, Summary.hashFor]
  simp only [Summary.init, nil_append, List.find?_map, Option.map_map]
  rfl

variable {digests : List (Bytes × Hash)}

theorem puts_apply (hkeys : DistinctKeys (·.1) digests)
    (values : Bytes → Option Hash) (key : Bytes) :
    (digestOps digests).foldl Op.apply values key =
      ((digests.find? fun digest => digest.1 == key).map (·.2)).or (values key) := by
  induction digests generalizing values with
  | nil => simp [digestOps]
  | cons digest digests ih =>
    have hrest : DistinctKeys (·.1) digests := hkeys.sublist (sublist_cons_self _ _)
    have happly : Op.apply values (.put digest.1 digest.2 true) =
        Function.update values digest.1 (some digest.2) := by
      simp [Op.apply]
    rw [digestOps, map_cons, foldl_cons, happly]
    have hnext := ih hrest (Function.update values digest.1 (some digest.2))
    rw [digestOps] at hnext
    rw [hnext, List.find?_cons]
    by_cases hkey : digest.1 = key
    · -- the key is nowhere else in the list
      have hnone : digests.find? (fun other => other.1 == key) = none := by
        refine List.find?_eq_none.mpr fun other hother => ?_
        have hne : digest.1 ≠ other.1 :=
          rel_of_pairwise_cons (distinctKeys_pairwise.mp hkeys) hother
        simpa using fun h => hne (hkey.trans h.symm)
      rw [hnone, ← hkey, Function.update_self, beq_self_eq_true]
      rfl
    · rw [Function.update_of_ne (Ne.symm hkey), beq_eq_false_iff_ne.mpr hkey]

/-- A summary of distinct keys; of a key put twice, it would answer the older digest. -/
theorem summaryOf_mirrors (hkeys : DistinctKeys (·.1) digests) :
    (summaryOf digests : Summary sha).Mirrors (digestOps digests) where
  tree := summaryOf_tree digests
  hash key := by
    have hmap := puts_apply hkeys (fun _ => none) key
    rw [Option.or_none] at hmap
    rw [hashFor_summaryOf, mapOf, hmap]

/-- Over keys that the remote summary has, the ranges are those whose hash differs. -/
theorem repairRanges_eq {localSide remoteSide : Summary sha} {keys : List Bytes}
    (h : ∀ key ∈ keys, (remoteSide.hashFor key).isSome) :
    repairRanges localSide remoteSide keys =
      .ok (keys.filter fun key => localSide.hashFor key ≠ remoteSide.hashFor key) := by
  induction keys with
  | nil => rfl
  | cons key keys ih =>
    obtain ⟨value, hvalue⟩ := Option.isSome_iff_exists.mp (h key mem_cons_self)
    have hrest := ih fun other hother => h other (mem_cons_of_mem _ hother)
    simp only [repairRanges, hvalue, hrest, filter_cons]
    by_cases hsame : localSide.hashFor key = some value
    · rw [if_pos hsame, if_neg (by simpa using hsame)]
    · rw [if_neg hsame, if_pos (by simpa using hsame)]
      rfl

theorem repairDiff_spec {localOps remoteOps : List Op} {localSide remoteSide : Summary sha}
    (hinj : Set.InjOn sha {m | m ∈ hashedMessages (build sha localOps) (build sha remoteOps)})
    (hlocal : localSide.Mirrors localOps) (hremote : remoteSide.Mirrors remoteOps) :
    ∃ ranges, repairDiff localSide remoteSide = .ok ranges ∧ ranges.Pairwise (· < ·) ∧
      ∀ key, key ∈ ranges ↔ Changed (mapOf localOps) (mapOf remoteOps) key := by
  obtain ⟨hl, hlmap⟩ := build_spec localOps
  obtain ⟨hr, hrmap⟩ := build_spec remoteOps
  have hheld : ∀ key ∈ diffTrees (build sha localOps) (build sha remoteOps),
      (mapOf remoteOps key).isSome :=
    fun key hkey => hrmap ▸ diffTrees_remote hr hkey
  have hranges : repairDiff localSide remoteSide =
      .ok ((diffTrees (build sha localOps) (build sha remoteOps)).filter fun key =>
        localSide.hashFor key ≠ remoteSide.hashFor key) := by
    rw [repairDiff, hlocal.tree, hremote.tree]
    exact repairRanges_eq fun key hkey => by
      rw [hremote.hash]
      exact hheld key hkey
  refine ⟨_, hranges, (diffTrees_ascending hr).filter _, fun key => ?_⟩
  rw [mem_filter, hlocal.hash, hremote.hash, decide_eq_true_iff]
  constructor
  · rintro ⟨hkey, hne⟩
    exact ⟨hheld key hkey, hne⟩
  · intro hchanged
    refine ⟨diffTrees_complete hl hr hinj ?_, hchanged.2⟩
    rwa [hlmap, hrmap]

/-- For any two trees left by puts and removals, and any two summaries whose entries agree with
them, as those of distinct digests do. -/
theorem merkle_diff_exact (sha : Bytes → Hash) (localOps remoteOps : List Op)
    (hinj : Set.InjOn sha {m | m ∈ hashedMessages (build sha localOps) (build sha remoteOps)}) :
    ((build sha localOps).root = (build sha remoteOps).root ↔ mapOf localOps = mapOf remoteOps) ∧
    (diffTrees (build sha localOps) (build sha remoteOps)).Pairwise (· < ·) ∧
    (∀ key ∈ diffTrees (build sha localOps) (build sha remoteOps), (mapOf remoteOps key).isSome) ∧
    (∀ key, Changed (mapOf localOps) (mapOf remoteOps) key →
      key ∈ diffTrees (build sha localOps) (build sha remoteOps)) ∧
    (∀ localSide remoteSide : Summary sha, localSide.Mirrors localOps →
      remoteSide.Mirrors remoteOps →
      ∃ ranges, repairDiff localSide remoteSide = .ok ranges ∧ ranges.Pairwise (· < ·) ∧
        ∀ key, key ∈ ranges ↔ Changed (mapOf localOps) (mapOf remoteOps) key) ∧
    ∀ digests, DistinctKeys (·.1) digests →
      (summaryOf digests : Summary sha).Mirrors (digestOps digests) := by
  obtain ⟨ht, htmap⟩ := build_spec localOps
  obtain ⟨hu, humap⟩ := build_spec remoteOps
  refine ⟨?_, diffTrees_ascending hu, fun key hkey => ?_, fun key hkey => ?_,
    fun _ _ hlocal hremote => repairDiff_spec hinj hlocal hremote,
    fun _ hkeys => summaryOf_mirrors hkeys⟩
  · rw [root_eq_iff ht hu hinj, htmap, humap]
  · exact humap ▸ diffTrees_remote hu hkey
  · exact diffTrees_complete ht hu hinj (by rwa [htmap, humap])

/-! The digests of the messages that come up when a tree of `a` meets one of `a` and `b`. -/

def sampleDigest (value : Nat) : Hash := ⟨beBytes 32 value, beBytes_length 32 value⟩

def sampleLeaf (key : UInt8) (value : UInt8) : Bytes :=
  leafTag ++ beBytes 8 1 ++ [key] ++ List.replicate 32 value

def sampleLeafA : Hash :=
    sampleDigest 0x6c098204bb20204fba52233248fb4c0355d52c88c6b1243f1e218749eed43a92
def sampleLeafB : Hash :=
  sampleDigest 0x4afd5a91a7c7a6886a962bbcc648b757267765d54e6a11cb7a0f3115aca6d4a2

def sampleSha (m : Bytes) : Hash :=
  if m = [0x61] then sampleDigest 0xca978112ca1bbdcafac231b39a23dc4da786eff8147c4e72b9807785afee48bb
  else if m =
    [0x62] then sampleDigest 0x3e23e8160039594a33894f6564e1b1348bbd7a0088d42c4acb73eeaed59c009d
  else if m = sampleLeaf 0x61 1 then sampleLeafA
  else if m = sampleLeaf 0x62 2 then sampleLeafB
  else if m = emptyMessage emptyHash 1 then
    sampleDigest 0xc7ec9b4f4d4563e963cc310c0974875b7ae4858d145e0755e54e558064f40c0b
  else if m = nodeMessage emptyHash 0 sampleLeafB sampleLeafA then
    sampleDigest 0x147e892f31880b7880db03dcf198f6ad9bc65242cb7b808c28b8cb12193925c8
  else emptyHash

def sampleLocal : List (Bytes × Hash) := [([0x61], FixedBytes.splat 32 1)]
def sampleRemote : List (Bytes × Hash) :=
  [([0x62], FixedBytes.splat 32 2), ([0x61], FixedBytes.splat 32 1)]

theorem sampleSha_injOn : Set.InjOn sampleSha {m | m ∈ hashedMessages
    (build sampleSha (digestOps sampleLocal)) (build sampleSha (digestOps sampleRemote))} := by
  have hall : ∀ m ∈ hashedMessages (build sampleSha (digestOps sampleLocal))
        (build sampleSha (digestOps sampleRemote)),
      ∀ n ∈ hashedMessages (build sampleSha (digestOps sampleLocal))
        (build sampleSha (digestOps sampleRemote)),
        sampleSha m = sampleSha n → m = n := by decide +kernel
  exact fun m hm n hn heq => hall m hm n hn heq

/-- The absent key is found, and it is the only range to repair. -/
theorem merkle_diff_exact_sample :
    [0x62] ∈ diffTrees (build sampleSha (digestOps sampleLocal))
    (build sampleSha (digestOps sampleRemote)) ∧
      ∃ ranges, repairDiff (summaryOf sampleLocal : Summary sampleSha) (summaryOf sampleRemote) =
        .ok ranges ∧
        [0x62] ∈ ranges ∧ [0x61] ∉ ranges := by
  have hchanged :
      Changed (mapOf (digestOps sampleLocal)) (mapOf (digestOps sampleRemote)) [0x62] := by
    refine ⟨?_, ?_⟩ <;> decide +kernel
  have hkept : ¬ Changed (mapOf (digestOps sampleLocal)) (mapOf (digestOps sampleRemote)) [0x61] :=
    fun h => h.2 (by decide +kernel)
  obtain ⟨-, -, -, hcomplete, hdiff, hsummaries⟩ :=
    merkle_diff_exact sampleSha (digestOps sampleLocal) (digestOps sampleRemote) sampleSha_injOn
  obtain ⟨ranges, hranges, -, hmem⟩ :=
    hdiff _ _ (hsummaries sampleLocal (by unfold DistinctKeys; decide))
      (hsummaries sampleRemote (by unfold DistinctKeys; decide))
  exact ⟨hcomplete _ hchanged, ranges, hranges, (hmem _).mpr hchanged,
    fun h => hkept ((hmem _).mp h)⟩

/-- What the local side pulls: the remote's value for each key that the difference lists. -/
def pulled (sha : Bytes → Hash) (localOps remoteOps : List Op) : List (Bytes × Hash) :=
  (diffTrees (build sha localOps) (build sha remoteOps)).map fun key =>
    (key, (mapOf remoteOps key).getD emptyHash)

/-- The run of the local side with what it pulls. -/
def pull (sha : Bytes → Hash) (localOps remoteOps : List Op) : List Op :=
  localOps ++ digestOps (pulled sha localOps remoteOps)

theorem mapOf_pull {localOps remoteOps : List Op}
    (hinj : Set.InjOn sha {m | m ∈ hashedMessages (build sha localOps) (build sha remoteOps)})
    (key : Bytes) :
    mapOf (pull sha localOps remoteOps) key = (mapOf remoteOps key).or (mapOf localOps key) := by
  obtain ⟨ht, htmap⟩ := @build_spec sha localOps
  obtain ⟨hu, humap⟩ := @build_spec sha remoteOps
  have hkeys : DistinctKeys (·.1) (pulled sha localOps remoteOps) := by
    unfold DistinctKeys pulled
    rw [map_map]
    exact (List.map_id _).symm ▸ (diffTrees_ascending hu).imp ne_of_lt
  rw [pull, mapOf, foldl_append]
  refine (puts_apply hkeys _ key).trans ?_
  rw [pulled, List.find?_map]
  cases hfind : (diffTrees (build sha localOps) (build sha remoteOps)).find? fun other =>
    other == key with
  | some other =>
    obtain rfl : other = key := by simpa using List.find?_some hfind
    have hheld := diffTrees_remote hu (List.mem_of_find?_eq_some hfind)
    obtain ⟨value, hvalue⟩ := Option.isSome_iff_exists.mp (humap ▸ hheld)
    simp only [Function.comp_def, hfind, Option.map_some, hvalue, Option.getD_some, Option.some_or]
  | none =>
    have hkept : ¬ Changed (mapOf localOps) (mapOf remoteOps) key := fun hchanged => by
      have hlisted := diffTrees_complete ht hu hinj (by rwa [htmap, humap])
      simpa using List.find?_eq_none.mp hfind key hlisted
    simp only [Function.comp_def, hfind, Option.map_none, Option.none_or]
    cases hremote : mapOf remoteOps key with
    | none => rfl
    | some value => exact not_ne_iff.mp fun hne => hkept ⟨by rw [hremote]; rfl, hremote ▸ hne⟩

/-- A pull takes over the remote map and keeps what the remote has not got. A remote that has
every key of the local side then has the same root. -/
theorem pull_takes_over (localOps remoteOps : List Op)
    (hinj : Set.InjOn sha {m | m ∈ hashedMessages (build sha localOps) (build sha remoteOps)}) :
    (∀ key, mapOf (pull sha localOps remoteOps) key =
      (mapOf remoteOps key).or (mapOf localOps key)) ∧
    ((∀ key, (mapOf localOps key).isSome → (mapOf remoteOps key).isSome) →
      (build sha (pull sha localOps remoteOps)).root = (build sha remoteOps).root) := by
  refine ⟨mapOf_pull hinj, fun hheld => ?_⟩
  obtain ⟨hnext, hnextmap⟩ := @build_spec sha (pull sha localOps remoteOps)
  obtain ⟨hu, humap⟩ := @build_spec sha remoteOps
  rw [root_eq, root_eq, entries_eq hnext hu fun key => ?_]
  rw [hnextmap, humap, mapOf_pull hinj]
  cases hremote : mapOf remoteOps key with
  | some value => rfl
  | none =>
    have hlocal := mt (hheld key) (by simp [hremote])
    rw [Option.none_or, Option.not_isSome_iff_eq_none.mp hlocal]

/-- The remote of the sample has every key. -/
theorem pull_takes_over_sample :
    (build sampleSha (pull sampleSha (digestOps sampleLocal) (digestOps sampleRemote))).root =
      (build sampleSha (digestOps sampleRemote)).root := by
  refine (pull_takes_over _ _ sampleSha_injOn).2 fun key hkey => ?_
  by_cases hsame : key = [0x61]
  · subst hsame
    decide
  · exact absurd hkey (by simp [mapOf, digestOps, sampleLocal, Op.apply, hsame])

end OnyxServer.AntiEntropy
