import OnyxServer.Access.Operations

/-!
# Retained origin proofs

A row or a marker keeps the signature of an author only while it holds the very fields
that the author signed, so what is flooded again verifies again.
-/
namespace OnyxServer.Access

open Lib Text List

variable {store : AccessStore} {facts : List RemoteFact}

/-- The fields of a fact as its author signed them. -/
def RemoteFact.signed (fact : RemoteFact) (proof : OriginProof) : SignedFact :=
  { present := fact.present, channel := fact.channel, level := fact.level, mask := fact.mask
    setBy := fact.setBy, duration := fact.duration, hlc := fact.hlc
    originNode := fact.originNode, proof }

def Entry.signed (entry : Entry) (proof : OriginProof) : SignedFact :=
  { present := true, channel := entry.channel, level := entry.level, mask := entry.mask
    setBy := entry.setBy, duration := entry.duration, hlc := entry.hlc
    originNode := entry.originNode, proof }

def Tombstone.signed (marker : Tombstone) (proof : OriginProof) : SignedFact :=
  { present := false, channel := marker.channel, level := marker.level, mask := marker.mask
    setBy := [], duration := none, hlc := marker.hlc, originNode := marker.originNode, proof }

/-- The signed fact came in with this very proof. -/
def Signed (facts : List RemoteFact) (proof : OriginProof) (signed : SignedFact) : Prop :=
  ∃ fact ∈ facts, fact.originProof = some proof ∧ fact.signed proof = signed

/-- Every retained proof signs the fields it is kept with. -/
structure Faithful (facts : List RemoteFact) (store : AccessStore) : Prop where
  rows : ∀ e ∈ store.entries, ∀ proof, e.originProof = some proof →
    Signed facts proof (e.signed proof)
  markers : ∀ t ∈ store.tombstones, ∀ proof, t.originProof = some proof →
    Signed facts proof (t.signed proof)

theorem LocalStep.faithful {next : AccessStore} (h : LocalStep store next)
    (hf : Faithful facts store) : Faithful facts next where
  rows e he proof hproof := by
    rcases h.rows e he with ⟨old, hold, heq⟩ | hlocal
    · rw [heq] at hproof ⊢
      exact hf.rows old hold proof hproof
    · rw [hlocal.proof] at hproof
      cases hproof
  markers t ht proof hproof := by
    rcases h.markers t ht with hold | hlocal
    · exact hf.markers t hold proof hproof
    · rw [hlocal.proof] at hproof
      cases hproof

variable {fact : RemoteFact}

/-- A row written from a fact keeps its proof beside the octets that the fact has. -/
theorem wrote_signed {row : Entry} {nowSeconds : UInt64} {proof : OriginProof}
    (hwrote : Wrote (AccessStore.factWrite fact) nowSeconds row) (hpresent : fact.present = true)
    (hproof : row.originProof = some proof) :
    fact.originProof = some proof ∧ fact.signed proof = row.signed proof := by
  have hkept : AccessStore.entryProof fact = some proof := hwrote.originProof.symm.trans hproof
  obtain ⟨hchannel, hmask⟩ := hwrote.octets (by
    show (AccessStore.entryProof fact).isSome = true
    rw [hkept]
    rfl)
  rw [AccessStore.entryProof, if_pos hpresent] at hkept
  refine ⟨hkept, ?_⟩
  rw [RemoteFact.signed, Entry.signed, hpresent, hchannel, hmask, hwrote.level, hwrote.setBy,
    hwrote.duration, hwrote.hlc, hwrote.originNode]
  rfl

/-- A marker written from a fact keeps only the proof of a plain delete. -/
theorem marked_signed {marker : Tombstone} {proof : OriginProof}
    (hmarked : Marked (AccessStore.factMark fact) marker)
    (hproof : marker.originProof = some proof) :
    fact.originProof = some proof ∧ fact.signed proof = marker.signed proof := by
  have hkept : AccessStore.markerProof fact = some proof := hmarked.originProof.symm.trans hproof
  obtain ⟨hchannel, hmask⟩ := hmarked.octets (by
    show (AccessStore.markerProof fact).isSome = true
    rw [hkept]
    rfl)
  unfold AccessStore.markerProof at hkept
  split at hkept
  · rename_i hplain
    simp only [Bool.and_eq_true, Bool.not_eq_true', decide_eq_true_eq, length_eq_zero_iff,
      Option.isNone_iff_eq_none] at hplain
    obtain ⟨⟨hpresent, hsetBy⟩, hduration⟩ := hplain
    refine ⟨hkept, ?_⟩
    rw [RemoteFact.signed, Tombstone.signed, hpresent, hsetBy, hduration, hchannel, hmask,
      hmarked.level, hmarked.hlc, hmarked.originNode]
    rfl
  · cases hkept

theorem MergeStep.faithful {lapsed : Bool}
    {answer : Except StoreError ApplyOutcome} {next : AccessStore}
    (h : MergeStep store fact lapsed answer next) (hmem : fact ∈ facts)
    (hf : Faithful facts store) :
    Faithful facts next := by
  cases h with
  | failed e next habove hclock hrows hsub =>
    exact ⟨fun e he => hf.rows e (hrows ▸ he), fun t ht => hf.markers t (hsub.subset ht)⟩
  | staleMarker => exact hf
  | staleRow => exact hf
  | applied row next hpresent hlapsed habove hput =>
    refine ⟨fun e he proof hproof => ?_, fun t ht => hf.markers t ((hput.markers t).mp ht).1⟩
    rcases (hput.rows e).mp he with rfl | ⟨hold, -⟩
    · exact ⟨fact, hmem, wrote_signed hput.wrote hpresent hproof⟩
    · exact hf.rows e hold proof hproof
  | deleted next hgone habove hbury hknown =>
    refine ⟨fun e he => hf.rows e ((hbury.rows e).mp he).1, fun t ht proof hproof => ?_⟩
    cases hbury.markers t ht with
    | other hold _ => exact hf.markers t hold proof hproof
    | kept hold _ _ => exact hf.markers t hold proof hproof
    | new hmarked => exact ⟨fact, hmem, marked_signed hmarked hproof⟩

theorem step_faithful (hwf : WellFormed store) (op : Op)
    (hdelivered : ∀ fact alloc, op = .applyRemote fact alloc → fact ∈ facts)
    (hf : Faithful facts store) : Faithful facts (step store op).2 := by
  by_cases hop : ∃ fact alloc, op = .applyRemote fact alloc
  · obtain ⟨fact, alloc, rfl⟩ := hop
    rcases remote_step hwf fact alloc with ⟨e, he⟩ | ⟨-, -, hmerge⟩
    · show Faithful facts (store.applyRemote fact alloc).2
      rw [he]
      exact hf
    · have hobserved : Faithful facts (store.observeHlc fact.hlc) := ⟨hf.rows, hf.markers⟩
      exact hmerge.faithful (hdelivered fact alloc rfl) hobserved
  · exact (step_local hwf fun fact alloc heq => hop ⟨fact, alloc, heq⟩).faithful hf

theorem run_faithful (ops : List Op) (hwf : WellFormed store) (hf : Faithful facts store)
    (hdelivered : ∀ fact alloc, Op.applyRemote fact alloc ∈ ops → fact ∈ facts) :
    Faithful facts (final step store ops) := by
  induction ops generalizing store with
  | nil => exact hf
  | cons op ops ih =>
    refine ih (step_wellFormed store op hwf) (step_faithful hwf op ?_ hf) ?_
    · exact fun fact alloc heq => hdelivered fact alloc (heq ▸ mem_cons_self)
    · exact fun fact alloc hmem => hdelivered fact alloc (mem_cons_of_mem op hmem)

theorem signedFacts_faithful (hf : Faithful facts store) {nowSeconds : UInt64} {signed : SignedFact}
    (h : signed ∈ store.signedFacts nowSeconds) : Signed facts signed.proof signed := by
  rcases mem_append.mp h with h | h
  · obtain ⟨e, he, hsome⟩ := mem_filterMap.mp h
    unfold AccessStore.signedEntry at hsome
    split at hsome
    · cases hsome
    rename_i proof hproof
    split_ifs at hsome
    · cases hsome
      exact hf.rows e he proof hproof
  · obtain ⟨t, ht, hsome⟩ := mem_filterMap.mp h
    unfold AccessStore.signedMarker at hsome
    split at hsome
    · cases hsome
    · rename_i proof hproof
      cases hsome
      exact hf.markers t ht proof hproof

/-- Every fact that is flooded again came in with the very proof it goes out with, and has
every field it had then. -/
theorem signed_facts_came_in (maxEntries maxTombstones : Nat) (ttl localNode : UInt64)
    (ops : List Op) (nowSeconds : UInt64) (signed : SignedFact)
    (h : signed ∈
      (final step (AccessStore.init maxEntries maxTombstones ttl localNode) ops).signedFacts
      nowSeconds) :
    ∃ fact alloc, Op.applyRemote fact alloc ∈ ops ∧ fact.originProof = some signed.proof ∧
      fact.signed signed.proof = signed := by
  have hempty : Faithful (ops.filterMap Op.delivered)
      (AccessStore.init maxEntries maxTombstones ttl localNode) :=
    ⟨fun _ he => absurd he not_mem_nil, fun _ ht => absurd ht not_mem_nil⟩
  have hrun := run_faithful ops (wellFormed_init _ _ _ _) hempty
    (fun fact alloc hmem => mem_filterMap.mpr ⟨_, hmem, rfl⟩)
  obtain ⟨fact, hmem, hproof, hsigned⟩ := signedFacts_faithful hrun h
  obtain ⟨op, hop, hfact⟩ := mem_filterMap.mp hmem
  obtain ⟨alloc, rfl⟩ := delivered_eq hfact
  exact ⟨fact, alloc, hop, hproof, hsigned⟩

/-- A signed delete that was recorded over a row spelled in another case. -/
def signedDelete : RemoteFact :=
  { present := false, channel := [0x23, 0x61], level := .deny, mask :=
    [0x62, 0x21, 0x2A, 0x40, 0x2A]
    setBy := [], duration := none, hlc := 1500, originNode := 7
    originProof := some ⟨.splat 32 1, .splat 64 2⟩ }

theorem signed_facts_came_in_delete :
    ∃ fact alloc, Op.applyRemote fact alloc ∈
        [.setClock 1, .add [0x23, 0x41] .deny [0x42, 0x21, 0x2A, 0x40, 0x2A] [0x6E] none true,
          .applyRemote signedDelete true] ∧
      fact.originProof = some ⟨.splat 32 1, .splat 64 2⟩ ∧
      fact.signed ⟨.splat 32 1, .splat 64 2⟩ = signedDelete.signed ⟨.splat 32 1, .splat 64 2⟩ :=
  signed_facts_came_in 8 8 604800 3 _ 2 (signedDelete.signed ⟨.splat 32 1, .splat 64 2⟩) (by decide)

end OnyxServer.Access
