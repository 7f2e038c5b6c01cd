import OnyxServer.SessionReplica.Restoring
import OnyxServer.SessionReplica.Signing

/-!
# Slots and index in every run

The store from its first call on: rows within their bounds, the derived counter and the
derived index in step with them, and a slot for the REVOKE of every live entry.
-/
namespace OnyxServer.SessionReplica

open Lib Text

/-- The OFFERs a call brings are of the accounts. -/
def Call.Presents (accounts : Set Bytes) : Call → Prop
  | .applySignedOffer signed _ _ _ => signed.offer.isOffer → SessionReplica.Presents accounts signed
  | .restore bytes _ _ => PresentsImage accounts bytes
  | _ => True

namespace Store

variable {crypto : Crypto} {accounts : Set Bytes} {cfg : Config} {s : Store}

theorem removePeer_alike (s : Store) (peer : NodeId) : Alike s (s.removePeer peer) :=
  .of_eq rfl rfl rfl rfl rfl rfl rfl

theorem step_orderly {call : Call} (hinj : Distinguishes crypto accounts)
    (hcall : call.Presents accounts)
    (h : OrderlyAt crypto accounts cfg s) :
    OrderlyAt crypto accounts cfg (s.step crypto call).2 := by
  have hreplaced : ∀ restored : Except UpgradeCheckpointError Store,
      (∀ t, restored = .ok t → OrderlyAt crypto accounts cfg t) →
      OrderlyAt crypto accounts cfg (s.replaced restored).2 := by
    intro restored hrestored
    cases restored with
    | error e => exact h
    | ok t => exact hrestored t rfl
  obtain ⟨horder, hcfg⟩ := h
  cases call with
  | applySignedOffer signed viaPeer nowMs alloc =>
    have heffect := applySignedOffer_effect crypto s signed viaPeer nowMs alloc
    exact ⟨heffect.inOrder hinj hcall horder, heffect.cfg.trans hcfg⟩
  | groupRevoke signed nowMs alloc commit =>
    exact ⟨revokeGroup_inOrder horder, (revokeGroup_cfg s signed nowMs alloc commit).trans hcfg⟩
  | applySignedAttachmentLease signed nowMs alloc =>
    obtain ⟨leases, heq⟩ := applySignedAttachmentLease_frame crypto s signed nowMs alloc
    change OrderlyAt crypto accounts cfg (s.applySignedAttachmentLease crypto signed nowMs alloc).2
    rw [heq]
    exact ⟨horder.alike (.of_eq rfl rfl rfl rfl rfl rfl rfl), hcfg⟩
  | sweep nowMs => exact ⟨sweep_inOrder nowMs horder, (sweep_cfg crypto s nowMs).trans hcfg⟩
  | removePeer peer => exact OrderlyAt.alike ⟨horder, hcfg⟩ (removePeer_alike s peer)
  | restore bytes restoreNowMs alloc =>
    refine hreplaced _ fun t ht => ?_
    rw [← hcfg]
    exact restoreUpgradeCheckpoint_orderly hinj hcall ht
  | upgrade capturedAtMs restoreNowMs encodeAlloc restoreAlloc =>
    refine hreplaced _ fun t ht => ?_
    rw [← hcfg]
    exact upgraded_orderly hinj horder ht
  | rehash table i => exact OrderlyAt.alike ⟨horder, hcfg⟩ (rehash_alike s i table)

theorem orderly_init (crypto : Crypto) (accounts : Set Bytes) (cfg : Config) :
    OrderlyAt crypto accounts cfg (initWithConfig cfg) :=
  ⟨⟨books_init crypto accounts cfg, room_init cfg⟩, rfl⟩

theorem run_orderly (accounts : Set Bytes) (cfg : Config) (hinj : Distinguishes crypto accounts)
    {calls : List Call} (hcalls : ∀ call ∈ calls, call.Presents accounts) :
    OrderlyAt crypto accounts cfg (final (fun s => s.step crypto) (initWithConfig cfg) calls) := by
  have hstart := orderly_init crypto accounts cfg
  revert hstart
  generalize initWithConfig cfg = s
  intro hs
  induction calls generalizing s with
  | nil => exact hs
  | cons call calls ih =>
    obtain ⟨hfirst, hrest⟩ := List.forall_mem_cons.mp hcalls
    exact ih hrest _ (step_orderly hinj hfirst hs)

/-- The tables, the counter and the index of a store. -/
structure Accounted (crypto : Crypto) (s : Store) : Prop where
  apart : ∀ key, ¬ ((s.entries.lookup key).isSome ∧ (s.tombstones.lookup key).isSome)
  entries : HashMap.count s.entries ≤ s.cfg.maxEntries
  combined : HashMap.count s.entries + HashMap.count s.tombstones ≤
    s.cfg.maxEntries + s.cfg.maxTombstones
  soft : s.softCappedTombstones = HashMap.countIf Tombstone.softCapped s.tombstones
  listed : ∀ digest key, key ∈ listed s.accountIndex digest ↔
    (∃ e, s.entries.lookup key = some e ∧ accountDigest crypto e.account = digest) ∨
      (key.originNode = 0 ∧
        ∃ g, s.groupRevocations.lookup key.token = some g ∧ accountDigest crypto g.account = digest)
  once : ∀ digest, (Lib.listed s.accountIndex digest).Nodup
  sound : s.faulted = false

/-- No REVOKE of a live entry is refused for want of a slot. -/
def Revocable (crypto : Crypto) (s : Store) : Prop :=
  ∀ signed viaPeer nowMs alloc, (s.entries.lookup signed.offer.key).isSome →
    (s.applySignedOffer crypto signed viaPeer nowMs alloc).1 ≠ .error .tombstoneFull

theorem InOrder.accounted (h : InOrder crypto accounts s) : Accounted crypto s where
  apart key hboth := by
    have hnone := h.books.apart key hboth.2
    rw [hnone] at hboth
    exact absurd hboth.1 Bool.false_ne_true
  entries := h.room.entries
  combined := h.room.combined
  soft := h.books.soft
  listed digest key := h.books.mirrors.mem_iff digest key
  once := h.books.mirrors.nodup
  sound := h.books.sound

theorem InOrder.revocable (h : InOrder crypto accounts s) : Revocable crypto s := by
  intro signed viaPeer nowMs alloc hlive hanswer
  obtain ⟨entry, hentry⟩ := Option.isSome_iff_exists.mp hlive
  have heffect := applySignedOffer_effect crypto s signed viaPeer nowMs alloc
  rw [hanswer] at heffect
  have hrefused := heffect.tombstoneFull
  rw [admitsTombstone_live h.room hentry] at hrefused
  cases hrefused

/-- In every run the slots stay within their bounds, the counter and the index in step with
the rows, and every live entry can be revoked. -/
theorem run_accounted (accounts : Set Bytes) (cfg : Config) (hinj : Distinguishes crypto accounts)
    {calls : List Call} (hcalls : ∀ call ∈ calls, call.Presents accounts) :
    Accounted crypto (final (fun s => s.step crypto) (initWithConfig cfg) calls) ∧
      Revocable crypto (final (fun s => s.step crypto) (initWithConfig cfg) calls) := by
  have horder := (run_orderly accounts cfg hinj hcalls).inOrder
  exact ⟨horder.accounted, horder.revocable⟩

def sampleCalls : List Call := [
  .applySignedOffer sampleUpsert 0 5 fun _ => true,
  .applySignedOffer sampleRemove 0 6 fun _ => true,
  .upgrade 7 8 (fun _ => true) fun _ => true, .sweep 2000]

theorem run_accounted_sample :
    Accounted sampleCrypto
      (final (fun s => s.step sampleCrypto) (initWithConfig sampleConfig) sampleCalls) ∧
      Revocable sampleCrypto
        (final (fun s => s.step sampleCrypto) (initWithConfig sampleConfig) sampleCalls) := by
  refine run_accounted {[97]} sampleConfig (Set.injOn_singleton _ _) ?_
  intro call hcall
  simp only [sampleCalls, List.mem_cons, List.not_mem_nil, or_false] at hcall
  rcases hcall with rfl | rfl | rfl | rfl
  · exact fun _ => rfl
  · exact fun hoffer => nomatch hoffer
  · trivial
  · trivial

end Store

end OnyxServer.SessionReplica
