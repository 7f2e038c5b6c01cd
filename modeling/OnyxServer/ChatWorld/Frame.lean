import OnyxServer.ChatWorld.World
import OnyxServer.Lib.Wire

/-!
# What a departure touches

Both ways to remove a client reclaim whatever channel is empty at that time, also one that the
client has nothing to do with. The direct way leaves the client's pending invites behind.
-/
namespace OnyxServer.ChatWorld

open Lib Text List HashMap Option Except

variable {world next before : World} {client : ClientId} {name other : Bytes} {channel : Channel}
    {writes : MirrorWrites}

namespace Channel

theorem leave_of_not_mem (h : client ∉ channel.members) : channel.leave client = channel := by
  rw [leave, erase_of_none (AList.lookup_eq_none.mpr h)]

theorem not_mem_leave (channel : Channel) (client : ClientId) :
    client ∉ (channel.leave client).members :=
  fun h => (AList.mem_erase.mp h).1 rfl

@[simp] theorem leave_leave (channel : Channel) (client : ClientId) :
    (channel.leave client).leave client = channel.leave client :=
  leave_of_not_mem (not_mem_leave channel client)

theorem uninvite_of_not_mem (h : client ∉ channel.invites) : channel.uninvite client = channel := by
  rw [uninvite, Finset.erase_eq_of_notMem h]

/-- What the direct removal makes of a channel. -/
def departed (client : ClientId) (channel : Channel) : Option Channel :=
  if (channel.leave client).reclaimable then none else some (channel.leave client)

theorem reclaimable_iff :
    channel.reclaimable = true ↔ HashMap.count channel.members = 0 ∧
    channel.extModes.registered = false := by
  simp [reclaimable]

end Channel

theorem dropMember_lookup (world : World) (client : ClientId) (name other : Bytes)
    (writes : MirrorWrites) :
    (world.dropMember client name writes).channels.lookup other =
      if other = name then (world.channels.lookup other).map (·.leave client)
        else world.channels.lookup other := by
  unfold World.dropMember
  split
  · exact lookup_adjust _ _ _ _
  rename_i hnone
  split
  · next hsame =>
    subst hsame
    cases hget : world.channels.lookup other with
    | none => rfl
    | some channel =>
      simp only [hget, any_some, decide_eq_true_eq] at hnone
      rw [map_some, Channel.leave_of_not_mem hnone]
  · rfl

theorem dropMember_count (world : World) (client : ClientId) (name : Bytes)
    (writes : MirrorWrites) :
    HashMap.count (world.dropMember client name writes).channels =
      HashMap.count world.channels := by
  unfold World.dropMember
  split
  · exact count_mapValues _ _
  · rfl

/-- Part of the way: a channel is as it was, or without the client, or reclaimed. -/
def Partly (client : ClientId) (before world : World) : Prop :=
  ∀ name, world.channels.lookup name = before.channels.lookup name ∨
    world.channels.lookup name = (before.channels.lookup name).map (·.leave client) ∨
    (world.channels.lookup name = none ∧
      ∃ channel, before.channels.lookup name = some channel ∧
      (channel.leave client).reclaimable = true)

/-- The client is out of the channel, which is not to be reclaimed. -/
def Settled (client : ClientId) (world : World) (name : Bytes) : Prop :=
  ∀ channel, world.channels.lookup name = some channel →
    channel.leave client = channel ∧ channel.reclaimable = false

theorem Partly.drop (h : Partly client before world) (name : Bytes) (writes : MirrorWrites) :
    Partly client before (world.dropMember client name writes) := by
  intro other
  rw [dropMember_lookup]
  split
  · rcases h other with hsame | hleft | ⟨hgone, hreclaimed⟩
    · exact .inr (.inl (by rw [hsame]))
    · refine .inr (.inl ?_)
      rw [hleft, Option.map_map]
      exact congrArg (fun f => Option.map f (before.channels.lookup other))
        (funext fun ch => ch.leave_leave client)
    · exact .inr (.inr ⟨by rw [hgone]; rfl, hreclaimed⟩)
  · exact h other

theorem Settled.drop (h : Settled client world name) (other : Bytes) (writes : MirrorWrites) :
    Settled client (world.dropMember client other writes) name := by
  intro channel hget
  rw [dropMember_lookup] at hget
  split at hget
  · obtain ⟨old, hold, rfl⟩ := map_eq_some_iff.mp hget
    obtain ⟨hleft, hkept⟩ := h old hold
    rw [hleft]
    exact ⟨hleft, hkept⟩
  · exact h channel hget

/-- What a scan comes to. -/
inductive Passed (client : ClientId) (before world : World) (names : List Bytes) :
    Option Bytes × World → Prop
  | found {next : World} {name : Bytes} {channel : Channel} (hpartly : Partly client before next)
      (hcount : HashMap.count next.channels = HashMap.count world.channels)
      (hget : next.channels.lookup name = some channel) (hleft : channel.leave client = channel)
      (hreclaimable : channel.reclaimable = true) : Passed client before world names
        (some name, next)
  | none {next : World} (hpartly : Partly client before next)
      (hkeys : ∀ name, (next.channels.lookup name).isSome = (world.channels.lookup name).isSome)
      (hsettled : ∀ name, name ∈ names ∨ Settled client world name → Settled client next name) :
      Passed client before world names (none, next)

theorem removePass_spec (writes : MirrorWrites) (names : List Bytes)
    (h : Partly client before world) :
    Passed client before world names (World.removePass client writes names world) := by
  induction names generalizing world with
  | nil =>
    exact .none h (fun _ => rfl) fun name hname => hname.elim (fun hin => absurd hin not_mem_nil) id
  | cons name names ih =>
    have hdropped := h.drop name writes
    have hlookup := dropMember_lookup world client name name writes
    rw [if_pos rfl] at hlookup
    rw [World.removePass]
    split
    · next hfound =>
      obtain ⟨channel, hget, hreclaimable⟩ := (any_eq_true _ _).mp hfound
      refine .found hdropped (dropMember_count ..) hget ?_ hreclaimable
      rw [hlookup] at hget
      obtain ⟨old, -, rfl⟩ := map_eq_some_iff.mp hget
      exact old.leave_leave client
    rename_i hkept
    have hsettled : Settled client (world.dropMember client name writes) name := by
      intro channel hget
      rw [hget] at hkept
      refine ⟨?_, by simpa using hkept⟩
      rw [hlookup] at hget
      obtain ⟨old, -, rfl⟩ := map_eq_some_iff.mp hget
      exact old.leave_leave client
    have hrest := ih hdropped
    generalize World.removePass client writes names (world.dropMember client name writes) =
      result at hrest
    cases hrest with
    | found hpartly hcount hget hleft hreclaimable =>
      exact .found hpartly (hcount.trans (dropMember_count ..)) hget hleft hreclaimable
    | none hpartly hkeys hlater =>
      refine .none hpartly (fun other => ?_) fun other hother => hlater other ?_
      · rw [hkeys, dropMember_lookup]
        split
        · rw [isSome_map]
        · rfl
      · rcases hother with hin | hbefore
        · rcases mem_cons.mp hin with rfl | hin
          · exact .inr hsettled
          · exact .inl hin
        · exact .inr (hbefore.drop name writes)

theorem removeChannel_channels (h : (world.channels.lookup name).isSome) (writes : MirrorWrites) :
    (world.removeChannel name writes).channels = AList.erase name world.channels := by
  rw [World.removeChannel, if_pos h]

theorem Partly.reclaim (h : Partly client before world)
    (hget : world.channels.lookup name = some channel)
    (hleft : channel.leave client = channel) (hreclaimable : channel.reclaimable = true)
    (writes : MirrorWrites) :
    Partly client before (world.removeChannel name writes) := by
  intro other
  rw [removeChannel_channels (by rw [hget]; rfl), lookup_erase_eq]
  split
  · next hsame =>
    subst hsame
    refine .inr (.inr ⟨rfl, ?_⟩)
    rcases h other with hbefore | hmapped | ⟨hgone, -⟩
    · rw [hget] at hbefore
      exact ⟨channel, hbefore.symm, by rw [hleft]; exact hreclaimable⟩
    · rw [hget] at hmapped
      obtain ⟨old, hold, hsame⟩ := map_eq_some_iff.mp hmapped.symm
      exact ⟨old, hold, by rw [hsame]; exact hreclaimable⟩
    · rw [hget] at hgone
      cases hgone
  · exact h other

/-- The rounds do not run out: the last scan finds nothing to reclaim. -/
theorem removeLoop_spec (writes : MirrorWrites) {rounds : Nat} (h : Partly client before world)
    (hrounds : HashMap.count world.channels < rounds) :
    Partly client before (World.removeLoop client writes rounds world) ∧
      ∀ name, Settled client (World.removeLoop client writes rounds world) name := by
  induction rounds generalizing world with
  | zero => omega
  | succ rounds ih =>
    have hpass := removePass_spec writes world.channels.keys h
    rw [World.removeLoop]
    generalize World.removePass client writes world.channels.keys world = result at hpass
    cases hpass with
    | @found next name channel hpartly hcount hget hleft hreclaimable =>
      have hsome : (next.channels.lookup name).isSome := by
        rw [hget]
        rfl
      have hfewer := count_erase_old hsome
      refine ih (hpartly.reclaim hget hleft hreclaimable writes) ?_
      rw [removeChannel_channels hsome]
      omega
    | @none next hpartly hkeys hsettled =>
      refine ⟨hpartly, fun name => ?_⟩
      by_cases hin : name ∈ world.channels.keys
      · exact hsettled name (.inl hin)
      · intro channel hget
        rw [mem_keys_iff, ← hkeys, hget] at hin
        exact absurd rfl hin

theorem unregisterNick_channels (world : World) (client : ClientId) (alloc : Bool) :
    (world.unregisterNick client alloc).channels = world.channels := by
  unfold World.unregisterNick
  split <;> rfl

/-- Every channel is left, and reclaimed if nothing keeps it. -/
theorem removeClient_lookup (world : World) (client : ClientId) (writes : MirrorWrites)
    (name : Bytes) :
    (world.removeClient client writes).channels.lookup name =
      (world.channels.lookup name).bind (Channel.departed client) := by
  have hstart : Partly client world (world.unregisterNick client writes.nick) := fun name =>
    .inl (by rw [unregisterNick_channels])
  obtain ⟨hpartly, hsettled⟩ := removeLoop_spec writes hstart (Nat.lt_succ_self _)
  rw [World.removeClient]
  generalize World.removeLoop client writes _ _ = after at hpartly hsettled
  have hdone := hsettled name
  rcases hpartly name with hsame | hleft | ⟨hgone, channel, hget, hreclaimable⟩
  · rw [hsame]
    cases hget : world.channels.lookup name with
    | none => rfl
    | some channel =>
      obtain ⟨hleft, hkept⟩ := hdone channel (hsame.trans hget)
      rw [bind_some, Channel.departed, hleft, hkept]
      rfl
  · rw [hleft]
    cases hget : world.channels.lookup name with
    | none => rfl
    | some channel =>
      rw [hget] at hleft
      obtain ⟨-, hkept⟩ := hdone _ hleft
      rw [map_some, bind_some, Channel.departed, hkept]
      rfl
  · rw [hgone, hget, bind_some, Channel.departed, if_pos hreclaimable]

/-! ## The prepared removal -/

/-- What the preparation found. -/
structure Derived (world : World) (client : ClientId) (deltas : List DepartureChannel) : Prop where
  sound : ∀ delta ∈ deltas, ∀ channel, delta.channel = some channel →
    world.channels.lookup delta.name = some channel ∧
      delta.cleanup = World.cleanup client (some channel) (world.membershipGet delta.name)
  mirror : ∀ delta ∈ deltas, delta.channel = none → delta.cleanup = false
  complete : ∀ name channel, world.channels.lookup name = some channel →
    client ∈ channel.members ∨
      World.cleanup client (some channel) (world.membershipGet name) = true →
    ∃ delta ∈ deltas, delta.name = name ∧ delta.channel = some channel

theorem derive_ok {found : Option Channel} {set : Option (Finset ClientId)}
    {delta : DepartureChannel}
    (h : world.deriveDepartureChannel client name found set = .ok delta) :
    delta.name = name ∧ delta.channel = found ∧ delta.cleanup = World.cleanup client found set ∧
      (delta.unionMember = true ↔ (∃ channel, found = some channel ∧ client ∈ channel.members) ∨
        ∃ s, set = some s ∧ client ∈ s) := by
  unfold World.deriveDepartureChannel at h
  dsimp only at h
  split at h
  · cases h
  split at h
  · cases h
  split at h
  · cases h
  · cases h
    refine ⟨rfl, rfl, rfl, ?_⟩
    cases found <;> cases set <;> simp

variable {deltas : List DepartureChannel}

theorem deriveFallback_ok {entries : List (Sigma fun _ : Bytes => Channel)}
    (h : world.deriveFallback client entries = .ok deltas) :
    (∀ delta ∈ deltas, ∃ e ∈ entries, delta.name = e.1 ∧ delta.channel = some e.2 ∧
        delta.cleanup = World.cleanup client (some e.2) (world.membershipGet e.1)) ∧
      ∀ e ∈ entries, client ∈ e.2.members ∨
      World.cleanup client (some e.2) (world.membershipGet e.1) = true →
        ∃ delta ∈ deltas, delta.name = e.1 ∧ delta.channel = some e.2 := by
  induction entries generalizing deltas with
  | nil =>
    rw [World.deriveFallback] at h
    cases h
    exact ⟨fun _ hnone => absurd hnone not_mem_nil, fun _ hnone => absurd hnone not_mem_nil⟩
  | cons e entries ih =>
    rw [World.deriveFallback] at h
    obtain ⟨delta, hdelta, h⟩ := bind_ok h
    obtain ⟨later, hlater, h⟩ := bind_ok h
    obtain ⟨hname, hchannel, hcleanup, hunion⟩ := derive_ok hdelta
    obtain ⟨hsound, hcomplete⟩ := ih hlater
    have hthis : ∃ e' ∈ e :: entries, delta.name = e'.1 ∧ delta.channel = some e'.2 ∧
        delta.cleanup = World.cleanup client (some e'.2) (world.membershipGet e'.1) :=
      ⟨e, mem_cons_self, hname, hchannel, hcleanup⟩
    have hthat : ∀ d ∈ later, ∃ e' ∈ e :: entries, d.name = e'.1 ∧ d.channel = some e'.2 ∧
        d.cleanup = World.cleanup client (some e'.2) (world.membershipGet e'.1) := fun d hd => by
      obtain ⟨e', he', hfound⟩ := hsound d hd
      exact ⟨e', mem_cons_of_mem e he', hfound⟩
    cases h
    split
    · refine ⟨forall_mem_cons.mpr ⟨hthis, hthat⟩,
        forall_mem_cons.mpr ⟨fun _ => ?_, fun e' he' hcase => ?_⟩⟩
      · exact ⟨delta, mem_cons_self, hname, hchannel⟩
      · obtain ⟨d, hd, hfound⟩ := hcomplete e' he' hcase
        exact ⟨d, mem_cons_of_mem delta hd, hfound⟩
    · next hskip =>
      refine ⟨hthat, forall_mem_cons.mpr ⟨fun hcase => absurd ?_ hskip, hcomplete⟩⟩
      rw [Bool.or_eq_true]
      rcases hcase with hmember | hclean
      · exact .inl (hunion.mpr (.inl ⟨e.2, rfl, hmember⟩))
      · exact .inr (hcleanup.trans hclean)

theorem deriveMirror_ok {entries : List (Sigma fun _ : Bytes => Finset ClientId)}
    (h : world.deriveMirror client entries = .ok deltas) :
    ∀ delta ∈ deltas, delta.channel = none ∧ delta.cleanup = false := by
  induction entries generalizing deltas with
  | nil =>
    rw [World.deriveMirror] at h
    cases h
    exact fun _ hnone => absurd hnone not_mem_nil
  | cons e entries ih =>
    rw [World.deriveMirror] at h
    split at h
    · exact ih h
    obtain ⟨delta, hdelta, h⟩ := bind_ok h
    obtain ⟨later, hlater, h⟩ := bind_ok h
    obtain ⟨-, hchannel, hcleanup, -⟩ := derive_ok hdelta
    cases h
    split
    · exact forall_mem_cons.mpr ⟨⟨hchannel, hcleanup⟩, ih hlater⟩
    · exact ih hlater

variable {prepared : PreparedPhysicalDeparture} {alloc : Bool}

theorem prepare_ok
    (h : world.preparePhysicalIdentityRemove client alloc = .ok prepared) :
    prepared.source = client ∧ Derived world client prepared.channels := by
  obtain ⟨-, -, h⟩ := bind_ok h
  obtain ⟨-, -, h⟩ := bind_ok h
  obtain ⟨fallback, hfallback, h⟩ := bind_ok h
  obtain ⟨mirror, hmirror, h⟩ := bind_ok h
  obtain ⟨hsound, hcomplete⟩ := deriveFallback_ok hfallback
  have hnone := deriveMirror_ok hmirror
  split_ifs at h
  cases h
  refine ⟨rfl, fun delta hdelta channel hchannel => ?_, fun delta hdelta hchannel => ?_,
    fun name channel hget hcase => ?_⟩
  · rcases mem_append.mp hdelta with hin | hin
    · obtain ⟨e, he, hname, hfound, hcleanup⟩ := hsound delta hin
      rw [hchannel] at hfound
      cases hfound
      rw [hname]
      exact ⟨HashMap.mem_entries.mp he, hcleanup⟩
    · rw [(hnone delta hin).1] at hchannel
      cases hchannel
  · rcases mem_append.mp hdelta with hin | hin
    · obtain ⟨e, -, -, hfound, -⟩ := hsound delta hin
      rw [hchannel] at hfound
      cases hfound
    · exact (hnone delta hin).2
  · obtain ⟨delta, hin, hname, hfound⟩ :=
      hcomplete ⟨name, channel⟩ (HashMap.mem_entries.mpr hget) hcase
    exact ⟨delta, mem_append_left mirror hin, hname, hfound⟩

section

variable (deltas : List DepartureChannel) (world : World)

theorem commitMembers_lookup (source : ClientId) (name : Bytes) :
    (deltas.foldl (World.commitMember source) world).channels.lookup name =
      if ∃ delta ∈ deltas, delta.name = name ∧
      delta.channel.isSome then (world.channels.lookup name).map (·.leave source)
      else world.channels.lookup name := by
  induction deltas generalizing world with
  | nil => simp
  | cons delta deltas ih =>
    have hfirst : (world.commitMember source delta).channels.lookup name =
        if delta.name = name ∧
          delta.channel.isSome then (world.channels.lookup name).map (·.leave source)
        else world.channels.lookup name := by
      rw [World.commitMember]
      by_cases hsome : delta.channel.isSome = true
      · simp only [hsome, ↓reduceIte, and_true, lookup_adjust, eq_comm]
      · simp only [hsome, Bool.false_eq_true, ↓reduceIte, and_false]
    rw [foldl_cons, ih, hfirst]
    simp only [exists_mem_cons_iff]
    by_cases hhere : delta.name = name ∧ delta.channel.isSome = true
    · rw [if_pos hhere, if_pos (Or.inl hhere), Option.map_map]
      split
      · exact congrArg (fun f => Option.map f (world.channels.lookup name))
          (funext fun ch => ch.leave_leave source)
      · rfl
    · rw [if_neg hhere]
      simp only [hhere, false_or]

theorem commitNames_channels :
    (deltas.foldl World.commitName world).channels = world.channels := by
  induction deltas generalizing world with
  | nil => rfl
  | cons delta deltas ih => exact ih (world.commitName delta)

theorem commitCleanups_lookup (name : Bytes) :
    (deltas.foldl World.commitCleanup world).channels.lookup name =
      if ∃ delta ∈ deltas, delta.name = name ∧
      delta.cleanup = true then none else world.channels.lookup name := by
  induction deltas generalizing world with
  | nil => simp
  | cons delta deltas ih =>
    have hfirst : (world.commitCleanup delta).channels.lookup name =
        if delta.name = name ∧ delta.cleanup = true then none else world.channels.lookup name := by
      rw [World.commitCleanup]
      by_cases hclean : delta.cleanup = true
      · simp only [hclean, ↓reduceIte, and_true, lookup_erase_eq, eq_comm]
      · simp only [hclean, Bool.false_eq_true, ↓reduceIte, and_false]
    rw [foldl_cons, ih, hfirst]
    simp only [exists_mem_cons_iff]
    by_cases hhere : delta.name = name ∧ delta.cleanup = true
    · rw [if_pos hhere, if_pos (Or.inl hhere)]
      split <;> rfl
    · simp only [hhere, false_or, ↓reduceIte]

end

/-- Every channel is left and loses the invite, unless it is cleaned up. -/
theorem commit_lookup
    (h : world.preparePhysicalIdentityRemove client alloc = .ok prepared) (name : Bytes) :
    (world.commit prepared).channels.lookup name = (world.channels.lookup name).bind fun channel =>
      if World.cleanup client (some channel) (world.membershipGet name) then none
      else some ((channel.uninvite client).leave client) := by
  obtain ⟨rfl, hderived⟩ := prepare_ok h
  rw [World.commit, commitCleanups_lookup, World.commitNick, commitNames_channels,
    commitMembers_lookup]
  simp only [lookup_mapValues]
  cases hget : world.channels.lookup name with
  | none => simp
  | some channel =>
    simp only [map_some, bind_some]
    by_cases hclean : World.cleanup prepared.source (some channel) (world.membershipGet name) = true
    · obtain ⟨delta, hdelta, hname, hchannel⟩ := hderived.complete name channel hget (.inr hclean)
      have hmatches := (hderived.sound delta hdelta channel hchannel).2
      rw [hname, hclean] at hmatches
      rw [if_pos ⟨delta, hdelta, hname, hmatches⟩, if_pos hclean]
    have hkept : ¬ ∃ delta ∈ prepared.channels, delta.name = name ∧ delta.cleanup = true := by
      rintro ⟨delta, hdelta, hname, htrue⟩
      cases hchannel : delta.channel with
      | none =>
        rw [hderived.mirror delta hdelta hchannel] at htrue
        cases htrue
      | some found =>
        obtain ⟨hfound, hcleanup⟩ := hderived.sound delta hdelta found hchannel
        rw [hname, hget] at hfound
        cases hfound
        rw [hname, htrue] at hcleanup
        exact hclean hcleanup.symm
    rw [if_neg hkept, if_neg hclean]
    split
    · rfl
    rename_i hout
    rw [Channel.leave_of_not_mem]
    intro hmember
    obtain ⟨delta, hdelta, hname, hchannel⟩ := hderived.complete name channel hget (.inl hmember)
    exact hout ⟨delta, hdelta, hname, by rw [hchannel]; rfl⟩

/-- The departure leaves the channels of others as they were, and no channel mentions the client
any more. -/
structure TouchesOwn (before after : World) (client : ClientId) : Prop where
  frame : ∀ name channel, before.channels.lookup name = some channel → client ∉ channel.members →
    client ∉ channel.invites → after.channels.lookup name = some channel
  gone : ∀ name channel, after.channels.lookup name = some channel →
    client ∉ channel.members ∧ client ∉ channel.invites

/-- The client is neither a member of the channel nor invited to it. -/
structure Bystander (world : World) (client : ClientId) (name : Bytes) (channel : Channel) :
    Prop where
  get : world.channels.lookup name = some channel
  notMember : client ∉ channel.members
  notInvited : client ∉ channel.invites

/-- Something keeps the channel: that it is registered, or a member. -/
def Occupied (channel : Channel) : Prop :=
  channel.extModes.registered = true ∨ ∃ other, other ∈ channel.members

/-- The mirror of the channel lists another client. -/
def Mirrored (world : World) (client : ClientId) (name : Bytes) : Prop :=
  ∃ s, world.membershipGet name = some s ∧ ∃ other ∈ s, other ≠ client

theorem occupied_iff : Occupied channel ↔ channel.reclaimable = false := by
  rw [← Bool.not_eq_true, Channel.reclaimable_iff, count_eq_zero, Occupied]
  constructor
  · rintro (hregistered | ⟨other, hmember⟩) ⟨hempty, hnot⟩
    · rw [hregistered] at hnot
      cases hnot
    · exact hempty other hmember
  · intro hnot
    by_cases hregistered : channel.extModes.registered = true
    · exact .inl hregistered
    · refine .inr (not_forall_not.mp fun hempty => hnot ⟨hempty, ?_⟩)
      simpa using hregistered

theorem card_others (client : ClientId) (s : Finset ClientId) :
    (s.card - if client ∈ s then 1 else 0) = 0 ↔ ∀ other ∈ s, other = client := by
  split
  · next hin =>
    rw [Nat.sub_eq_zero_iff_le, Finset.card_le_one]
    exact ⟨fun h other hother => h other hother client hin,
      fun h a ha b hb => (h a ha).trans (h b hb).symm⟩
  · next hout =>
    rw [Nat.sub_zero, Finset.card_eq_zero, Finset.eq_empty_iff_forall_notMem]
    exact ⟨fun h other hother => absurd hother (h other),
      fun h other hother => hout (h other hother ▸ hother)⟩

theorem cleanup_iff (h : client ∉ channel.members) :
    World.cleanup client (some channel) (world.membershipGet name) = false ↔
      Occupied channel ∨ Mirrored world client name := by
  have hfallback : World.fallbackFinal client (some channel) = HashMap.count channel.members := by
    simp [World.fallbackFinal, h]
  rw [occupied_iff, Channel.reclaimable, World.cleanup, any_some, hfallback, Mirrored]
  cases hset : world.membershipGet name with
  | none =>
    simp only [World.rcuFinal, hfallback, reduceCtorEq, false_and, exists_false, or_false]
    cases channel.extModes.registered <;> simp
  | some s =>
    have hcard := card_others client s
    simp only [World.rcuFinal, Option.some.injEq, exists_eq_left', hcard]
    cases channel.extModes.registered <;> simp [Classical.or_iff_not_imp_left]

theorem removeClient_touches_iff (world : World) (client : ClientId) (writes : MirrorWrites) :
    TouchesOwn world (world.removeClient client writes) client ↔
      (∀ name channel, Bystander world client name channel → Occupied channel) ∧
        ∀ name channel, world.channels.lookup name = some channel → client ∈ channel.invites →
          ¬ Occupied (channel.leave client) := by
  have hlookup := removeClient_lookup world client writes
  constructor
  · intro htouches
    refine ⟨fun name channel hbystander => ?_, fun name channel hget hinvited hoccupied => ?_⟩
    · have hkept :=
        htouches.frame name channel hbystander.get hbystander.notMember hbystander.notInvited
      rw [hlookup, hbystander.get, bind_some, Channel.departed,
        Channel.leave_of_not_mem hbystander.notMember] at hkept
      split_ifs at hkept
      · next hnot => exact occupied_iff.mpr (by simpa using hnot)
    · have hkept : (world.removeClient client writes).channels.lookup name =
          some (channel.leave client) := by
        rw [hlookup, hget, bind_some, Channel.departed, occupied_iff.mp hoccupied]
        rfl
      exact (htouches.gone name _ hkept).2 hinvited
  · rintro ⟨hothers, hinvited⟩
    refine ⟨fun name channel hget hmember hinvite => ?_, fun name channel hget => ?_⟩
    · rw [hlookup, hget, bind_some, Channel.departed, Channel.leave_of_not_mem hmember,
        occupied_iff.mp (hothers name channel ⟨hget, hmember, hinvite⟩)]
      rfl
    · rw [hlookup] at hget
      obtain ⟨old, hold, hleft⟩ := bind_eq_some_iff.mp hget
      rw [Channel.departed] at hleft
      split_ifs at hleft with hnot
      cases hleft
      refine ⟨old.not_mem_leave client, fun hin => hinvited name old hold hin (occupied_iff.mpr ?_)⟩
      simpa using hnot

theorem commit_touches_iff
    (h : world.preparePhysicalIdentityRemove client alloc = .ok prepared) :
    TouchesOwn world (world.commit prepared) client ↔
      ∀ name channel, Bystander world client name channel → Occupied channel ∨
      Mirrored world client name := by
  have hlookup := commit_lookup h
  constructor
  · intro htouches name channel hbystander
    have hkept :=
      htouches.frame name channel hbystander.get hbystander.notMember hbystander.notInvited
    rw [hlookup, hbystander.get, bind_some] at hkept
    split_ifs at hkept
    · next hnot => exact (cleanup_iff hbystander.notMember).mp (by simpa using hnot)
  · intro hothers
    refine ⟨fun name channel hget hmember hinvite => ?_, fun name channel hget => ?_⟩
    · have hkept := (cleanup_iff hmember).mpr (hothers name channel ⟨hget, hmember, hinvite⟩)
      rw [hlookup, hget, bind_some, hkept, Channel.uninvite_of_not_mem hinvite,
        Channel.leave_of_not_mem hmember]
      rfl
    · rw [hlookup] at hget
      obtain ⟨old, hold, hleft⟩ := bind_eq_some_iff.mp hget
      split_ifs at hleft
      · cases hleft
        exact ⟨(old.uninvite client).not_mem_leave client, Finset.notMem_erase client old.invites⟩

/-- When a departure touches only the client's own channels: directly, if every other channel is
registered or has members and each channel that invited the client is reclaimed with it; in two
steps, if every other channel is registered or has members, be it only in the mirror. -/
theorem departure_touches_own_iff (world : World) (client : ClientId) :
    (∀ writes, TouchesOwn world (world.removeClient client writes) client ↔
      (∀ name channel, Bystander world client name channel → Occupied channel) ∧
        ∀ name channel, world.channels.lookup name = some channel → client ∈ channel.invites →
          ¬ Occupied (channel.leave client)) ∧
    ∀ alloc prepared, world.preparePhysicalIdentityRemove client alloc = .ok prepared →
      (TouchesOwn world (world.commit prepared) client ↔
        ∀ name channel, Bystander world client name channel → Occupied channel ∨
        Mirrored world client name) :=
  ⟨removeClient_touches_iff world client, fun _ _ h => commit_touches_iff h⟩

/-! A server that holds the list state of `#l` for others, and a client that is nowhere. -/

def someone : ClientId := ⟨1, 2, 3⟩

def hashL : Bytes := [0x23, 0x6C]

def remoteList : World :=
  (World.init.ensureRemoteListChannel hashL ⟨true, true, true, true, true⟩).2

def allWrites : MirrorWrites := ⟨true, fun _ => true, fun _ => true⟩

/-- The channel with one member. -/
def joined (member : ClientId) : World :=
  { remoteList with
    channels :=
      HashMap.adjust hashL (fun channel => { channel with members := AList.insert member ⟨0⟩ ∅ })
      remoteList.channels }

/-- The client is invited to the channel of another. -/
def invited : World := ((joined ⟨1, 2, 4⟩).addInvite hashL someone true).2

/-- A second channel, which another client is in. -/
def crowded : World :=
  let world :=
    ((joined someone).ensureRemoteListChannel [0x23, 0x6D] ⟨true, true, true, true, true⟩).2
  { world with
    channels := HashMap.adjust [0x23, 0x6D]
      (fun channel => { channel with members := AList.insert ⟨1, 2, 4⟩ ⟨0⟩ ∅ }) world.channels }

theorem departure_touches_own_iff_joined :
    (∃ channel, Bystander crowded someone [0x23, 0x6D] channel) ∧
      TouchesOwn crowded (crowded.removeClient someone allWrites) someone ∧
      ∃ prepared, crowded.preparePhysicalIdentityRemove someone true = .ok prepared ∧
        TouchesOwn crowded (crowded.commit prepared) someone := by
  have hrows : ∀ row ∈ crowded.channels.entries, someone ∉ row.2.invites ∧
      (someone ∈ row.2.members ∨ (⟨1, 2, 4⟩ : ClientId) ∈ row.2.members) := by
    decide +kernel
  have hoccupied : ∀ name channel, Bystander crowded someone name channel → Occupied channel := by
    intro name channel hbystander
    obtain ⟨-, hin⟩ := hrows ⟨name, channel⟩ (HashMap.mem_entries.mpr hbystander.get)
    exact .inr ⟨_, hin.resolve_left hbystander.notMember⟩
  obtain ⟨hdirect, hprepared⟩ := departure_touches_own_iff crowded someone
  refine ⟨⟨_, rfl, by decide, by decide⟩, (hdirect allWrites).mpr ⟨hoccupied, ?_⟩, _, rfl,
    (hprepared true _ rfl).mpr fun name channel hbystander =>
      .inl (hoccupied name channel hbystander)⟩
  intro name channel hget hinvited
  exact absurd hinvited (hrows ⟨name, channel⟩ (HashMap.mem_entries.mpr hget)).1

/-- Both ways to remove the client take the empty channel away, and the direct way leaves the
client's invite to another channel. -/
theorem remote_list_reclaimed :
    Bystander remoteList someone hashL (Channel.init hashL 1 0) ∧
      (remoteList.removeClient someone allWrites).channels.lookup hashL = none ∧
      ¬ TouchesOwn remoteList (remoteList.removeClient someone allWrites) someone ∧
      ∃ prepared, remoteList.preparePhysicalIdentityRemove someone true = .ok prepared ∧
        (remoteList.commit prepared).channels.lookup hashL = none ∧
        ¬ TouchesOwn remoteList (remoteList.commit prepared) someone ∧
      ∃ channel, (invited.removeClient someone allWrites).channels.lookup hashL = some channel ∧
        someone ∈ channel.invites := by
  have hbystander : Bystander remoteList someone hashL (Channel.init hashL 1 0) :=
    ⟨rfl, by decide, by decide⟩
  have hwithout {after : World} (hnone : after.channels.lookup hashL = none) :
      ¬ TouchesOwn remoteList after someone :=
    fun htouches => by
      have hkept := htouches.frame hashL _ hbystander.get hbystander.notMember hbystander.notInvited
      rw [hnone] at hkept
      cases hkept
  have hgone : (remoteList.removeClient someone allWrites).channels.lookup hashL = none := rfl
  obtain ⟨prepared, hprepared⟩ :
      ∃ prepared, remoteList.preparePhysicalIdentityRemove someone true = .ok prepared := ⟨_, rfl⟩
  have hcommitted : (remoteList.commit prepared).channels.lookup hashL = none :=
    commit_lookup hprepared hashL
  exact ⟨hbystander, hgone, hwithout hgone, prepared, hprepared, hcommitted, hwithout hcommitted, _,
    rfl, by decide⟩

end OnyxServer.ChatWorld
