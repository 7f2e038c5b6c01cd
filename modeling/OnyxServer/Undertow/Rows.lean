import OnyxServer.Undertow.Runs

/-!
# Rows, and what operations leave alone

Which rows a table has after its rosters changed, and for each operation on the routes,
the index or the markers the parts of the table that it does not touch.
-/
namespace OnyxServer.Undertow

open Lib Text List

variable {t t' : RouteTable} {chan : Bytes} {list : List Member} {m : Member}

/-- At most the routes differ. -/
structure RoutesOnly (t t' : RouteTable) : Prop where
  cfg : t'.cfg = t.cfg
  members : t'.channelMembers = t.channelMembers
  claims : t'.bestNickClaims = t.bestNickClaims
  dirty : t'.claimIndexDirty = t.claimIndexDirty

/-- At most the index differs. -/
structure IndexOnly (t t' : RouteTable) : Prop where
  cfg : t'.cfg = t.cfg
  members : t'.channelMembers = t.channelMembers
  routes : t'.nickToNode = t.nickToNode
  count : t'.nickCount = t.nickCount

/-- Routes and index are what they were, and so are the rosters, up to rosters that are
empty. -/
structure Alike (t t' : RouteTable) : Prop where
  cfg : t'.cfg = t.cfg
  roster : ∀ chan, t'.channelMembersOf chan = t.channelMembersOf chan
  routes : t'.nickToNode = t.nickToNode
  count : t'.nickCount = t.nickCount
  claims : t'.bestNickClaims = t.bestNickClaims
  dirty : t'.claimIndexDirty = t.claimIndexDirty

theorem Alike.refl (t : RouteTable) : Alike t t := ⟨rfl, fun _ => rfl, rfl, rfl, rfl, rfl⟩

theorem Alike.trans {t'' : RouteTable} (h : Alike t t') (h' : Alike t' t'') : Alike t t'' :=
  ⟨h'.cfg.trans h.cfg, fun chan => (h'.roster chan).trans (h.roster chan),
    h'.routes.trans h.routes, h'.count.trans h.count, h'.claims.trans h.claims,
    h'.dirty.trans h.dirty⟩

theorem IndexOnly.refl (t : RouteTable) : IndexOnly t t := ⟨rfl, rfl, rfl, rfl⟩

theorem IndexOnly.trans {t'' : RouteTable} (h : IndexOnly t t') (h' : IndexOnly t' t'') :
    IndexOnly t t'' :=
  ⟨h'.cfg.trans h.cfg, h'.members.trans h.members, h'.routes.trans h.routes, h'.count.trans h.count⟩

section

variable (t : RouteTable)

theorem RoutesOnly.refl : RoutesOnly t t := ⟨rfl, rfl, rfl, rfl⟩

theorem setNickLocation_frame (nick : Bytes) (node : NodeId) (alloc : Bool) :
    RoutesOnly t (t.setNickLocation nick node alloc).2 := by
  rw [RouteTable.setNickLocation]
  split
  · exact .refl t
  · exact .refl t
  · split_ifs <;> exact ⟨rfl, rfl, rfl, rfl⟩

theorem removeNick_frame (nick : Bytes) : RoutesOnly t (t.removeNick nick).2 := by
  rw [RouteTable.removeNick]
  split_ifs <;> exact ⟨rfl, rfl, rfl, rfl⟩

theorem noteBestNickClaim_frame (nick : Bytes) (claim : NickClaim) (alloc : Bool) :
    IndexOnly t (t.noteBestNickClaim nick claim alloc) := by
  rw [RouteTable.noteBestNickClaim]
  split
  · exact .refl t
  · split
    · exact .refl t
    · split <;> split <;> exact ⟨rfl, rfl, rfl, rfl⟩

theorem reselectBestNickKey_frame (key : NickKey) (alloc : Bool) :
    IndexOnly t (t.reselectBestNickKey key alloc) := by
  rw [RouteTable.reselectBestNickKey]
  split
  · exact .refl t
  split
  · split
    · exact ⟨rfl, rfl, rfl, rfl⟩
    · split <;> exact ⟨rfl, rfl, rfl, rfl⟩
  · exact ⟨rfl, rfl, rfl, rfl⟩

theorem reselectNick_frame (nick : Bytes) (alloc : Bool) :
    IndexOnly t (t.reselectNick nick alloc) := by
  rw [RouteTable.reselectNick]
  split
  · exact .refl t
  · exact reselectBestNickKey_frame t _ alloc

theorem reselectTwo_frame (old new : Bytes) (index indexNew : Bool) :
    IndexOnly t (t.reselectTwo old new index indexNew) := by
  rw [RouteTable.reselectTwo]
  split_ifs
  · exact reselectNick_frame t old index
  · exact (reselectNick_frame t old index).trans (reselectNick_frame _ new indexNew)

theorem rebuildAllBestNickClaims_frame (alloc : Nat → Bool) :
    IndexOnly t (t.rebuildAllBestNickClaims alloc) :=
  ⟨rfl, rfl, rfl, rfl⟩

theorem rebuildIfDirty_frame (alloc : Nat → Bool) :
    IndexOnly t (t.rebuildIfDirty alloc) := by
  rw [RouteTable.rebuildIfDirty]
  split_ifs
  · exact rebuildAllBestNickClaims_frame t alloc
  · exact .refl t

theorem notePartTombstone_frame (chan nick : Bytes) (node : NodeId) (hlc : UInt64)
    (nowMs : Int) (ensure alloc : Bool) :
    Alike t (t.notePartTombstone chan nick node hlc nowMs ensure alloc).2 := by
  simp only [RouteTable.notePartTombstone]
  split_ifs
  · exact .refl t
  · split
    · exact ⟨rfl, fun _ => rfl, rfl, rfl, rfl, rfl⟩
    · exact ⟨rfl, fun _ => rfl, rfl, rfl, rfl, rfl⟩
  · split <;> exact ⟨rfl, fun _ => rfl, rfl, rfl, rfl, rfl⟩

theorem clearPartTombstone_frame (chan nick : Bytes) (node : NodeId) :
    Alike t (t.clearPartTombstone chan nick node) := by
  rw [RouteTable.clearPartTombstone]
  split
  · exact .refl t
  · split
    · exact .refl t
    · exact ⟨rfl, fun _ => rfl, rfl, rfl, rfl, rfl⟩

theorem sweepTombs_frame (stale : PartTombstone → Bool) (forget : Bytes → Bool) :
    Alike t (t.sweepTombs stale forget) :=
  ⟨rfl, fun _ => rfl, rfl, rfl, rfl, rfl⟩

theorem ensureChannelList_frame (chan : Bytes) (alloc : Bool) :
    Alike t (t.ensureChannelList chan alloc).2 := by
  rw [RouteTable.ensureChannelList]
  split
  · exact .refl t
  · split_ifs <;> exact ⟨rfl, fun _ => rfl, rfl, rfl, rfl, rfl⟩

theorem writeMask_frame (event : ListEvent) (list : List ChannelListEntry)
    (found : Option Nat) (alloc : Bool) : Alike t (t.writeMask event list found alloc).2 := by
  rw [RouteTable.writeMask]
  split <;> split_ifs <;> exact ⟨rfl, fun _ => rfl, rfl, rfl, rfl, rfl⟩

theorem applyFact_frame (op : FactOp) : Alike t (applyFact t op).2 := by
  obtain ⟨event, ensure, alloc⟩ := op
  cases event with
  | list event =>
    simp only [applyFact, RouteTable.applyChannelList]
    split
    · exact .refl t
    have hframe := ensureChannelList_frame t event.chan ensure
    split
    · rename_i heq
      rwa [heq] at hframe
    · rename_i heq
      rw [heq] at hframe
      exact hframe.trans (writeMask_frame _ _ _ _ _)
  | flags event =>
    simp only [applyFact, RouteTable.applyChannelModeFlags]
    split
    · exact .refl t
    · split <;> split_ifs <;> exact ⟨rfl, fun _ => rfl, rfl, rfl, rfl, rfl⟩
  | topic event =>
    simp only [applyFact, RouteTable.applyTopic]
    split
    · exact .refl t
    · split <;> split_ifs <;> exact ⟨rfl, fun _ => rfl, rfl, rfl, rfl, rfl⟩

theorem addChannelMember_frame (chan : Bytes) (node : NodeId) (alloc : Bool) :
    Alike t (t.addChannelMember chan node alloc).2 := by
  rw [RouteTable.addChannelMember]
  split
  · exact .refl t
  split
  · split <;> exact ⟨rfl, fun _ => rfl, rfl, rfl, rfl, rfl⟩
  split_ifs
  · exact .refl t
  · exact .refl t
  · split <;> exact ⟨rfl, fun _ => rfl, rfl, rfl, rfl, rfl⟩

theorem leaveNodes_frame (chan : Bytes) (nodes : List NodeRef) :
    Alike t (t.leaveNodes chan nodes) := by
  rw [RouteTable.leaveNodes]
  split_ifs <;> exact ⟨rfl, fun _ => rfl, rfl, rfl, rfl, rfl⟩

theorem removeChannelMember_frame (chan : Bytes) (node : NodeId) :
    Alike t (t.removeChannelMember chan node) := by
  rw [RouteTable.removeChannelMember]
  split
  · exact .refl t
  · exact leaveNodes_frame t _ _

theorem setChannelNodePresence_frame (chan : Bytes) (node : NodeId)
    (present alloc : Bool) : Alike t (t.setChannelNodePresence chan node present alloc).2 := by
  rw [RouteTable.setChannelNodePresence]
  split
  · exact .refl t
  split_ifs
  · exact .refl t
  · exact addChannelMember_frame t chan node alloc
  · split
    · exact .refl t
    · exact leaveNodes_frame t _ _

end

theorem roster_congr (h : t'.channelMembers = t.channelMembers) (chan : Bytes) :
    t'.channelMembersOf chan = t.channelMembersOf chan := by
  rw [RouteTable.channelMembersOf, h, RouteTable.channelMembersOf]

theorem roster_of_lookup (h : t.channelMembers.lookup chan = some list) :
    t.channelMembersOf chan = list := by
  rw [RouteTable.channelMembersOf, h, Option.getD_some]

theorem mem_rows : m ∈ t.rows ↔ ∃ chan, m ∈ t.channelMembersOf chan := by
  rw [RouteTable.rows, mem_flatMap]
  constructor
  · rintro ⟨⟨chan, list⟩, he, hm⟩
    exact ⟨chan, (roster_of_lookup (HashMap.mem_entries.mp he)).symm ▸ hm⟩
  · rintro ⟨chan, hm⟩
    cases hlookup : t.channelMembers.lookup chan with
    | none => simp [RouteTable.channelMembersOf, hlookup] at hm
    | some list =>
      rw [roster_of_lookup hlookup] at hm
      exact ⟨⟨chan, list⟩, HashMap.mem_entries.mpr hlookup, hm⟩

theorem mem_rows_congr (h : ∀ chan, t'.channelMembersOf chan = t.channelMembersOf chan)
    (m : Member) :
    m ∈ t'.rows ↔ m ∈ t.rows := by
  simp only [mem_rows, h]

theorem roster_setRoster (t : RouteTable) (chan chan' : Bytes) (list : List Member) :
    (t.setRoster chan list).channelMembersOf chan' =
      if chan' = chan then list else t.channelMembersOf chan' := by
  simp only [RouteTable.channelMembersOf, RouteTable.setRoster, HashMap.lookup_insert_eq]
  split <;> rfl

/-- A row of some other channel. -/
def Elsewhere (t : RouteTable) (chan : Bytes) (m : Member) : Prop :=
  ∃ chan', chan' ≠ chan ∧ m ∈ t.channelMembersOf chan'

theorem mem_rows_split (chan : Bytes) :
    m ∈ t.rows ↔ m ∈ t.channelMembersOf chan ∨ Elsewhere t chan m := by
  rw [mem_rows]
  constructor
  · rintro ⟨chan', hm⟩
    by_cases hchan : chan' = chan
    · exact .inl (hchan ▸ hm)
    · exact .inr ⟨chan', hchan, hm⟩
  · rintro (hm | ⟨chan', -, hm⟩)
    · exact ⟨chan, hm⟩
    · exact ⟨chan', hm⟩

theorem mem_rows_setRoster : m ∈ (t.setRoster chan list).rows ↔ m ∈ list ∨ Elsewhere t chan m := by
  rw [mem_rows_split chan, roster_setRoster, if_pos rfl]
  refine or_congr_right (exists_congr fun chan' => and_congr_right fun hne => ?_)
  rw [roster_setRoster, if_neg hne]

variable {l r : List Member}

/-- Rosters that differ in one row at most. -/
theorem mem_rows_of_roster {cur : Member}
    (hroster : t.channelMembersOf chan = l ++ cur :: r) :
    m ∈ t.rows ↔ m = cur ∨ m ∈ l ++ r ∨ Elsewhere t chan m := by
  rw [mem_rows_split chan, hroster, mem_split, or_assoc]

theorem Alike.setRoster (h : Alike t t') (chan : Bytes) (list : List Member) :
    Alike (t.setRoster chan list) (t'.setRoster chan list) where
  cfg := h.cfg
  roster chan' := by rw [roster_setRoster, roster_setRoster, h.roster]
  routes := h.routes
  count := h.count
  claims := h.claims
  dirty := h.dirty

theorem pruneIfEmpty_frame (t : RouteTable) (chan : Bytes) : Alike t (t.pruneIfEmpty chan) := by
  rw [RouteTable.pruneIfEmpty]
  split
  · rename_i hempty
    refine ⟨rfl, fun chan' => ?_, rfl, rfl, rfl, rfl⟩
    simp only [RouteTable.channelMembersOf, HashMap.lookup_erase_eq]
    split
    · rename_i heq
      rw [heq, hempty]
      rfl
    · rfl
  · exact .refl t

theorem keepRosters_frame (t : RouteTable) {p : Bytes → List Member → Bool}
    (hp : ∀ chan list, list ≠ [] → p chan list = true) :
    Alike t { t with channelMembers := t.channelMembers.keep p } := by
  refine ⟨rfl, fun chan => ?_, rfl, rfl, rfl, rfl⟩
  simp only [RouteTable.channelMembersOf, HashMap.lookup_keep]
  cases t.channelMembers.lookup chan with
  | none => rfl
  | some list =>
    by_cases hlist : list = []
    · subst hlist
      cases hkeep : p chan [] <;> simp [Option.filter, hkeep]
    · simp [Option.filter, hp chan list hlist]

theorem pruneEmpty_frame (t : RouteTable) : Alike t t.pruneEmpty :=
  keepRosters_frame t fun _ list hne => by simpa using hne

theorem ensureMemberList_spec (t : RouteTable) (chan : Bytes) (alloc : Bool) :
    (∃ e, t.ensureMemberList chan alloc = (.error e, t)) ∨
      ∃ t', t.ensureMemberList chan alloc = (.ok (t.channelMembersOf chan), t') ∧ Alike t t' := by
  rw [RouteTable.ensureMemberList]
  cases hlookup : t.channelMembers.lookup chan with
  | some list => exact .inr ⟨t, by rw [roster_of_lookup hlookup], .refl t⟩
  | none =>
    have hchan : t.channelMembersOf chan = [] := by
      rw [RouteTable.channelMembersOf, hlookup, Option.getD_none]
    cases alloc
    · exact .inl ⟨_, rfl⟩
    · refine .inr
        ⟨t.setRoster chan [], by rw [hchan]; rfl, rfl, fun chan' => ?_, rfl, rfl, rfl, rfl⟩
      rw [roster_setRoster]
      split
      · rename_i heq
        rw [heq, hchan]
      · rfl

variable {f : List Member → List Member}

theorem roster_mapRows (hf : f [] = []) (chan : Bytes) :
    (t.mapRows f).channelMembersOf chan = f (t.channelMembersOf chan) := by
  simp only [RouteTable.channelMembersOf, RouteTable.mapRows, HashMap.lookup_mapValues]
  cases t.channelMembers.lookup chan with
  | none => exact hf.symm
  | some list => rfl

theorem removeNodeMembers_frame (t : RouteTable) (node : NodeId) (forget : Bytes → Bool) :
    Alike
      (t.mapRows fun list => swapSweep (fun m => decide (m.node = node)) list.length 0 list)
      (t.removeNodeMembers node forget) :=
  keepRosters_frame _ fun _ list hne => by simp [hne]

/-- The rosters after a node was removed, up to order. -/
theorem roster_removeNode (t : RouteTable) (node : NodeId) (a : RouteTable.RemoveAllocs)
    (chan : Bytes) :
    ((t.removeNode node a).channelMembersOf chan).Perm
      ((t.channelMembersOf chan).filter fun m => !decide (m.node = node)) := by
  rw [RouteTable.removeNode, roster_congr (rebuildAllBestNickClaims_frame _ _).members,
    (sweepTombs_frame _ _ _).roster, (removeNodeMembers_frame _ _ _).roster, roster_mapRows rfl]
  exact swapSweep_perm _ _ [] _ (Nat.le_refl _)

theorem mem_rows_mapRows (hf : f [] = []) :
    m ∈ (t.mapRows f).rows ↔ ∃ chan, m ∈ f (t.channelMembersOf chan) := by
  simp only [mem_rows, roster_mapRows hf]

/-- The row that a search finds is the first of its nick. -/
theorem findRow_some {nick : Bytes} {i : Nat} {cur : Member}
    (h : findRow list nick = some (i, cur)) :
    ∃ l r, list = l ++ cur :: r ∧ l.length = i ∧ cur.nick = nick ∧ ∀ e ∈ l, e.nick ≠ nick := by
  obtain ⟨j, hj, hmap⟩ := Option.bind_eq_some_iff.mp h
  obtain ⟨m, hm, heq⟩ := Option.map_eq_some_iff.mp hmap
  obtain ⟨rfl, rfl⟩ := Prod.mk.inj heq
  obtain ⟨l, x, r, rfl, rfl, hx, hfirst⟩ := findIdx?_split hj
  obtain rfl : x = m := by simpa using hm
  exact ⟨l, r, rfl, rfl, of_decide_eq_true hx, fun e he => of_decide_eq_false (hfirst e he)⟩

theorem findRow_none {nick : Bytes} (h : findRow list nick = none) : ∀ e ∈ list, e.nick ≠ nick := by
  cases hfind : find list nick with
  | none =>
    intro e he heq
    have hnone := List.findIdx?_eq_none_iff.mp hfind e he
    simp [heq] at hnone
  | some i =>
    obtain ⟨l, cur, r, rfl, rfl, -⟩ := findIdx?_split hfind
    simp [findRow, hfind] at h

section

variable (t : RouteTable)

theorem roster_indexNick (nick : Bytes) (node : NodeId) (hlc : UInt64)
    (a : ApplyAllocs) (chan : Bytes) :
    (t.indexNick nick node hlc a).channelMembersOf chan = t.channelMembersOf chan := by
  rw [RouteTable.indexNick, roster_congr (noteBestNickClaim_frame _ _ _ _).members,
    roster_congr (setNickLocation_frame _ _ _ _).members]

theorem roster_partRow (chan : Bytes) (list : List Member) (i : Nat) (nick : Bytes)
    (index : Bool) (chan' : Bytes) :
    (t.partRow chan list i nick index).channelMembersOf chan' =
      (t.setRoster chan (swapRemove list i)).channelMembersOf chan' := by
  have hdrop := (pruneIfEmpty_frame (t.setRoster chan (swapRemove list i)) chan).roster chan'
  rw [RouteTable.partRow, roster_congr (reselectNick_frame _ _ _).members]
  split
  · rwa [roster_congr (removeNick_frame _ _).members]
  · exact hdrop

theorem roster_commitWinningJoin (prepared : PreparedWinningJoin) (index : Bool)
    (chan : Bytes) :
    (t.commitWinningJoin prepared index).channelMembersOf chan =
      (t.setRoster prepared.channel
        (t.channelMembersOf prepared.channel ++ [prepared.row])).channelMembersOf chan := by
  rw [RouteTable.commitWinningJoin, roster_congr (noteBestNickClaim_frame _ _ _ _).members]
  exact (clearPartTombstone_frame _ _ _ _).roster chan

theorem roster_departStale (n : Nat) (chan : Bytes) (list : List Member) (i : Nat)
    (m : Member) (chan' : Bytes) :
    (t.departStale n chan list i m).channelMembersOf chan' =
      (t.setRoster chan (swapRemove list i)).channelMembersOf chan' := by
  rw [RouteTable.departStale, roster_setRoster, roster_setRoster]
  refine if_congr Iff.rfl rfl ?_
  split
  · exact roster_congr (removeNick_frame _ _).members chan'
  · rfl

theorem roster_departRetired (a : ReconcileAllocs) (n : Nat) (chan : Bytes)
    (list : List Member) (i : Nat) (m : Member) (chan' : Bytes) :
    (t.departRetired a n chan list i m).channelMembersOf chan' =
      (t.setRoster chan (swapRemove list i)).channelMembersOf chan' := by
  rw [RouteTable.departRetired]
  generalize hgone : (decide (t.memberNickOccurrences m.nick = 1) ||
    decide (t.nickNode m.nick = some m.node)) = gone
  have hdrop : ((if gone then (t.removeNick m.nick).2 else t).setRoster chan
      (swapRemove list i)).channelMembersOf chan' =
      (t.setRoster chan (swapRemove list i)).channelMembersOf chan' := by
    rw [roster_setRoster, roster_setRoster]
    refine if_congr Iff.rfl rfl ?_
    cases gone
    · rfl
    · exact roster_congr (removeNick_frame _ _).members chan'
  generalize (if gone = true then (t.removeNick m.nick).2 else t).setRoster chan
    (swapRemove list i) = dropped at hdrop ⊢
  split
  · exact hdrop
  rename_i key _
  have hselected := (roster_congr
    (reselectBestNickKey_frame dropped key (a.index n)).members chan').trans hdrop
  generalize dropped.reselectBestNickKey key (a.index n) = reselected at hselected ⊢
  simp only
  split
  · split
    · exact hselected
    · exact (roster_congr (setNickLocation_frame _ _ _ _).members chan').trans hselected
  · exact hselected

theorem roster_rehash (members : HashMap Bytes (List Member)) (chan : Bytes) :
    (t.rehash members).channelMembersOf chan = t.channelMembersOf chan := by
  rw [RouteTable.rehash]
  split
  · rename_i hperm
    exact congrArg (Option.getD · []) (AList.perm_lookup hperm)
  · rfl

theorem roster_applyRename (old new : Bytes) (node : NodeId) (ident : MemberIdentity)
    (chan : Bytes) : (t.applyRename old new node ident).channelMembersOf chan =
      renamePlanned old new node ident (t.channelMembersOf chan) := by
  rw [RouteTable.applyRename, roster_congr (reselectTwo_frame _ _ _ _ _).members,
    roster_mapRows rfl]
  split <;> rfl

theorem roster_applyDisplacing (d : Displacing) (chan : Bytes) :
    (t.applyDisplacing d).channelMembersOf chan = (t.channelMembersOf chan).map d.moved := by
  rw [RouteTable.applyDisplacing, roster_congr (reselectNick_frame _ _ _).members,
    roster_congr (reselectNick_frame _ _ _).members,
    roster_congr (reselectNick_frame _ _ _).members, roster_mapRows rfl]
  rfl

theorem roster_applySession (s : SessionRename) (a : SessionAllocs) (chan : Bytes) :
    (t.applySession s a).channelMembersOf chan = (t.channelMembersOf chan).map s.moved := by
  rw [RouteTable.applySession, roster_congr (reselectTwo_frame _ _ _ _ _).members,
    roster_mapRows rfl]
  rfl

end

section Sweep

variable (goes : Bytes → List Member → Member → Bool) (announced : Nat → Bool)
  (depart : RouteTable → Nat → Bytes → List Member → Nat → Member → RouteTable)
  {P : RouteTable → Prop}

theorem sweepList_invariant (chan : Bytes)
    (hdepart : ∀ t n l m r, P t → t.channelMembersOf chan = l ++ m :: r →
      goes chan (l ++ m :: r) m = true → P (depart t n chan (l ++ m :: r) l.length m))
    (fuel i removed : Nat) (t : RouteTable) (h : P t) :
    P (sweepList goes announced depart chan fuel i removed t).2.2 := by
  induction fuel generalizing i removed t with
  | zero => exact h
  | succ fuel ih =>
    rw [sweepList]
    cases hat : (t.channelMembersOf chan)[i]? with
    | none => exact h
    | some m =>
      obtain ⟨l, r, hlist, rfl⟩ := getElem?_split hat
      simp only
      split
      · rename_i hgoes
        split
        · exact h
        · rw [hlist] at hgoes ⊢
          exact ih _ _ _ (hdepart t removed l m r h hlist hgoes)
      · exact ih _ _ _ h

/-- What every departure keeps, the walk keeps. -/
theorem sweep_invariant
    (hdepart : ∀ t n chan l m r, P t → t.channelMembersOf chan = l ++ m :: r →
      goes chan (l ++ m :: r) m = true → P (depart t n chan (l ++ m :: r) l.length m))
    (chans : List Bytes) (removed : Nat) (t : RouteTable) (h : P t) :
    P (sweep goes announced depart chans removed t).2.2 := by
  induction chans generalizing removed t with
  | nil => exact h
  | cons chan chans ih =>
    rw [sweep]
    have hlist := sweepList_invariant goes announced depart chan
      (fun t n l m r => hdepart t n chan l m r) (t.channelMembersOf chan).length 0 removed t h
    rcases hrun : sweepList goes announced depart chan (t.channelMembersOf chan).length 0 removed t
      with ⟨completed, removed', t'⟩
    rw [hrun] at hlist
    cases completed
    · exact hlist
    · exact ih removed' t' hlist

variable {stale : Member → Bool}

/-- One roster is walked to its end when every departure can be announced. -/
theorem sweepList_done (chan : Bytes) (hgoes : ∀ list m, goes chan list m = stale m)
    (hannounced : ∀ n, announced n = true)
    (hdepart : ∀ t n list i m, (depart t n chan list i m).channelMembersOf chan = swapRemove list i)
    (fuel removed : Nat) (kept rest : List Member) (t : RouteTable)
    (hroster : t.channelMembersOf chan = kept ++ rest) (hfuel : rest.length ≤ fuel)
    (hkept : ∀ m ∈ kept, stale m = false) :
    (sweepList goes announced depart chan fuel kept.length removed t).1 = true ∧
      ∀ m ∈
        (sweepList goes announced depart chan fuel kept.length removed t).2.2.channelMembersOf chan,
        stale m = false := by
  induction fuel generalizing removed kept rest t with
  | zero =>
    obtain rfl := length_eq_zero_iff.mp (Nat.le_zero.mp hfuel)
    refine ⟨rfl, fun m hm => hkept m ?_⟩
    rwa [sweepList, hroster, append_nil] at hm
  | succ fuel ih =>
    rw [sweepList]
    cases rest with
    | nil =>
      rw [append_nil] at hroster
      simp only [hroster, List.getElem?_length]
      exact ⟨trivial, hroster.symm ▸ hkept⟩
    | cons m rest =>
      have hat : (t.channelMembersOf chan)[kept.length]? = some m := by
        rw [hroster]
        simp
      simp only [hat]
      rw [length_cons] at hfuel
      rw [hgoes]
      split
      · rw [hannounced, if_neg (by decide)]
        have hdropped := hdepart t removed (t.channelMembersOf chan) kept.length m
        obtain ⟨rest', hperm, hswap⟩ := swapRemove_split kept rest m
        refine ih _ kept rest' _ ?_ (by rw [hperm.length_eq]; omega) hkept
        rw [hdropped, hroster, hswap]
      · rename_i hfresh
        have hnext := ih removed (kept ++ [m]) rest t (by rw [hroster, append_assoc]; rfl)
          (by omega) (by
            intro x hx
            rcases mem_append.mp hx with hx | hx
            · exact hkept x hx
            · rw [mem_singleton.mp hx]
              exact Bool.not_eq_true _ ▸ hfresh)
        rwa [length_append, length_singleton] at hnext

/-- The walk over all rosters takes every stale row when every departure can be announced. -/
theorem sweep_done (hgoes : ∀ chan list m, goes chan list m = stale m)
    (hannounced : ∀ n, announced n = true)
    (hdepart : ∀ t n chan list i m chan', (depart t n chan list i m).channelMembersOf chan' =
      (t.setRoster chan (swapRemove list i)).channelMembersOf chan')
    (chans : List Bytes) (removed : Nat) (t : RouteTable)
    (hrest : ∀ chan, chan ∉ chans → ∀ m ∈ t.channelMembersOf chan, stale m = false) :
    ∀ m ∈ (sweep goes announced depart chans removed t).2.2.rows, stale m = false := by
  induction chans generalizing removed t with
  | nil =>
    intro m hm
    obtain ⟨chan, hm⟩ := mem_rows.mp hm
    exact hrest chan not_mem_nil m hm
  | cons chan chans ih =>
    obtain ⟨hcompleted, hclean⟩ := sweepList_done goes announced depart chan (hgoes chan)
      hannounced (fun t n list i m => (hdepart t n chan list i m chan).trans
        ((roster_setRoster t chan chan _).trans (if_pos rfl)))
      (t.channelMembersOf chan).length removed [] (t.channelMembersOf chan) t rfl (Nat.le_refl _)
      (by simp)
    have hothers : ∀ chan', chan' ≠ chan → (sweepList goes announced depart chan
        (t.channelMembersOf chan).length 0 removed t).2.2.channelMembersOf chan' =
        t.channelMembersOf chan' := by
      intro chan' hne
      refine sweepList_invariant goes announced depart (P := fun u => u.channelMembersOf chan' =
        t.channelMembersOf chan')
        chan (fun u n l m r hu _ _ => ?_) _ _ _ t rfl
      rw [hdepart, roster_setRoster, if_neg hne, hu]
    rw [sweep]
    rcases hrun : sweepList goes announced depart chan (t.channelMembersOf chan).length 0 removed t
      with ⟨completed, removed', u⟩
    rw [length_nil, hrun] at hcompleted hclean
    rw [hrun] at hothers
    simp only at hcompleted hclean hothers
    subst hcompleted
    refine ih removed' u fun chan' hchan' => ?_
    by_cases heq : chan' = chan
    · rw [heq]
      exact hclean
    · rw [hothers chan' heq]
      exact hrest chan' fun hmem => (mem_cons.mp hmem).elim heq hchan'

end Sweep

/-- The rows of a table, one of them in front. -/
theorem rows_perm (hroster : t.channelMembersOf chan = l ++ m :: r) :
    ∃ others, t.rows.Perm (m :: (l ++ r ++ others)) ∧ ∀ x, x ∈ others ↔ Elsewhere t chan x := by
  have hlookup : t.channelMembers.lookup chan = some (l ++ m :: r) := by
    cases hlookup : t.channelMembers.lookup chan with
    | none => simp [RouteTable.channelMembersOf, hlookup] at hroster
    | some list => rw [← hroster, roster_of_lookup hlookup]
  obtain ⟨before, after, hentries⟩ := append_of_mem (HashMap.mem_entries.mpr hlookup)
  have hkeys : ∀ e ∈ before ++ after, e.1 ≠ chan := by
    have hnodup := t.channelMembers.nodupKeys
    rw [hentries, List.NodupKeys, List.keys, map_append, map_cons, nodup_middle,
      nodup_cons, ← map_append] at hnodup
    exact fun e he heq => hnodup.1 (mem_map.mpr ⟨e, he, heq⟩)
  refine ⟨(before ++ after).flatMap (·.2), ?_, fun x => ?_⟩
  · rw [RouteTable.rows, hentries]
    refine (perm_middle.flatMap_right _).trans ?_
    rw [flatMap_cons, ← cons_append]
    exact perm_middle.append_right _
  · rw [mem_flatMap]
    constructor
    · rintro ⟨⟨chan', list⟩, he, hx⟩
      refine ⟨chan', hkeys _ he, ?_⟩
      have hmem : (⟨chan', list⟩ : Sigma fun _ => List Member) ∈ t.channelMembers.entries := by
        rw [hentries]
        exact mem_split.mpr (.inr he)
      rwa [roster_of_lookup (HashMap.mem_entries.mp hmem)]
    · rintro ⟨chan', hne, hx⟩
      cases hlookup' : t.channelMembers.lookup chan' with
      | none => simp [RouteTable.channelMembersOf, hlookup'] at hx
      | some list =>
        rw [roster_of_lookup hlookup'] at hx
        have hmem := HashMap.mem_entries.mpr hlookup'
        rw [hentries] at hmem
        refine ⟨_, (mem_split.mp hmem).resolve_left fun heq => hne ?_, hx⟩
        exact congrArg Sigma.fst heq

/-- A row whose nick no other row has is the only occurrence of it. -/
theorem occurs_once (hroster : t.channelMembersOf chan = l ++ m :: r)
    (honly : ∀ x, x ∈ l ++ r ∨ Elsewhere t chan x → lowerString x.nick ≠ lowerString m.nick) :
    t.memberNickOccurrences m.nick = 1 := by
  obtain ⟨others, hperm, hothers⟩ := rows_perm hroster
  rw [RouteTable.memberNickOccurrences, RouteTable.rowsNamed, (hperm.filter _).length_eq,
    filter_cons_of_pos (by simp), filter_eq_nil_iff.mpr, length_singleton]
  intro x hx
  rw [eqlIgnoreCase_iff]
  exact honly x ((mem_append.mp hx).imp_right (hothers x).mp)

end OnyxServer.Undertow
