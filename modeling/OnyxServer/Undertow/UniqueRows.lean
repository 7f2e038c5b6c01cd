import OnyxServer.Undertow.Groups

/-!
# One row per nick

Joins, parts, sweeps and removals keep the nicks of a roster distinct. A rename keeps them
distinct where it does not give one nick to two rows of a roster; the plain rename does not
look for a row that has the new nick already.
-/
namespace OnyxServer.Undertow

open Lib Text List

variable {loserUid : NodeId → Bytes → Bytes} {t t' : RouteTable} {chan : Bytes}
  {list l r : List Member} {m x y : Member}

/-- No roster holds two rows of one nick. -/
def Unique (t : RouteTable) : Prop := ∀ chan, DistinctKeys Member.nick (t.channelMembersOf chan)

theorem unique_empty (cfg : Config) : Unique (RouteTable.empty cfg) := fun _ => nodup_nil

section

variable (h : Unique t)
include h

theorem Unique.congr (hroster : ∀ chan, t'.channelMembersOf chan = t.channelMembersOf chan) :
    Unique t' :=
  fun chan => hroster chan ▸ h chan

theorem Unique.setRoster (hlist : DistinctKeys Member.nick list) :
    Unique (t.setRoster chan list) := by
  intro chan'
  rw [roster_setRoster]
  split
  · exact hlist
  · exact h chan'

theorem Unique.dropped (hroster : t.channelMembersOf chan = l ++ m :: r) :
    Unique (t.setRoster chan (swapRemove (l ++ m :: r) l.length)) :=
  h.setRoster ((hroster ▸ h chan).erase.perm (swapRemove_perm l r m))

/-- A nick that is found stands in one place only. -/
theorem Unique.find_only {nick : Bytes} {i j : Nat}
    (hfind : find (t.channelMembersOf chan) nick = some i)
    (hx : (t.channelMembersOf chan)[j]? = some x) (hnick : x.nick = nick) : j = i := by
  obtain ⟨hlt, hfound, -⟩ := List.findIdx?_eq_some_iff_getElem.mp hfind
  refine (h chan).index_eq hx (List.getElem?_eq_getElem hlt) (hnick.trans ?_)
  exact (of_decide_eq_true hfound).symm

theorem Unique.memberStep {m : Membership} {a : ApplyAllocs}
    (hstep : MemberStep loserUid t m a t') : Unique t' := by
  cases hstep with
  | same halike => exact h.congr halike.roster
  | @refreshed _ l r cur hroster halike =>
    exact (h.setRoster ((hroster ▸ h m.chan).replace rfl)).congr halike.roster
  | updated _ _ hroster _ hnick _ halike =>
    have hkeys := (hroster ▸ h m.chan).replace (y := m.row) hnick.symm
    exact ((h.setRoster hkeys).congr halike.roster).congr (roster_indexNick _ _ _ _ _)
  | joined _ _ hnew halike =>
    have hkeys := (h m.chan).concat (x := m.row) hnew
    exact ((h.setRoster hkeys).congr halike.roster).congr (roster_indexNick _ _ _ _ _)
  | parted _ _ hroster _ _ _ halike =>
    exact ((h.congr halike.roster).dropped ((halike.roster _).trans hroster)).congr
      (roster_partRow _ _ _ _ _ _)

theorem Unique.pruneStaleObserved (nowMs windowMs : Int) (announced : Nat → Bool)
    (a : RouteTable.PruneAllocs) : Unique (t.pruneStaleObserved nowMs windowMs announced a).2 :=
  pruneStaleObserved_invariant (P := Unique) (Q := Unique)
    (fun t n chan _ m _ ht hroster _ =>
      (ht.dropped hroster).congr (roster_departStale t n chan _ _ m))
    (fun _ ht _ => ht) (fun _ _ hframe ht => ht.congr hframe.roster)
    (fun _ alloc ht => ht.congr (roster_congr (rebuildIfDirty_frame _ alloc).members)) t h

theorem Unique.removeNode (node : NodeId) (a : RouteTable.RemoveAllocs) :
    Unique (t.removeNode node a) :=
  fun chan => ((h chan).sublist filter_sublist).perm (roster_removeNode t node a chan)

theorem Unique.rehash (members : HashMap Bytes (List Member)) :
    Unique (t.rehash members) :=
  h.congr (roster_rehash t members)

theorem Unique.rebindSessionToken (loserUid : NodeId → Bytes → Bytes) (node : NodeId)
    (wireNick : Bytes) (token : Option SessionToken) :
    Unique (t.rebindSessionToken loserUid node wireNick token).2 := by
  rw [RouteTable.rebindSessionToken]
  split
  · exact h
  · exact h
  · intro chan
    rw [roster_mapRows rfl, distinctKeys_map]
    refine (distinctKeys_pairwise.mp (h chan)).imp fun {x y} hne => ?_
    split <;> split <;> exact hne

theorem Unique.commitWinningJoin {prepared : PreparedWinningJoin}
    (hnew : ∀ e ∈ t.channelMembersOf prepared.channel, e.nick ≠ prepared.row.nick) (index : Bool) :
    Unique (t.commitWinningJoin prepared index) :=
  (h.setRoster ((h prepared.channel).concat hnew)).congr (roster_commitWinningJoin t prepared index)

theorem Unique.applyRename {old new : Bytes} {node : NodeId} (ident : MemberIdentity)
    (hfree : old ≠ new → ∀ chan, (planned old node (t.channelMembersOf chan)).isSome = true →
      ∀ e ∈ t.channelMembersOf chan, e.nick ≠ new) :
    Unique (t.applyRename old new node ident) := by
  intro chan
  rw [roster_applyRename, renamePlanned]
  split
  · rename_i i member hplanned
    obtain ⟨l, r, hroster, rfl, hnick, -⟩ := findRow_some (Option.filter_eq_some_iff.mp hplanned).1
    have hchan := h chan
    have hfree' := fun hne => hfree hne chan (Option.isSome_of_eq_some hplanned)
    rw [hroster] at hchan hfree' ⊢
    rw [set_split, distinctKeys_split]
    obtain ⟨hrest, hother⟩ := (distinctKeys_split _ l r member).mp hchan
    refine ⟨hrest, fun e he => ?_⟩
    by_cases hsame : old = new
    · have hkept := hother e he
      rwa [hnick, hsame] at hkept
    · exact hfree' hsame e (mem_split.mpr (.inr he))
  · exact h chan

end

/-- A row of the roster that stays does not have the new nick. -/
theorem free_nick {s : SessionRename} (h : DistinctKeys Member.nick list)
    (hfits : s.occupied list = false) {i j : Nat} (hx : list[i]? = some x)
    (htakes : s.takes x = true) (hy : list[j]? = some y) (hne : i ≠ j) : y.nick ≠ s.newNick := by
  intro hnick
  cases hfind : find list s.newNick with
  | none =>
    have hnone := List.findIdx?_eq_none_iff.mp hfind y (mem_of_getElem? hy)
    simp [hnick] at hnone
  | some k =>
    obtain rfl := occupied_find hfits hx htakes hfind
    obtain ⟨hlt, hfound, -⟩ := List.findIdx?_eq_some_iff_getElem.mp hfind
    refine hne (h.index_eq (List.getElem?_eq_getElem hlt) hy ?_)
    exact (of_decide_eq_true hfound).trans hnick.symm

theorem Unique.applySession (h : Unique t) {s : SessionRename} (hfits : t.refusesSession s = false)
    (hlone : ∀ chan, (t.channelMembersOf chan).Pairwise fun x y =>
      ¬ (s.takes x = true ∧ s.takes y = true)) (a : SessionAllocs) : Unique
        (t.applySession s a) := by
  intro chan
  have hchan := fits_occupied hfits chan
  rw [roster_applySession, distinctKeys_map, pairwise_iff_getElem]
  intro i j hi hj hij
  have hx := List.getElem?_eq_getElem hi
  have hy := List.getElem?_eq_getElem hj
  have hapart := pairwise_iff_getElem.mp (hlone chan) i j hi hj hij
  cases htx : s.takes (t.channelMembersOf chan)[i] with
  | true =>
    have hty : s.takes (t.channelMembersOf chan)[j] = false := by
      rw [← Bool.not_eq_true]
      exact fun hty => hapart ⟨htx, hty⟩
    rw [(moved_of_takes htx).1, moved_of_stays hty]
    exact (free_nick (h chan) hchan hx htx hy (by omega)).symm
  | false =>
    rw [moved_of_stays htx]
    cases hty : s.takes (t.channelMembersOf chan)[j] with
    | true =>
      rw [(moved_of_takes hty).1]
      exact free_nick (h chan) hchan hy hty hx (by omega)
    | false =>
      rw [moved_of_stays hty]
      exact fun hnick => absurd ((h chan).index_eq hx hy hnick) (by omega)

theorem Unique.applyDisplacing (h : Unique t) {d : Displacing}
    (hfits : t.refusesDisplacing d = false)
    (hlone : ∀ chan, (t.channelMembersOf chan).Pairwise fun x y =>
      ∀ nick, d.lands x = some nick → d.lands y ≠ some nick) : Unique (t.applyDisplacing d) := by
  intro chan
  have hstays : ∀ x ∈ t.channelMembersOf chan, ∀ y nick, d.lands y = some nick → d.lands x = none →
      x.nick ≠ nick := by
    intro x hx y nick hy hnone heq
    obtain ⟨hnew, huid⟩ :=
      Displacing.stays_apart (fits_conflicts hfits (mem_rows.mpr ⟨chan, hx⟩)) hnone
    rcases lands_nick hy with rfl | rfl
    · exact hnew (congrArg lowerString heq)
    · exact huid (congrArg lowerString heq)
  rw [roster_applyDisplacing, distinctKeys_map]
  refine List.Pairwise.imp_of_mem ?_ ((distinctKeys_pairwise.mp (h chan)).and (hlone chan))
  rintro x y hx hy ⟨hne, hapart⟩
  rw [Displacing.moved_nick, Displacing.moved_nick]
  cases hlx : d.lands x with
  | some nick =>
    cases hly : d.lands y with
    | some nick' => exact fun heq => hapart nick hlx (hly.trans (congrArg some heq.symm))
    | none => exact (hstays y hy x nick hlx hly).symm
  | none =>
    cases hly : d.lands y with
    | some nick' => exact hstays x hx y nick' hly hlx
    | none => exact hne

/-- An obsolete row of a desired channel is of the identity of `x`. -/
def GroupObsolete (loserUid : NodeId → Bytes → Bytes) (t : RouteTable) (r : Reconcile)
    (nick : Bytes) (x : Member) : Prop :=
  ∃ chan z, channelInSet chan r.desiredChannels = true ∧ z ∈ t.channelMembersOf chan ∧
    t.isObsolete loserUid r nick z = true ∧ z.node = x.node ∧
    lowerString z.nick = lowerString x.nick

/-- No roster holds two rows of a group that the reconcile renames. -/
def LoneGroups (loserUid : NodeId → Bytes → Bytes) (t : RouteTable) (r : Reconcile)
    (nick : Bytes) : Prop :=
  ∀ chan, (t.channelMembersOf chan).Pairwise fun x y =>
    x.sessionToken = some r.token → y.sessionToken = some r.token → x.node = y.node →
      lowerString x.nick = lowerString y.nick → ¬ GroupObsolete loserUid t r nick x

section Group

variable {r : Reconcile} {nick : Bytes} {a : SessionAllocs}

/-- A group that is obsolete after the rename is another one, and was obsolete before. -/
theorem GroupObsolete.before (hm : t.isObsolete loserUid r nick m = true)
    (h : GroupObsolete loserUid (t.applySession (groupRename loserUid t r nick m) a) r nick
      ((groupRename loserUid t r nick m).moved x)) :
    (groupRename loserUid t r nick m).takes x = false ∧ GroupObsolete loserUid t r nick x := by
  obtain ⟨chan, z, hdesired, hz, hobsolete, hnode, hnick⟩ := h
  obtain ⟨hz', hstays, hbefore⟩ := obsolete_stays hm hz hobsolete
  cases htakes : (groupRename loserUid t r nick m).takes x with
  | true =>
    obtain ⟨hmoved, hmovedNode⟩ := moved_of_takes htakes
    rw [hmoved] at hnick
    exact absurd hnick (obsolete_target hm hobsolete (hnode.trans hmovedNode))
  | false =>
    rw [moved_of_stays htakes] at hnode hnick
    exact ⟨rfl, chan, z, hdesired, hz', hbefore, hnode, hnick⟩

theorem LoneGroups.rename (h : LoneGroups loserUid t r nick)
    (hm : t.isObsolete loserUid r nick m = true) :
    LoneGroups loserUid (t.applySession (groupRename loserUid t r nick m) a) r nick := by
  intro chan
  rw [roster_applySession, pairwise_map]
  refine (h chan).imp fun {x y} hlone htokx htoky hnode hnick hgroup => ?_
  obtain ⟨hstaysx, hbefore⟩ := hgroup.before hm
  have hgroupy : GroupObsolete loserUid (t.applySession (groupRename loserUid t r nick m) a) r nick
      ((groupRename loserUid t r nick m).moved y) := by
    obtain ⟨chan', z, hdesired, hz, hobsolete, hznode, hznick⟩ := hgroup
    exact ⟨chan', z, hdesired, hz, hobsolete, hznode.trans hnode, hznick.trans hnick⟩
  obtain ⟨hstaysy, -⟩ := hgroupy.before hm
  rw [moved_of_stays hstaysx] at htokx hnode hnick
  rw [moved_of_stays hstaysy] at htoky hnode hnick
  exact hlone htokx htoky hnode hnick hbefore

/-- A group that is lone moves one row in each roster. -/
theorem LoneGroups.takes_apart (h : LoneGroups loserUid t r nick)
    (hm : t.findCandidate loserUid r nick = some m) (chan : Bytes) :
    (t.channelMembersOf chan).Pairwise fun x y =>
      ¬ ((groupRename loserUid t r nick m).takes x = true ∧
        (groupRename loserUid t r nick m).takes y = true) := by
  obtain ⟨chan', hdesired, hmem, hobsolete⟩ := findCandidate_some hm
  refine (h chan).imp fun {x y} hlone => ?_
  rintro ⟨htx, hty⟩
  obtain ⟨hnodex, hnickx, htokx⟩ := group_takes_iff.mp htx
  obtain ⟨hnodey, hnicky, htoky⟩ := group_takes_iff.mp hty
  exact hlone htokx htoky (hnodex.trans hnodey.symm) (hnickx.trans hnicky.symm)
    ⟨chan', m, hdesired, hmem, hobsolete, hnodex.symm, hnickx.symm⟩

end Group

theorem Unique.reconcileSessionTokenObserved (h : Unique t) (loserUid : NodeId → Bytes → Bytes)
    (s : Reconcile)
    (hlone : ∀ nick, s.desiredNick = some nick → s.localCanonical = false →
      t.validateName nick = .ok () → LoneGroups loserUid t s nick) (a : ReconcileAllocs) :
    Unique (t.reconcileSessionTokenObserved loserUid s a).2 := by
  refine reconcile_invariant loserUid
    (P := fun t => Unique t ∧ ∀ nick, s.desiredNick = some nick → s.localCanonical = false →
      LoneGroups loserUid t s nick) (Q := Unique) ?_ (fun _ => And.left) ?_
    (fun _ _ halike ht => ht.congr halike.roster) t h ?_
  · rintro nick hnick hlocal t m b ⟨ht, hgroups⟩ hm hgoes
    refine ⟨ht.applySession hgoes.fits ((hgroups nick hnick hlocal).takes_apart hm) b, ?_⟩
    intro nick' hnick' _
    obtain rfl : nick = nick' := Option.some.inj (hnick.symm.trans hnick')
    obtain ⟨-, -, -, hobsolete⟩ := findCandidate_some hm
    exact (hgroups nick hnick hlocal).rename hobsolete
  · intro t n chan l m r ht hroster _
    exact (ht.dropped hroster).congr (roster_departRetired t a n chan _ _ m)
  · intro hvalid
    refine ⟨h, fun nick hnick hlocal => hlone nick hnick hlocal ?_⟩
    rwa [RouteTable.validateDesired, hnick] at hvalid

/-- The step gives no nick to two rows of a roster: a rename that goes through moves no two
rows of a roster to one nick, nor a row to a nick that the roster has; a winning join is not
committed where the nick has a row. -/
def KeepsApart (loserUid : NodeId → Bytes → Bytes) (s : System) : Op → Prop
  | .commitWinningJoin _ => ∀ prepared, s.pending = some prepared →
      s.table.nickNode prepared.row.nick = none →
      ∀ e ∈ s.table.channelMembersOf prepared.channel, e.nick ≠ prepared.row.nick
  | .renameNick old new node _ _ _ => RenameGoes s.table old new node → old ≠ new →
      ∀ chan, (planned old node (s.table.channelMembersOf chan)).isSome = true →
        ∀ e ∈ s.table.channelMembersOf chan, e.nick ≠ new
  | .renameNickDisplacing d _ _ => DisplacingGoes s.table d →
      ∀ chan, (s.table.channelMembersOf chan).Pairwise fun x y =>
        ∀ nick, d.lands x = some nick → d.lands y ≠ some nick
  | .renameNickBindingSessionToken node old new token ident _ =>
      let r : SessionRename := ⟨token, node, old, new, some ident, true⟩
      SessionGoes s.table r → ∀ chan, (s.table.channelMembersOf chan).Pairwise fun x y =>
        ¬ (r.takes x = true ∧ r.takes y = true)
  | .reconcileSessionToken r _ => ∀ nick, r.desiredNick = some nick → r.localCanonical = false →
      s.table.validateName nick = .ok () → LoneGroups loserUid s.table r nick
  | _ => True

theorem Unique.step {s : System} (h : Unique s.table) {op : Op} (hop : KeepsApart loserUid s op) :
    Unique (step loserUid s op).2.table := by
  rcases step_table loserUid s op with halike | ⟨index, prepared, rfl, hpending, hfree, heq⟩ | heq
  · exact h.congr halike.roster
  · exact heq.symm ▸ h.commitWinningJoin (hop prepared hpending hfree) index
  · rw [heq]
    cases op with
    | rehash members => exact h.rehash members
    | setNickLocation nick node alloc =>
      exact h.congr (roster_congr (setNickLocation_frame s.table nick node alloc).members)
    | removeNick nick => exact h.congr (roster_congr (removeNick_frame s.table nick).members)
    | clear => exact unique_empty s.table.cfg
    | addChannelMember chan node alloc =>
      exact h.congr (addChannelMember_frame s.table chan node alloc).roster
    | removeChannelMember chan node =>
        exact h.congr (removeChannelMember_frame s.table chan node).roster
    | setChannelNodePresence chan node present alloc =>
      exact h.congr (setChannelNodePresence_frame s.table chan node present alloc).roster
    | applyFact op => exact h.congr (applyFact_frame s.table op).roster
    | applyMembership m preparer a =>
      exact h.memberStep (applyMembership_step loserUid s.table m preparer a)
    | prepareWinningJoin => exact h
    | commitWinningJoin => exact h
    | abandonWinningJoin => exact h
    | renameNick old new node ident copies plans =>
      rcases renameNick_step s.table old new node ident copies plans with heq | ⟨hgoes, heq⟩
      · exact heq.symm ▸ h
      · exact heq.symm ▸ h.applyRename ident (hop hgoes)
    | renameNickDisplacing d staged reserved =>
      rcases renameNickDisplacing_step s.table d staged reserved with heq | ⟨hgoes, heq⟩
      · exact heq.symm ▸ h
      · exact heq.symm ▸ h.applyDisplacing hgoes.fits (hop hgoes)
    | renameNickBindingSessionToken node old new token ident a =>
      rcases renameSessionTokenRows_step s.table ⟨token, node, old, new, some ident, true⟩ a with
        ⟨answer, -, heq⟩ | ⟨hgoes, heq⟩
      · exact (congrArg Prod.snd heq).symm ▸ h
      · exact (congrArg Prod.snd heq).symm ▸ h.applySession hgoes.fits (hop hgoes) a
    | rebindSessionToken node wireNick token =>
        exact h.rebindSessionToken loserUid node wireNick token
    | reconcileSessionToken r a => exact h.reconcileSessionTokenObserved loserUid r hop a
    | pruneStale nowMs windowMs announced a => exact h.pruneStaleObserved nowMs windowMs announced a
    | removeNode node a => exact h.removeNode node a

/-- In a run whose steps all keep nicks apart, no roster of any state holds two rows of one
nick, and the search for a nick finds the only row that has it. -/
theorem roster_nicks_distinct (loserUid : NodeId → Bytes → Bytes) (cfg : Config) (ops : List Op)
    (hops : ∀ v ∈ visits (step loserUid) (System.init cfg) ops,
      KeepsApart loserUid v.before v.input) :
    ∀ v ∈ visits (step loserUid) (System.init cfg) ops, ∀ chan,
      ((v.after.table.channelMembersOf chan).map Member.nick).Nodup ∧
      ∀ nick i, find (v.after.table.channelMembersOf chan) nick = some i →
        ∀ j m, (v.after.table.channelMembersOf chan)[j]? = some m → m.nick = nick → j = i := by
  intro v hv chan
  have hunique := ((guarded_invariant (P := fun s : System => Unique s.table)
    (G := fun v => KeepsApart loserUid v.before v.input)
    (fun v hstep hop h => (congrArg (·.2.table) hstep) ▸ h.step hop)
    (s := System.init cfg) (unique_empty cfg) hops).2 v hv).2
  exact ⟨hunique chan, fun nick i hfind j m hm hnick => hunique.find_only hfind hm hnick⟩

/-- Two users of node 1 on one channel. -/
def aliceAndBob : List Op := [.member true [35] [97] 1 1, .member true [35] [98] 1 2]

theorem keepsApart_rename {new : Bytes} (hnew : new ∉ [[97], [98]]) {s : System}
    (hrows : s.table.rows.map Member.nick = [[97], [98]]) :
    KeepsApart loserUid s (.renameNick [97] new 1 .unknown true true) := by
  intro _ _ chan _ e he hnick
  have hrow := mem_map_of_mem (f := Member.nick) (mem_rows.mpr ⟨chan, he⟩)
  rw [hrows, hnick] at hrow
  exact hnew hrow

def aliceToCarol : List Op := aliceAndBob ++ [.renameNick [97] [99] 1 .unknown true true]

def renamed : System := final (step fun _ nick => nick) (System.init ⟨4, 4, 4, 16⟩) aliceToCarol

theorem roster_nicks_distinct_renamed :
    ((renamed.table.channelMembersOf [35]).map Member.nick).Nodup ∧
      ∀ j (m : Member), (renamed.table.channelMembersOf [35])[j]? = some m → m.nick = [99] →
      j = 0 := by
  have hops : ∀ v ∈ visits (step fun _ nick => nick) (System.init ⟨4, 4, 4, 16⟩) aliceToCarol,
      KeepsApart (fun _ nick => nick) v.before v.input := by
    refine forall_mem_cons.mpr ⟨trivial, forall_mem_cons.mpr ⟨trivial,
      forall_mem_cons.mpr ⟨keepsApart_rename (by decide) (by decide), by simp [visits]⟩⟩⟩
  obtain ⟨hdistinct, honly⟩ := roster_nicks_distinct (fun _ nick => nick) ⟨4, 4, 4, 16⟩ aliceToCarol
    hops _ (.tail _ (.tail _ (.head _))) [35]
  exact ⟨hdistinct, honly [99] 0 (by decide)⟩

/-- A plain rename to a nick that the roster has leaves two rows of that nick. -/
theorem rename_doubles_nick :
    ¬ ∀ ops chan, (((final (step fun _ nick => nick) (System.init ⟨4, 4, 4, 16⟩)
      ops).table.channelMembersOf chan).map Member.nick).Nodup :=
  fun h => absurd (h (aliceAndBob ++ [.renameNick [97] [98] 1 .unknown true true]) [35]) (by decide)

end OnyxServer.Undertow
