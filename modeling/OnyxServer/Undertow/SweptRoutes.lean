import OnyxServer.Undertow.HostedRoutes

/-!
# Routes under sweeps

The sweep of stale rows removes a route only with the last occurrence of its nick, the
reconcile of a session also where it points at the row that leaves. What each needs so that
no route loses its last row is an invariant of its loop.
-/
namespace OnyxServer.Undertow

open Lib Text

variable {loserUid : NodeId → Bytes → Bytes} {t t' : RouteTable} {chan k : Bytes}
  {l r : List Member} {m x : Member} {n : NodeId}

section Stale

variable (stale : Member → Bool) (complete : Prop)

/-- The route has a row that is not stale, or all rows of its nick are stale, spelled as the
route and, should the sweep stop early, on its node. -/
def OutlivesSweep (t : RouteTable) (k : Bytes) (n : NodeId) : Prop :=
  (∃ m ∈ t.rows, stale m = false ∧ lowerString m.nick = lowerString k ∧ m.node = n) ∨
    ∀ m ∈ t.rows, lowerString m.nick = lowerString k →
      stale m = true ∧ m.nick = k ∧ (complete ∨ m.node = n)

/-- What the loop keeps: routes outlive the sweep and have some row of their nick. -/
def SweepInvariant (t : RouteTable) : Prop :=
  ∀ k n, t.nickNode k = some n →
    (∃ m ∈ t.rows, lowerString m.nick = lowerString k) ∧ OutlivesSweep stale complete t k n

variable {stale complete}

theorem routes_departStale (t : RouteTable) (i : Nat) (chan : Bytes) (list : List Member) (j : Nat)
    (m : Member) (k : Bytes) : (t.departStale i chan list j m).nickNode k =
      if t.memberNickOccurrences m.nick = 1 ∧ k = m.nick then none else t.nickNode k := by
  rw [RouteTable.departStale]
  show RouteTable.nickNode (if t.memberNickOccurrences m.nick = 1 then _ else _) k = _
  split
  · rename_i hone
    rw [routes_removeNick]
    exact if_congr (by simp [hone]) rfl rfl
  · rename_i hmany
    exact (if_neg fun h => hmany h.1).symm

theorem SweepInvariant.departStale (h : SweepInvariant stale complete t)
    (hroster : t.channelMembersOf chan = l ++ m :: r) (hm : stale m = true) (i : Nat) :
    SweepInvariant stale complete (t.departStale i chan (l ++ m :: r) l.length m) := by
  intro k n hroute
  have hrows : ∀ x, x ∈ (t.departStale i chan (l ++ m :: r) l.length m).rows ↔
      OtherRow t chan l.length x := fun x =>
    (mem_rows_congr (roster_departStale t i chan _ _ m) x).trans (mem_rows_dropped hroster)
  have hsplit : ∀ x, x ∈ t.rows ↔ x = m ∨ OtherRow t chan l.length x := fun x =>
    (mem_rows_of_roster hroster).trans (or_congr_right (otherRow_iff hroster).symm)
  rw [routes_departStale] at hroute
  split_ifs at hroute with hkept
  obtain ⟨⟨x, hx, hxnick⟩, houtlives⟩ := h k n hroute
  rcases houtlives with ⟨y, hy, hfresh, hynick, hynode⟩ | hall
  · have hother : OtherRow t chan l.length y := ((hsplit y).mp hy).resolve_left fun heq => by
      rw [heq, hm] at hfresh
      cases hfresh
    exact ⟨⟨y, (hrows y).mpr hother, hynick⟩,
      .inl ⟨y, (hrows y).mpr hother, hfresh, hynick, hynode⟩⟩
  refine ⟨?_, .inr fun y hy => hall y ((hsplit y).mpr (.inr ((hrows y).mp hy)))⟩
  by_contra hnone
  push Not at hnone
  -- The row that leaves is the last of the nick, so the route went with it.
  have hxm : x = m := ((hsplit x).mp hx).resolve_right fun hother =>
    hnone x ((hrows x).mpr hother) hxnick
  obtain ⟨-, hspelled, -⟩ := hall x hx hxnick
  rw [hxm] at hspelled
  refine hkept ⟨occurs_once hroster fun y hy hynick => ?_, hspelled.symm⟩
  exact hnone y ((hrows y).mpr ((otherRow_iff hroster).mpr hy)) (hynick.trans (by rw [hspelled]))

end Stale

/-- A sweep of stale rows under which every route outlives it. -/
def PruneKeeps (t : RouteTable) (nowMs windowMs : Int) (announced : Nat → Bool) : Prop :=
  ∀ k n, t.nickNode k = some n →
    OutlivesSweep (isStale nowMs windowMs) (∀ i, announced i = true) t k n

theorem Routed.pruneStaleObserved (h : Routed t) {nowMs windowMs : Int} {announced : Nat → Bool}
    (hkeep : PruneKeeps t nowMs windowMs announced) (a : RouteTable.PruneAllocs) :
    Routed (t.pruneStaleObserved nowMs windowMs announced a).2 := by
  refine pruneStaleObserved_invariant
    (P := SweepInvariant (isStale nowMs windowMs) (∀ i, announced i = true)) (Q := Routed)
    (fun t n chan l m r ht hroster hm => ht.departStale hroster hm n) ?_
    (fun _ _ hframe ht => ht.alike hframe)
    (fun _ alloc ht => ht.index (rebuildIfDirty_frame _ alloc)) t ?_
  · intro u hu hdone k n hroute
    obtain ⟨⟨m, hm, hnick⟩, ⟨x, hx, -, hrest⟩ | hall⟩ := hu k n hroute
    · exact ⟨x, hx, hrest⟩
    obtain ⟨hstale, -, hcomplete | hnode⟩ := hall m hm hnick
    · rw [hdone hcomplete m hm] at hstale
      cases hstale
    · exact ⟨m, hm, hnick, hnode⟩
  · intro k n hroute
    obtain ⟨m, hm, hnick, -⟩ := h k n hroute
    exact ⟨⟨m, hm, hnick⟩, hkeep k n hroute⟩

theorem Counted.pruneStaleObserved (h : Counted t) (nowMs windowMs : Int) (announced : Nat → Bool)
    (a : RouteTable.PruneAllocs) : Counted (t.pruneStaleObserved nowMs windowMs announced a).2 :=
  pruneStaleObserved_invariant (P := Counted) (Q := Counted)
    (fun _ n chan _ m _ ht _ _ => ht.departStale n chan _ _ m) (fun _ ht _ => ht)
    (fun _ _ hframe ht => ht.alike hframe)
    (fun _ alloc ht => ht.index (rebuildIfDirty_frame _ alloc)) t h

/-! ## The rows of a session -/

section Session

variable {r : Reconcile} {a : ReconcileAllocs} {nick : Bytes} {s : List Member}

/-- The row is not of the session, or stays under the nick that the session is to have. -/
def Reconcile.Stays (r : Reconcile) (chan : Bytes) (m : Member) : Prop :=
  m.sessionToken ≠ some r.token ∨ ∃ nick, r.desiredNick = some nick ∧ r.localCanonical = false ∧
    lowerString m.nick = lowerString nick ∧ channelInSet chan r.desiredChannels = true

theorem Reconcile.Stays.not_retires (h : r.Stays chan m) (list : List Member) :
    r.retires loserUid chan list m = false := by
  rw [Reconcile.retires]
  rcases h with hother | ⟨nick, hnick, hlocal, hsame, hdesired⟩
  · rw [decide_eq_false hother, Bool.false_and]
  · have hmatches : r.nickMatches loserUid list m = true := by
      simp [Reconcile.nickMatches, hnick, hlocal, hsame]
    simp [hmatches, hdesired]

/-- The route has a row that stays, or one that is spelled as the route. -/
def Anchored (r : Reconcile) (t : RouteTable) : Prop :=
  ∀ k n, t.nickNode k = some n → ∃ chan m, m ∈ t.channelMembersOf chan ∧
    lowerString m.nick = lowerString k ∧ m.node = n ∧ (r.Stays chan m ∨ m.nick = k)

theorem Anchored.routed (h : Anchored r t) : Routed t := by
  intro k n hroute
  obtain ⟨chan, m, hm, hnick, hnode, -⟩ := h k n hroute
  exact ⟨m, mem_rows.mpr ⟨chan, hm⟩, hnick, hnode⟩

/-- A retired row's own route goes with it, and what is routed anew is the survivor. -/
theorem routes_departRetired {list : List Member} {i j : Nat}
    (h : (t.departRetired a i chan list j m).nickNode k = some n) :
    (∃ x ∈ (t.setRoster chan (swapRemove list j)).rows, x.nick = k ∧ x.node = n) ∨
      (t.nickNode k = some n ∧ (k = m.nick → n ≠ m.node)) := by
  have hrows := mem_rows_congr (roster_departRetired t a i chan list j m)
  rw [RouteTable.departRetired] at h
  generalize hgone : (decide (t.memberNickOccurrences m.nick = 1) ||
    decide (t.nickNode m.nick = some m.node)) = gone at h
  have hdropped : ∀ k n, ((if gone then (t.removeNick m.nick).2 else t).setRoster chan
      (swapRemove list j)).nickNode k = some n →
      t.nickNode k = some n ∧ (k = m.nick → n ≠ m.node) := by
    intro k n hroute
    change RouteTable.nickNode (if gone = true then (t.removeNick m.nick).2 else t) k =
      some n at hroute
    split at hroute
    · rw [routes_removeNick] at hroute
      split_ifs at hroute
      · rename_i hne
        exact ⟨hroute, fun heq => absurd heq hne⟩
    · rename_i hstays
      refine ⟨hroute, fun heq hnode => hstays ?_⟩
      rw [← hgone, Bool.or_eq_true]
      exact .inr (decide_eq_true (by rw [← heq, ← hnode, hroute]))
  have hmembers : ((if gone then (t.removeNick m.nick).2 else t).setRoster chan
      (swapRemove list j)).channelMembers =
        (t.setRoster chan (swapRemove list j)).channelMembers := by
    split
    · exact congrArg (AList.insert chan (swapRemove list j)) (removeNick_frame _ _).members
    · rfl
  generalize (if gone = true then (t.removeNick m.nick).2 else t).setRoster chan
    (swapRemove list j) = dropped at h hdropped hmembers
  split at h
  · exact .inr (hdropped k n h)
  rename_i key _
  have hframe := reselectBestNickKey_frame dropped key (a.index i)
  generalize dropped.reselectBestNickKey key (a.index i) = reselected at h hframe
  have hselected : ∀ k n, reselected.nickNode k = some n → dropped.nickNode k = some n := by
    intro k n hroute
    rwa [RouteTable.nickNode, hframe.routes] at hroute
  simp only at h
  split at h
  · split at h
    · exact .inr (hdropped k n (hselected k n h))
    rename_i survivor hsurvivor
    rcases routes_setNickLocation h with ⟨rfl, rfl⟩ | hold
    · refine .inl ⟨survivor, ?_, rfl, rfl⟩
      have hmem : survivor ∈ reselected.rows := by
        rw [RouteTable.bestMemberForNickKey] at hsurvivor
        split at hsurvivor
        · cases hsurvivor
        · exact (List.mem_filter.mp (List.mem_of_find?_eq_some hsurvivor)).1
      exact (mem_rows_congr (roster_congr (hframe.members.trans hmembers)) survivor).mp hmem
    · exact .inr (hdropped k n (hselected k n hold))
  · exact .inr (hdropped k n (hselected k n h))

theorem Anchored.departRetired (h : Anchored r t)
    (hroster : t.channelMembersOf chan = l ++ m :: s)
    (hretires : r.retires loserUid chan (l ++ m :: s) m = true) (i : Nat) :
    Anchored r (t.departRetired a i chan (l ++ m :: s) l.length m) := by
  intro k n hroute
  have hroster' := roster_departRetired t a i chan (l ++ m :: s) l.length m
  rcases routes_departRetired hroute with ⟨x, hx, rfl, rfl⟩ | ⟨hold, hown⟩
  · obtain ⟨chan', hx⟩ := mem_rows.mp hx
    exact ⟨chan', x, hroster' chan' ▸ hx, rfl, rfl, .inr rfl⟩
  obtain ⟨chan', x, hx, hnick, rfl, hanchor⟩ := h k n hold
  refine ⟨chan', x, ?_, hnick, rfl, hanchor⟩
  rw [hroster', roster_setRoster]
  split
  · rename_i hchan
    subst hchan
    rw [hroster] at hx
    rw [(swapRemove_perm l s m).mem_iff]
    refine (mem_split.mp hx).resolve_left fun heq => ?_
    subst heq
    rcases hanchor with hstays | hspelled
    · rw [hstays.not_retires] at hretires
      cases hretires
    · exact hown hspelled.symm rfl
  · exact hx

/-- A route to a group that the reconcile renames has a row of no session, or is spelled as
every obsolete row of the group. -/
def GroupsKeep (loserUid : NodeId → Bytes → Bytes) (t : RouteTable) (r : Reconcile)
    (nick : Bytes) : Prop :=
  ∀ k n, t.nickNode k = some n →
    (∃ m ∈ t.rows, m.sessionToken ≠ some r.token ∧ lowerString m.nick = lowerString k ∧
      m.node = n) ∨
      ∀ chan z, channelInSet chan r.desiredChannels = true → z ∈ t.channelMembersOf chan →
        t.isObsolete loserUid r nick z = true → z.node = n → lowerString z.nick = lowerString k →
          z.nick = k

/-- A rename of a group keeps both. -/
theorem GroupsKeep.rename (hanchored : Anchored r t) (hkeep : GroupsKeep loserUid t r nick)
    (hm : t.findCandidate loserUid r nick = some m) (b : SessionAllocs) :
    Anchored r (t.applySession (groupRename loserUid t r nick m) b) ∧
      GroupsKeep loserUid (t.applySession (groupRename loserUid t r nick m) b) r nick := by
  obtain ⟨chan, hdesired, hmem, hobsolete⟩ := findCandidate_some hm
  have htakes : (groupRename loserUid t r nick m).takes m = true :=
    group_takes_iff.mpr ⟨rfl, rfl, (isObsolete_iff.mp hobsolete).1⟩
  have hstays : ∀ chan x, x ∈ t.channelMembersOf chan →
      (groupRename loserUid t r nick m).takes x = false →
      x ∈ (t.applySession (groupRename loserUid t r nick m) b).channelMembersOf chan := by
    intro chan x hx hs
    rw [roster_applySession]
    exact List.mem_map.mpr ⟨x, hx, moved_of_stays hs⟩
  have hforeign : ∀ x : Member, x.sessionToken ≠ some r.token →
      (groupRename loserUid t r nick m).takes x = false := by
    intro x hx
    rw [← Bool.not_eq_true, group_takes_iff]
    exact fun h => hx h.2.2
  have hroutes : ∀ k n, (t.applySession (groupRename loserUid t r nick m) b).nickNode k = some n →
      (k = t.reconciledNickTarget loserUid r m.node nick ∧ n = m.node) ∨
        (t.nickNode k = some n ∧ ¬ (k = m.nick ∧ n = m.node)) := by
    intro k n hroute
    rw [routes_applySession] at hroute
    split at hroute
    · rename_i hnew
      exact .inl ⟨hnew.2, (Option.some.inj hroute).symm⟩
    split_ifs at hroute with hkept
    refine .inr ⟨hroute, ?_⟩
    rintro ⟨rfl, rfl⟩
    exact hkept ⟨decide_eq_true hroute, rfl⟩
  constructor
  · intro k n hroute
    rcases hroutes k n hroute with ⟨rfl, rfl⟩ | ⟨hold, hother⟩
    · refine ⟨chan, (groupRename loserUid t r nick m).moved m, ?_, ?_⟩
      · rw [roster_applySession]
        exact List.mem_map_of_mem hmem
      · obtain ⟨hnick, hnode⟩ := moved_of_takes htakes
        exact ⟨congrArg lowerString hnick, hnode, .inr hnick⟩
    · rcases hkeep k n hold with ⟨x, hx, htoken, hnick, hnode⟩ | hspelled
      · obtain ⟨chan', hx⟩ := mem_rows.mp hx
        exact ⟨chan', x, hstays chan' x hx (hforeign x htoken), hnick, hnode, .inl (.inl htoken)⟩
      obtain ⟨chan', x, hx, hnick, rfl, hanchor⟩ := hanchored k n hold
      refine ⟨chan', x, hstays chan' x hx ?_, hnick, rfl, hanchor⟩
      rw [← Bool.not_eq_true, group_takes_iff]
      rintro ⟨hnode, hsame, -⟩
      have hk := hspelled chan m hdesired hmem hobsolete hnode.symm (hsame.symm.trans hnick)
      exact hother ⟨hk.symm, hnode⟩
  · intro k n hroute
    rcases hroutes k n hroute with ⟨rfl, rfl⟩ | ⟨hold, -⟩
    · refine .inr fun chan' z _ _ hz hnode hsame => ?_
      exact absurd hsame (obsolete_target hobsolete hz hnode)
    rcases hkeep k n hold with ⟨x, hx, htoken, hrest⟩ | hspelled
    · obtain ⟨chan', hx⟩ := mem_rows.mp hx
      exact .inl ⟨x, mem_rows.mpr ⟨chan', hstays chan' x hx (hforeign x htoken)⟩, htoken, hrest⟩
    · refine .inr fun chan' z hdesired' hz hz' => ?_
      obtain ⟨hmem', -, hbefore⟩ := obsolete_stays hobsolete hz hz'
      exact hspelled chan' z hdesired' hmem' hbefore

/-- A reconcile under which every route is anchored, also while groups are renamed. -/
def ReconcileKeeps (loserUid : NodeId → Bytes → Bytes) (t : RouteTable) (r : Reconcile) : Prop :=
  t.validateDesired r = .ok () → Anchored r t ∧
    ∀ nick, r.desiredNick = some nick → r.localCanonical = false → GroupsKeep loserUid t r nick

theorem Routed.reconcileSessionTokenObserved (h : Routed t) (hkeep : ReconcileKeeps loserUid t r)
    (a : ReconcileAllocs) : Routed (t.reconcileSessionTokenObserved loserUid r a).2 := by
  cases hvalid : t.validateDesired r with
  | error e =>
    rw [RouteTable.reconcileSessionTokenObserved, hvalid]
    exact h
  | ok =>
    refine Anchored.routed (r := r) (reconcile_invariant loserUid (a := a)
      (P := fun t => Anchored r t ∧ ∀ nick, r.desiredNick = some nick → r.localCanonical = false →
        GroupsKeep loserUid t r nick) (Q := Anchored r) ?_ (fun _ => And.left)
      (fun t i chan l m s ht hroster hretires => ht.departRetired hroster hretires i) ?_ t
      (hkeep hvalid).1 fun _ => hkeep hvalid)
    · rintro nick hnick hlocal t m b ⟨hanchored, hgroups⟩ hm -
      obtain ⟨hafter, hkept⟩ := (hgroups nick hnick hlocal).rename hanchored hm b
      refine ⟨hafter, fun nick' hnick' _ => ?_⟩
      rwa [Option.some.inj (hnick'.symm.trans hnick)]
    · intro t u hframe ht k n hroute
      rw [RouteTable.nickNode, hframe.routes] at hroute
      obtain ⟨chan, m, hm, hrest⟩ := ht k n hroute
      exact ⟨chan, m, (hframe.roster chan).symm ▸ hm, hrest⟩

theorem Counted.reconcileSessionTokenObserved (h : Counted t) (loserUid : NodeId → Bytes → Bytes)
    (r : Reconcile) (a : ReconcileAllocs) :
    Counted (t.reconcileSessionTokenObserved loserUid r a).2 :=
  reconcile_invariant loserUid (P := Counted) (Q := Counted)
    (fun _ _ _ _ _ _ ht _ _ => ht.applySession _ _) (fun _ => id)
    (fun _ i chan _ m _ ht _ _ => ht.departRetired a i chan _ _ m)
    (fun _ _ hframe ht => ht.alike hframe) t h fun _ => h

end Session

/-- The step leaves no route without a row: no location is set from outside, a winning join
is committed while there is room for its route, and a part, a takeover, a rename, a
reconcile or a sweep takes the last row of no route that it does not remove or move. -/
def KeepsHosts (loserUid : NodeId → Bytes → Bytes) (s : System) : Op → Prop
  | .setNickLocation .. => False
  | .applyMembership m _ _ => MemberKeeps loserUid s.table m
  | .commitWinningJoin _ => ∀ prepared, s.pending = some prepared →
      s.table.nickNode prepared.row.nick = none → s.table.nickCount < s.table.cfg.maxNicks
  | .renameNick old new node _ _ _ => RenameKeeps s.table old new node
  | .renameNickDisplacing d _ _ => DisplacingKeeps s.table d
  | .renameNickBindingSessionToken node old new token ident _ =>
      SessionKeeps s.table ⟨token, node, old, new, some ident, true⟩
  | .reconcileSessionToken r _ => ReconcileKeeps loserUid s.table r
  | .pruneStale nowMs windowMs announced _ => PruneKeeps s.table nowMs windowMs announced
  | _ => True

structure RoutesSound (t : RouteTable) : Prop where
  counted : Counted t
  routed : Routed t

theorem routesSound_empty (cfg : Config) : RoutesSound (RouteTable.empty cfg) :=
  ⟨counted_empty cfg, fun _ _ h => nomatch h⟩

theorem RoutesSound.alike (h : RoutesSound t) (hframe : Alike t t') : RoutesSound t' :=
  ⟨h.counted.alike hframe, h.routed.alike hframe⟩

theorem RoutesSound.removeNick (h : RoutesSound t) (nick : Bytes) :
    RoutesSound (t.removeNick nick).2 := by
  refine ⟨h.counted.removeNick nick, fun k n hroute => ?_⟩
  rw [routes_removeNick] at hroute
  split_ifs at hroute
  · exact (h.routed k n hroute).mono fun m hm =>
      (mem_rows_congr (roster_congr (removeNick_frame t nick).members) m).mpr hm

theorem RoutesSound.rehash (h : RoutesSound t) (members : HashMap Bytes (List Member)) :
    RoutesSound (t.rehash members) := by
  refine ⟨?_, h.routed.rehash members⟩
  rw [RouteTable.rehash]
  split
  · exact ⟨h.counted.count, h.counted.bound⟩
  · exact h.counted

theorem RoutesSound.step {s : System} (h : RoutesSound s.table) {op : Op}
    (hop : KeepsHosts loserUid s op) : RoutesSound (step loserUid s op).2.table := by
  rcases step_table loserUid s op with halike | ⟨index, prepared, rfl, hpending, hfree, heq⟩ | heq
  · exact h.alike halike
  · rw [heq]
    exact ⟨h.counted.commitWinningJoin hfree (hop prepared hpending hfree) index,
      h.routed.commitWinningJoin prepared index⟩
  · rw [heq]
    cases op with
    | rehash members => exact h.rehash members
    | setNickLocation => exact hop.elim
    | removeNick nick => exact h.removeNick nick
    | clear => exact routesSound_empty s.table.cfg
    | addChannelMember chan node alloc =>
        exact h.alike (addChannelMember_frame s.table chan node alloc)
    | removeChannelMember chan node => exact h.alike (removeChannelMember_frame s.table chan node)
    | setChannelNodePresence chan node present alloc =>
      exact h.alike (setChannelNodePresence_frame s.table chan node present alloc)
    | applyFact op => exact h.alike (applyFact_frame s.table op)
    | applyMembership m preparer a =>
      have hstep := applyMembership_step loserUid s.table m preparer a
      exact ⟨h.counted.memberStep hstep, h.routed.memberStep hop hstep⟩
    | prepareWinningJoin => exact h
    | commitWinningJoin => exact h
    | abandonWinningJoin => exact h
    | renameNick old new node ident copies plans =>
      rcases renameNick_step s.table old new node ident copies plans with heq | ⟨hgoes, heq⟩
      · exact heq.symm ▸ h
      · exact heq.symm ▸
          ⟨h.counted.applyRename old new node ident, h.routed.applyRename hgoes hop ident⟩
    | renameNickDisplacing d staged reserved =>
      rcases renameNickDisplacing_step s.table d staged reserved with heq | ⟨hgoes, heq⟩
      · exact heq.symm ▸ h
      · exact heq.symm ▸ ⟨h.counted.applyDisplacing hgoes.fits hgoes.room,
          h.routed.applyDisplacing hgoes hop⟩
    | renameNickBindingSessionToken node old new token ident a =>
      rcases renameSessionTokenRows_step s.table ⟨token, node, old, new, some ident, true⟩ a with
        ⟨answer, -, heq⟩ | ⟨hgoes, heq⟩
      · exact (congrArg Prod.snd heq).symm ▸ h
      · exact (congrArg Prod.snd heq).symm ▸
          ⟨h.counted.applySession _ a, h.routed.applySession hgoes hop a⟩
    | rebindSessionToken node wireNick token =>
      exact ⟨h.counted.rebindSessionToken loserUid node wireNick token,
        h.routed.rebindSessionToken loserUid node wireNick token⟩
    | reconcileSessionToken r a =>
      exact ⟨h.counted.reconcileSessionTokenObserved loserUid r a,
        h.routed.reconcileSessionTokenObserved hop a⟩
    | pruneStale nowMs windowMs announced a =>
      exact ⟨h.counted.pruneStaleObserved nowMs windowMs announced a,
        h.routed.pruneStaleObserved hop a⟩
    | removeNode node a => exact ⟨h.counted.removeNode node a, h.routed.removeNode node a⟩

/-- In a run whose steps all leave routes their rows, the counter of every state is the
number of its routes within the bound, and every route leads to a node with a row of the
nick. -/
theorem routes_never_dangle (loserUid : NodeId → Bytes → Bytes) (cfg : Config) (ops : List Op)
    (hops : ∀ v ∈ visits (step loserUid) (System.init cfg) ops,
      KeepsHosts loserUid v.before v.input) :
    ∀ v ∈ visits (step loserUid) (System.init cfg) ops,
      v.after.table.nickCount = HashMap.count v.after.table.nickToNode ∧
      v.after.table.nickCount ≤ v.after.table.cfg.maxNicks ∧
      ∀ nick node, v.after.table.nickNode nick = some node →
        ∃ chan, ∃ m ∈ v.after.table.channelMembersOf chan,
          eqlIgnoreCase m.nick nick = true ∧ m.node = node := by
  intro v hv
  have hsound := ((guarded_invariant (P := fun s : System => RoutesSound s.table)
    (G := fun v => KeepsHosts loserUid v.before v.input)
    (fun v hstep hop h => (congrArg (·.2.table) hstep) ▸ h.step hop)
    (s := System.init cfg) (routesSound_empty cfg) hops).2 v hv).2
  refine ⟨hsound.counted.count, hsound.counted.bound, fun nick node hroute => ?_⟩
  obtain ⟨m, hm, hnick, hnode⟩ := hsound.routed nick node hroute
  obtain ⟨chan, hm⟩ := mem_rows.mp hm
  exact ⟨chan, m, hm, eqlIgnoreCase_iff.mpr hnick, hnode⟩

/-- Two nodes introduce a user of one nick on one channel. -/
def contestedJoins : List Op := [.member true [35] [97] 1 1, .member true [35] [97] 2 2]

def contested : System :=
  final (step fun _ nick => nick) (System.init ⟨4, 4, 4, 16⟩) contestedJoins

theorem routes_never_dangle_contested :
    contested.table.nickCount = HashMap.count contested.table.nickToNode ∧
      contested.table.nickCount ≤ contested.table.cfg.maxNicks ∧
      ∃ chan, ∃ m ∈ contested.table.channelMembersOf chan,
        eqlIgnoreCase m.nick [97] = true ∧ m.node = 2 := by
  obtain ⟨hcount, hbound, hhosted⟩ := routes_never_dangle (fun _ nick => nick) ⟨4, 4, 4, 16⟩
    contestedJoins (by
      refine List.forall_mem_cons.mpr ⟨fun _ i cur hrow => ?_, List.forall_mem_cons.mpr
        ⟨fun _ i cur _ _ _ k hk _ hroute => ?_, by simp [visits]⟩⟩
      · cases hrow
      · change (AList.insert [97] 1 (∅ : HashMap Bytes NodeId)).lookup k = _ at hroute
        rw [HashMap.lookup_insert_eq, if_neg hk] at hroute
        cases hroute) _ (.tail _ (.head _))
  exact ⟨hcount, hbound, hhosted [97] 2 (by decide)⟩

/-- A part that takes the routed row leaves the route when another node has the nick. -/
theorem part_leaves_dangling_route :
    ¬ ∀ ops : List Op, (∀ op ∈ ops, ∀ nick node alloc, op ≠ .setNickLocation nick node alloc) →
      ∀ nick node,
        (final (step fun _ nick => nick) (System.init ⟨4, 4, 4, 16⟩) ops).table.nickNode nick =
          some node →
        ∃ m ∈ (final (step fun _ nick => nick) (System.init ⟨4, 4, 4, 16⟩) ops).table.rows,
          eqlIgnoreCase m.nick nick = true ∧ m.node = node := by
  intro h
  have hdangling := h [.member true [35] [97] 1 1, .member true [36] [97] 2 2,
    .member false [36] [97] 2 3] (by simp [Op.member]) [97] 2 (by decide)
  exact absurd hdangling (by decide)

end OnyxServer.Undertow
