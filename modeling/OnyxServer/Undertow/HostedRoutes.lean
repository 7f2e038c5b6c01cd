import OnyxServer.Undertow.Routes

/-!
# Routes with a row behind them

A route to a node has a row of the nick on that node. An operation that takes rows away, or
moves them, keeps this where no route loses its last row without being removed or moved
too; what that asks of each operation is stated on the table before it.
-/
namespace OnyxServer.Undertow

open Lib Text List Option

variable {loserUid : NodeId → Bytes → Bytes} {t t' : RouteTable} {chan k nick : Bytes}
  {l r : List Member} {cur m x : Member} {n node : NodeId}

/-- Some row of the node has the nick, ignoring case. -/
def Hosted (t : RouteTable) (k : Bytes) (n : NodeId) : Prop :=
  ∃ m ∈ t.rows, lowerString m.nick = lowerString k ∧ m.node = n

/-- No route leads to a node without a row of the nick. -/
def Routed (t : RouteTable) : Prop := ∀ k n, t.nickNode k = some n → Hosted t k n

theorem Hosted.mono (h : Hosted t k n) (hrows : ∀ m ∈ t.rows, m ∈ t'.rows) : Hosted t' k n := by
  obtain ⟨m, hm, hrest⟩ := h
  exact ⟨m, hrows m hm, hrest⟩

theorem Routed.alike (h : Routed t) (hframe : Alike t t') : Routed t' := by
  intro k n hroute
  rw [RouteTable.nickNode, hframe.routes] at hroute
  exact (h k n hroute).mono fun m hm => (mem_rows_congr hframe.roster m).mpr hm

theorem Routed.index (h : Routed t) (hframe : IndexOnly t t') : Routed t' := by
  intro k n hroute
  rw [RouteTable.nickNode, hframe.routes] at hroute
  exact (h k n hroute).mono fun m hm => (mem_rows_congr (roster_congr hframe.members) m).mpr hm

/-- A row other than the one at `i` in the roster of the channel. -/
def OtherRow (t : RouteTable) (chan : Bytes) (i : Nat) (m : Member) : Prop :=
  m ∈ (t.channelMembersOf chan).eraseIdx i ∨ Elsewhere t chan m

theorem otherRow_iff (hroster : t.channelMembersOf chan = l ++ cur :: r) :
    OtherRow t chan l.length m ↔ m ∈ l ++ r ∨ Elsewhere t chan m := by
  rw [OtherRow, hroster, eraseIdx_split]

/-- The row at `i` is not the last that the route to its node has. -/
def HostedElse (t : RouteTable) (chan : Bytes) (i : Nat) (k : Bytes) (n : NodeId) : Prop :=
  ∃ m, OtherRow t chan i m ∧ lowerString m.nick = lowerString k ∧ m.node = n

/-- A newer join of another node takes the nick over: every route that is spelled otherwise
has another row. -/
def TakesOver (t : RouteTable) (m : Membership) : Prop :=
  ∀ i cur, findRow (t.channelMembersOf m.chan) m.nick = some (i, cur) → cur.hlc < m.hlc →
    cur.node ≠ m.node → ∀ k, k ≠ m.nick → lowerString k = lowerString m.nick →
      t.nickNode k = some cur.node → HostedElse t m.chan i k cur.node

/-- A newer part takes a row away: every route to it has another row, or is spelled as the
row and goes with the last occurrence of the nick. -/
def PartsWith (loserUid : NodeId → Bytes → Bytes) (t : RouteTable) (m : Membership) : Prop :=
  ∀ i cur, partedRow loserUid m (t.channelMembersOf m.chan) = some (i, cur) → cur.hlc < m.hlc →
    ∀ k, lowerString k = lowerString cur.nick → t.nickNode k = some cur.node →
      HostedElse t m.chan i k cur.node ∨ (k = cur.nick ∧
        ∀ x, OtherRow t m.chan i x → lowerString x.nick ≠ lowerString k)

def MemberKeeps (loserUid : NodeId → Bytes → Bytes) (t : RouteTable) (m : Membership) : Prop :=
  t.validateMembership m.chan m.nick m.node = .ok () →
    if m.present then TakesOver t m else PartsWith loserUid t m

theorem validateMembership_ok {chan : Bytes}
    (h : t.validateMembership chan nick node = .ok ()) :
    t.validateName nick = .ok () ∧ validateNode node = .ok () := by
  rw [RouteTable.validateMembership] at h
  cases hchan : t.validateName chan with
  | error e => simp [hchan, bind, Except.bind] at h
  | ok =>
    cases hname : t.validateName nick with
    | error e => simp [hchan, hname, bind, Except.bind] at h
    | ok => exact ⟨rfl, by simpa [hchan, hname, bind, Except.bind] using h⟩

/-- A route to the nick, and what the other routes led to before. -/
theorem routes_indexNick {u : RouteTable} {hlc : UInt64} {a : ApplyAllocs}
    (hvalid : t.validateMembership chan nick node = .ok ()) (hcfg : u.cfg = t.cfg)
    (hroutes : u.nickToNode = t.nickToNode)
    (h : (u.indexNick nick node hlc a).nickNode k = some n) :
    (k = nick ∧ n = node) ∨ (k ≠ nick ∧ t.nickNode k = some n) := by
  obtain ⟨hname, hnode⟩ := validateMembership_ok hvalid
  rw [RouteTable.nickNode, RouteTable.indexNick, (noteBestNickClaim_frame _ _ _ _).routes] at h
  have hname' : u.validateName nick = .ok () := by
    rwa [RouteTable.validateName, hcfg]
  rcases routes_setNickLocation_valid hname' hnode h with hset | ⟨hne, hold⟩
  · exact .inl hset
  · rw [RouteTable.nickNode, hroutes] at hold
    exact .inr ⟨hne, hold⟩

theorem findMember_none : t.findMember nick = none ↔
    ∀ m ∈ t.rows, lowerString m.nick ≠ lowerString nick := by
  rw [RouteTable.findMember, List.find?_eq_none]
  simp only [eqlIgnoreCase_iff]

theorem mem_rows_dropped (hroster : t.channelMembersOf chan = l ++ cur :: r) :
    m ∈ (t.setRoster chan (swapRemove (l ++ cur :: r) l.length)).rows ↔
      OtherRow t chan l.length m := by
  rw [mem_rows_setRoster, (swapRemove_perm l r cur).mem_iff, otherRow_iff hroster]

/-- A route's row is the one at the place or another. -/
theorem Hosted.split (h : Hosted t k n) (hroster : t.channelMembersOf chan = l ++ cur :: r) :
    (lowerString cur.nick = lowerString k ∧ cur.node = n) ∨ HostedElse t chan l.length k n := by
  obtain ⟨m, hm, hnick, hnode⟩ := h
  rcases (mem_rows_of_roster hroster).mp hm with rfl | hother
  · exact .inl ⟨hnick, hnode⟩
  · exact .inr ⟨m, (otherRow_iff hroster).mpr hother, hnick, hnode⟩

theorem Routed.partRow (h : Routed t) (hroster : t.channelMembersOf chan = l ++ cur :: r)
    (hkeep : ∀ k, lowerString k = lowerString cur.nick → t.nickNode k = some cur.node →
      HostedElse t chan l.length k cur.node ∨ (k = cur.nick ∧
        ∀ x, OtherRow t chan l.length x → lowerString x.nick ≠ lowerString k))
    (index : Bool) : Routed (t.partRow chan (l ++ cur :: r) l.length cur.nick index) := by
  intro k n hroute
  have hframe := pruneIfEmpty_frame (t.setRoster chan (swapRemove (l ++ cur :: r) l.length)) chan
  have hrows : ∀ m, m ∈ (t.partRow chan (l ++ cur :: r) l.length cur.nick index).rows ↔
      OtherRow t chan l.length m := fun m =>
    (mem_rows_congr (roster_partRow _ _ _ _ _ _) m).trans (mem_rows_dropped hroster)
  have hdropped : ∀ m, m ∈ (t.dropRow chan (l ++ cur :: r) l.length).rows ↔
      OtherRow t chan l.length m := fun m =>
    (mem_rows_congr hframe.roster m).trans (mem_rows_dropped hroster)
  rw [RouteTable.nickNode, RouteTable.partRow, (reselectNick_frame _ _ _).routes] at hroute
  have hbefore : t.nickNode k = some n ∧
      (k = cur.nick → ∃ m, OtherRow t chan l.length m ∧ lowerString m.nick = lowerString k) := by
    split at hroute
    · change RouteTable.nickNode _ k = _ at hroute
      rw [routes_removeNick] at hroute
      split_ifs at hroute
      · rename_i hne
        rw [RouteTable.nickNode, RouteTable.dropRow, hframe.routes] at hroute
        exact ⟨hroute, fun heq => absurd heq hne⟩
    · rename_i hfound
      rw [RouteTable.dropRow, hframe.routes] at hroute
      refine ⟨hroute, fun heq => ?_⟩
      rw [Option.isNone_iff_eq_none, findMember_none] at hfound
      push Not at hfound
      obtain ⟨m, hm, hnick⟩ := hfound
      exact ⟨m, (hdropped m).mp hm, heq ▸ hnick⟩
  obtain ⟨hold, hlast⟩ := hbefore
  have helse : HostedElse t chan l.length k n := by
    rcases (h k n hold).split hroster with ⟨hnick, rfl⟩ | helse
    · rcases hkeep k hnick.symm hold with helse | ⟨heq, hnone⟩
      · exact helse
      · obtain ⟨m, hm, hm'⟩ := hlast heq
        exact absurd hm' (hnone m hm)
    · exact helse
  obtain ⟨m, hm, hrest⟩ := helse
  exact ⟨m, (hrows m).mpr hm, hrest⟩

theorem Routed.memberStep (h : Routed t) {m : Membership} {a : ApplyAllocs}
    (hkeep : MemberKeeps loserUid t m) (hstep : MemberStep loserUid t m a t') : Routed t' := by
  cases hstep with
  | same halike => exact h.alike halike
  | refreshed hroster halike =>
    intro k n hroute
    rw [RouteTable.nickNode, halike.routes] at hroute
    rcases (h k n hroute).split hroster with ⟨hnick, hnode⟩ | ⟨x, hx, hrest⟩
    · exact ⟨_, (mem_rows_congr halike.roster _).mpr
        (mem_rows_setRoster.mpr (.inl (mem_split.mpr (.inl rfl)))), hnick, hnode⟩
    · refine ⟨x, (mem_rows_congr halike.roster x).mpr (mem_rows_setRoster.mpr ?_), hrest⟩
      exact ((otherRow_iff hroster).mp hx).imp_left fun hx => mem_split.mpr (.inr hx)
  | @updated u l r cur hvalid hpresent hroster hrow hnick hnewer halike =>
    intro k n hroute
    have hrows : ∀ x, x ∈ (t.setRoster m.chan (l ++ m.row :: r)).rows →
        x ∈ (u.indexNick m.nick m.node m.hlc a).rows := fun x hx =>
      (mem_rows_congr (roster_indexNick u m.nick m.node m.hlc a) x).mpr
        ((mem_rows_congr halike.roster x).mpr hx)
    have hown : ∀ k, lowerString m.nick = lowerString k →
        Hosted (u.indexNick m.nick m.node m.hlc a) k m.node := fun k hk =>
      ⟨m.row, hrows _ (mem_rows_setRoster.mpr (.inl (mem_split.mpr (.inl rfl)))), hk, rfl⟩
    have hother : HostedElse t m.chan l.length k n →
        Hosted (u.indexNick m.nick m.node m.hlc a) k n := by
      rintro ⟨x, hx, hrest⟩
      refine ⟨x, hrows x (mem_rows_setRoster.mpr ?_), hrest⟩
      exact ((otherRow_iff hroster).mp hx).imp_left fun hx => mem_split.mpr (.inr hx)
    rcases routes_indexNick hvalid halike.cfg halike.routes hroute with ⟨rfl, rfl⟩ | ⟨hne, hold⟩
    · exact hown _ rfl
    rcases (h k n hold).split hroster with ⟨hcur, rfl⟩ | helse
    · by_cases hnode : cur.node = m.node
      · rw [hnode]
        exact hown k (hnick ▸ hcur)
      · have htakes := hkeep hvalid
        rw [if_pos hpresent] at htakes
        exact hother (htakes _ cur (hroster ▸ hrow) hnewer hnode k hne (hnick ▸ hcur.symm) hold)
    · exact hother helse
  | @joined u hvalid _ _ halike =>
    intro k n hroute
    have hrows : ∀ x, x ∈ (t.setRoster m.chan (t.channelMembersOf m.chan ++ [m.row])).rows →
        x ∈ (u.indexNick m.nick m.node m.hlc a).rows := fun x hx =>
      (mem_rows_congr (roster_indexNick u m.nick m.node m.hlc a) x).mpr
        ((mem_rows_congr halike.roster x).mpr hx)
    rcases routes_indexNick hvalid halike.cfg halike.routes hroute with ⟨rfl, rfl⟩ | ⟨-, hold⟩
    · exact ⟨m.row, hrows _ (mem_rows_setRoster.mpr (.inl (by simp))), rfl, rfl⟩
    · refine (h k n hold).mono fun x hx => hrows x (mem_rows_setRoster.mpr ?_)
      exact ((mem_rows_split m.chan).mp hx).imp_left fun hx => mem_append_left _ hx
  | @parted u l r cur hvalid hpresent hroster hrow _ hnewer halike =>
    have hparts := hkeep hvalid
    rw [if_neg (by simp [hpresent])] at hparts
    have hparts := hparts l.length cur (hroster ▸ hrow) hnewer
    refine (h.alike halike).partRow ((halike.roster _).trans hroster)
      (fun k hk hroute => ?_) a.index
    rw [RouteTable.nickNode, halike.routes] at hroute
    have hother : ∀ x, OtherRow u m.chan l.length x ↔ OtherRow t m.chan l.length x := fun x => by
      simp only [OtherRow, Elsewhere, halike.roster]
    simp only [HostedElse, hother]
    exact hparts k hk hroute

theorem Routed.commitWinningJoin (h : Routed t) (prepared : PreparedWinningJoin) (index : Bool) :
    Routed (t.commitWinningJoin prepared index) := by
  intro k n hroute
  have hrows : ∀ x, x ∈ t.rows ∨ x = prepared.row →
      x ∈ (t.commitWinningJoin prepared index).rows := by
    intro x hx
    rw [mem_rows_congr (roster_commitWinningJoin t prepared index), mem_rows_setRoster,
      mem_append, mem_singleton]
    rcases hx with hx | rfl
    · exact ((mem_rows_split prepared.channel).mp hx).imp_left .inl
    · exact .inl (.inr rfl)
  have hframe := clearPartTombstone_frame (t.setRoster prepared.channel
    (t.channelMembersOf prepared.channel ++ [prepared.row])) prepared.channel prepared.row.nick
    prepared.row.node
  rw [RouteTable.nickNode, RouteTable.commitWinningJoin, (noteBestNickClaim_frame _ _ _ _).routes,
    HashMap.lookup_insert_eq, hframe.routes] at hroute
  split at hroute
  · rename_i hk
    exact ⟨prepared.row, hrows _ (.inr rfl), congrArg lowerString hk.symm, some.inj hroute⟩
  · exact (h k n hroute).mono fun x hx => hrows x (.inl hx)

theorem Routed.removeNode (h : Routed t) (node : NodeId) (a : RouteTable.RemoveAllocs) :
    Routed (t.removeNode node a) := by
  intro k n hroute
  change (HashMap.keep (fun _ home => home != node) t.nickToNode).lookup k = some n at hroute
  rw [HashMap.lookup_keep, Option.filter_eq_some_iff] at hroute
  obtain ⟨m, hm, hnick, rfl⟩ := h k n hroute.1
  obtain ⟨chan, hm⟩ := mem_rows.mp hm
  refine ⟨m, mem_rows.mpr ⟨chan, (roster_removeNode t node a chan).mem_iff.mpr ?_⟩, hnick, rfl⟩
  exact mem_filter.mpr ⟨hm, by simpa using hroute.2⟩

theorem Routed.rebindSessionToken (h : Routed t) (loserUid : NodeId → Bytes → Bytes) (node : NodeId)
    (wireNick : Bytes) (token : Option SessionToken) :
    Routed (t.rebindSessionToken loserUid node wireNick token).2 := by
  rw [RouteTable.rebindSessionToken]
  split
  · exact h
  · exact h
  · intro k n hroute
    obtain ⟨m, hm, hnick, hnode⟩ := h k n hroute
    obtain ⟨chan, hm⟩ := mem_rows.mp hm
    refine ⟨_, (mem_rows_mapRows rfl).mpr ⟨chan, mem_map_of_mem hm⟩, ?_⟩
    split <;> exact ⟨hnick, hnode⟩

theorem Routed.rehash (h : Routed t) (members : HashMap Bytes (List Member)) :
    Routed (t.rehash members) := by
  intro k n hroute
  have hsame : (t.rehash members).nickNode k = t.nickNode k := by
    rw [RouteTable.rehash]
    split <;> rfl
  exact (h k n (hsame ▸ hroute)).mono fun m hm =>
    (mem_rows_congr (roster_rehash t members) m).mpr hm

/-- A plain rename that goes through: a route of the old nick has a row to move or a row of
the new nick, and every route to the old nick in another case a row that stays. -/
def RenameKeeps (t : RouteTable) (old new : Bytes) (node : NodeId) : Prop :=
  RenameGoes t old new node →
    ((t.nickNode old).isSome = true →
      (∃ chan, (planned old node (t.channelMembersOf chan)).isSome = true) ∨ Hosted t new node) ∧
    ∀ k, k ≠ old → lowerString k = lowerString old → t.nickNode k = some node →
      lowerString old = lowerString new ∨ ∃ chan i m, (t.channelMembersOf chan)[i]? = some m ∧
        lowerString m.nick = lowerString old ∧ m.node = node ∧
        planned old node (t.channelMembersOf chan) ≠ some (i, m)

variable {list : List Member}

theorem planned_some {old : Bytes} {i : Nat}
    (h : planned old node list = some (i, m)) :
    list[i]? = some m ∧ m.nick = old ∧ m.node = node := by
  obtain ⟨hfound, hnode⟩ := Option.filter_eq_some_iff.mp h
  obtain ⟨l, r, rfl, rfl, hnick, -⟩ := findRow_some hfound
  exact ⟨by simp, hnick, of_decide_eq_true hnode⟩

variable {old new : Bytes}

theorem mem_renamePlanned {ident : MemberIdentity} {i : Nat}
    (hx : list[i]? = some x) (hstays : planned old node list ≠ some (i, x)) :
    x ∈ renamePlanned old new node ident list := by
  rw [renamePlanned]
  split
  · rename_i j m hplanned
    refine mem_of_getElem? (i := i) ?_
    rw [List.getElem?_set_ne, hx]
    rintro rfl
    have hm := (planned_some hplanned).1
    rw [hx] at hm
    exact hstays (hplanned.trans (by rw [some.inj hm]))
  · exact mem_of_getElem? hx

theorem renamed_mem {ident : MemberIdentity} {i : Nat}
    (hplanned : planned old node list = some (i, m)) :
    m.renamed new ident ∈ renamePlanned old new node ident list := by
  obtain ⟨hlt, -⟩ := List.getElem?_eq_some_iff.mp (planned_some hplanned).1
  rw [renamePlanned, hplanned]
  exact mem_iff_getElem.mpr ⟨i, by simpa using hlt, by simp⟩

theorem Routed.applyRename (h : Routed t) (hgoes : RenameGoes t old new node)
    (hkeep : RenameKeeps t old new node) (ident : MemberIdentity) :
    Routed (t.applyRename old new node ident) := by
  obtain ⟨hnew, hold⟩ := hkeep hgoes
  have hrows : ∀ chan x, x ∈ renamePlanned old new node ident (t.channelMembersOf chan) →
      x ∈ (t.applyRename old new node ident).rows := fun chan x hx =>
    mem_rows.mpr ⟨chan, (roster_applyRename t old new node ident chan).symm ▸ hx⟩
  have hrenamed : ∀ chan i m, planned old node (t.channelMembersOf chan) = some (i, m) → ∀ k,
      lowerString new = lowerString k → Hosted (t.applyRename old new node ident) k node :=
    fun chan i m hplanned k hk =>
      ⟨_, hrows chan _ (renamed_mem hplanned), hk, (planned_some hplanned).2.2⟩
  have hsame : ∀ k n, t.nickNode k = some n → k ≠ old →
      Hosted (t.applyRename old new node ident) k n := by
    intro k n hroute hne
    obtain ⟨m, hm, hnick, rfl⟩ := h k n hroute
    obtain ⟨chan, hm⟩ := mem_rows.mp hm
    obtain ⟨i, hat⟩ := mem_iff_getElem?.mp hm
    by_cases hplanned : planned old node (t.channelMembersOf chan) = some (i, m)
    · obtain ⟨-, rfl, rfl⟩ := planned_some hplanned
      rcases hold k hne hnick.symm hroute with hcase | ⟨chan', j, x, hx, hxnick, hxnode, hstays⟩
      · exact hrenamed chan i m hplanned k (hcase.symm.trans hnick)
      · exact ⟨x, hrows chan' x (mem_renamePlanned hx hstays), hxnick.trans hnick, hxnode⟩
    · exact ⟨m, hrows chan m (mem_renamePlanned hat hplanned), hnick, rfl⟩
  intro k n hroute
  rw [routes_applyRename] at hroute
  split at hroute
  · rename_i hmoved
    obtain ⟨hrouted, rfl⟩ := hmoved
    cases hroute
    rcases hnew hrouted with ⟨chan, hplanned⟩ | ⟨m, hm, hnick, hnode⟩
    · obtain ⟨⟨i, m⟩, hplanned⟩ := Option.isSome_iff_exists.mp hplanned
      exact hrenamed chan i m hplanned k rfl
    obtain ⟨chan, hm⟩ := mem_rows.mp hm
    obtain ⟨i, hat⟩ := mem_iff_getElem?.mp hm
    by_cases hplanned : planned old node (t.channelMembersOf chan) = some (i, m)
    · exact hrenamed chan i m hplanned k rfl
    · exact ⟨m, hrows chan m (mem_renamePlanned hat hplanned), hnick, hnode⟩
  · split_ifs at hroute
    · rename_i hne
      exact hsame k n hroute hne

/-- A session rename that goes through: every route to the old nick in another case keeps a
row that does not move, unless the new nick is the old one in another case. -/
def SessionKeeps (t : RouteTable) (s : SessionRename) : Prop :=
  SessionGoes t s → ∀ k, k ≠ s.oldNick → lowerString k = lowerString s.oldNick →
    t.nickNode k = some s.node → lowerString s.oldNick = lowerString s.newNick ∨
      ∃ m ∈ t.rows, lowerString m.nick = lowerString s.oldNick ∧ m.node = s.node ∧
        s.takes m = false

theorem Routed.applySession (h : Routed t) {s : SessionRename} (hgoes : SessionGoes t s)
    (hkeep : SessionKeeps t s) (a : SessionAllocs) : Routed (t.applySession s a) := by
  have hmoved : ∀ m ∈ t.rows, s.takes m = true → ∀ k, lowerString s.newNick = lowerString k →
      Hosted (t.applySession s a) k s.node := by
    intro m hm htakes k hk
    obtain ⟨hnick, hnode⟩ := moved_of_takes htakes
    exact ⟨s.moved m, mem_rows_applySession.mpr ⟨m, hm, rfl⟩, hnick.symm ▸ hk, hnode⟩
  have hstays : ∀ m ∈ t.rows, s.takes m = false → m ∈ (t.applySession s a).rows := fun m hm hs =>
    mem_rows_applySession.mpr ⟨m, hm, moved_of_stays hs⟩
  intro k n hroute
  rw [routes_applySession] at hroute
  split at hroute
  · rename_i hnew
    obtain ⟨m, hm, htakes⟩ := fits_takes hgoes.fits
    rw [← some.inj hroute]
    exact hmoved m hm htakes k (congrArg lowerString hnew.2.symm)
  split_ifs at hroute with hkept
  obtain ⟨m, hm, hnick, rfl⟩ := h k n hroute
  cases htakes : s.takes m with
  | false => exact ⟨m, hstays m hm htakes, hnick, rfl⟩
  | true =>
    obtain ⟨hnode, hold⟩ := takes_identity htakes
    rw [hnode] at hroute ⊢
    have hne : k ≠ s.oldNick := fun heq =>
      hkept ⟨decide_eq_true (heq ▸ hroute), heq⟩
    rcases hkeep hgoes k hne (hnick.symm.trans hold) hroute with hcase | ⟨x, hx, hxnick, hxnode, hs⟩
    · exact hmoved m hm htakes k (hcase.symm.trans (hold.symm.trans hnick))
    · exact ⟨x, hstays x hx hs, hxnick.trans (hold.symm.trans hnick), hxnode⟩

/-- A displacing rename that goes through: it moves a row to the new nick, every route to
the old nick in another case has a row that does not move, and none leads to the incumbent
under the displaced nick in another case. -/
def DisplacingKeeps (t : RouteTable) (d : Displacing) : Prop :=
  DisplacingGoes t d → (∃ m ∈ t.rows, d.isExactOld m = true) ∧
    (∀ k, k ≠ d.oldNick → lowerString k = lowerString d.oldNick → t.nickNode k = some d.node →
      lowerString d.oldNick = lowerString d.newNick ∨
        ∃ m ∈ t.rows, lowerString m.nick = lowerString d.oldNick ∧ m.node = d.node ∧
          d.isExactOld m = false) ∧
    ∀ k, k ≠ d.newNick → lowerString k = lowerString d.newNick →
      t.nickNode k = some d.incumbentNode → lowerString d.newNick = lowerString d.incumbentUid

theorem Routed.applyDisplacing (h : Routed t) {d : Displacing} (hgoes : DisplacingGoes t d)
    (hkeep : DisplacingKeeps t d) : Routed (t.applyDisplacing d) := by
  obtain ⟨⟨mover, hmover, hold⟩, hkeepOld, hkeepNew⟩ := hkeep hgoes
  have homes := fits_homes hgoes.fits
  have hrows : ∀ m ∈ t.rows, d.moved m ∈ (t.applyDisplacing d).rows := by
    intro m hm
    obtain ⟨chan, hm⟩ := mem_rows.mp hm
    exact mem_rows.mpr ⟨chan, (roster_applyDisplacing t d chan).symm ▸ mem_map_of_mem hm⟩
  have hlands : ∀ m ∈ t.rows, ∀ nick, d.lands m = some nick →
      ∀ k, lowerString nick = lowerString k →
      Hosted (t.applyDisplacing d) k m.node := by
    intro m hm nick hnick k hk
    refine ⟨d.moved m, hrows m hm, ?_, d.moved_node m⟩
    rw [d.moved_nick, hnick, Option.getD_some, hk]
  have hstays : ∀ m ∈ t.rows, d.lands m = none → m ∈ (t.applyDisplacing d).rows := by
    intro m hm hnone
    have hmem := hrows m hm
    rwa [Displacing.moved_of_stays hnone] at hmem
  have hincumbent : ∀ m ∈ t.rows, lowerString m.nick = lowerString d.newNick →
      m.node = d.incumbentNode → d.lands m = some d.incumbentUid := by
    intro m hm hnick hnode
    have hnotOld : ¬ d.isExactOld m = true := fun hold =>
      homes.apart ((Displacing.isExactOld_identity hold).1.symm.trans hnode)
    have hlanded : d.lands m ≠ none := fun hnone =>
      (Displacing.stays_apart (fits_conflicts hgoes.fits hm) hnone).1 hnick
    rw [Displacing.lands, if_neg hnotOld] at hlanded ⊢
    split at hlanded
    · rename_i hin
      rw [if_pos hin]
    · exact absurd rfl hlanded
  intro k n hroute
  rw [routes_applyDisplacing] at hroute
  split at hroute
  · rename_i huid
    obtain ⟨m, hm, hnick, hnode⟩ := h d.newNick d.incumbentNode homes.new
    rw [← some.inj hroute, ← hnode]
    exact hlands m hm _ (hincumbent m hm hnick hnode) k (congrArg lowerString huid.2.symm)
  split at hroute
  · rename_i hk
    have hland : d.lands mover = some d.newNick := by rw [Displacing.lands, if_pos hold]
    rw [← some.inj hroute, ← (Displacing.isExactOld_identity hold).1]
    exact hlands mover hmover _ hland k (congrArg lowerString hk.symm)
  rename_i hneNew
  split_ifs at hroute with hneOld
  obtain ⟨m, hm, hnick, rfl⟩ := h k n hroute
  cases hland : d.lands m with
  | none => exact ⟨m, hstays m hm hland, hnick, rfl⟩
  | some nick =>
    rw [Displacing.lands] at hland
    split at hland
    · rename_i hexact
      obtain ⟨hnode, hlower⟩ := Displacing.isExactOld_identity hexact
      have hland' : d.lands m = some d.newNick := by rw [Displacing.lands, if_pos hexact]
      rcases hkeepOld k hneOld (hnick.symm.trans hlower) (hnode ▸ hroute) with
        hcase | ⟨x, hx, hxnick, hxnode, hxstays⟩
      · exact hlands m hm _ hland' k (hcase.symm.trans (hlower.symm.trans hnick))
      have hxland : d.lands x = none := by
        have hxin : ¬ d.isIncumbent x = true := fun hin =>
          homes.apart (hxnode.symm.trans (Displacing.isIncumbent_identity hin).1)
        rw [Displacing.lands, if_neg (by simp [hxstays]), if_neg hxin]
      exact ⟨x, hstays x hx hxland, hxnick.trans (hlower.symm.trans hnick), hxnode.trans hnode.symm⟩
    · split at hland
      · rename_i hexact hin
        obtain ⟨hnode, hlower⟩ := Displacing.isIncumbent_identity hin
        have hcase := hkeepNew k hneNew (hnick.symm.trans hlower) (hnode ▸ hroute)
        exact hlands m hm _ (hincumbent m hm hlower hnode) k
          (hcase.symm.trans (hlower.symm.trans hnick))
      · cases hland

end OnyxServer.Undertow
