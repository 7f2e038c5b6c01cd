import OnyxServer.Undertow.ClaimIndex
import OnyxServer.Undertow.Steps

/-!
# The claim index over runs

Every operation keeps the index exact or dirty, whatever allocations fail and however
many nicks there are; so the best claim of a nick is that of the rosters in every state
of every run.
-/
namespace OnyxServer.Undertow

open Lib Text

variable {t t' : RouteTable} {chan : Bytes} {claim : NickClaim} {l r rows rows' : List Member}
  {cur m : Member} {touched : NickKey → Prop}

theorem Raised.congr_right {nick : Bytes} {rows'' : List Member} (h : Raised nick claim rows rows')
    (hrows : ∀ m, m ∈ rows'' ↔ m ∈ rows') : Raised nick claim rows rows'' := by
  have hclaims : ∀ key c, Claims rows'' key c ↔ Claims rows' key c := fun _ _ =>
    exists_congr fun m => and_congr_left' (hrows m)
  constructor
  · exact fun key hkey c => (h.other key hkey c).trans (hclaims key c).symm
  · exact fun key hkey => (hclaims key _).mpr (h.mem key hkey)
  · exact fun key hkey c hc => h.new key hkey c ((hclaims key c).mp hc)
  · exact fun key hkey c hc => (h.kept key hkey c hc).imp_left (hclaims key c).mpr

/-- A row was added. -/
theorem raised_add {new : Member} (hrows : ∀ m, m ∈ rows' ↔ m = new ∨ m ∈ rows) :
    Raised new.nick new.claim rows rows' := by
  have hiff : ∀ key c, Claims rows' key c ↔
      (nickKey new.nick = some key ∧ new.claim = c) ∨ Claims rows key c := by
    intro key c
    simp only [Claims, hrows, or_and_right, exists_or, exists_eq_left]
  constructor
  · intro key hkey c
    rw [hiff]
    exact (or_iff_right fun h => hkey h.1).symm
  · exact fun key hkey => (hiff key _).mpr (.inl ⟨hkey, rfl⟩)
  · exact fun key _ c hc => ((hiff key c).mp hc).imp_left fun h => h.2.symm
  · exact fun key _ c hc => .inl ((hiff key c).mpr (.inr hc))

variable {old new : Member}

/-- A row took a newer claim. -/
theorem raised_replace {base : Member → Prop} (hnick : new.nick = old.nick)
    (hlt : old.claim.priority < new.claim.priority) (hrows : ∀ m, m ∈ rows ↔ m = old ∨ base m)
    (hrows' : ∀ m, m ∈ rows' ↔ m = new ∨ base m) : Raised new.nick new.claim rows rows' := by
  have hiff : ∀ (x : Member) (xs : List Member), (∀ m, m ∈ xs ↔ m = x ∨ base m) → ∀ key c,
      (Claims xs key c ↔ (nickKey x.nick = some key ∧ x.claim = c) ∨
        ∃ m, base m ∧ nickKey m.nick = some key ∧ m.claim = c) := by
    intro x xs hxs key c
    simp only [Claims, hxs, or_and_right, exists_or, exists_eq_left]
  have hbefore := hiff old rows hrows
  have hafter := hiff new rows' hrows'
  constructor
  · intro key hkey c
    rw [hbefore, hafter, hnick]
    rw [hnick] at hkey
    simp [hkey]
  · exact fun key hkey => (hafter key _).mpr (.inl ⟨hkey, rfl⟩)
  · intro key _ c hc
    rcases (hafter key c).mp hc with ⟨-, rfl⟩ | hbase
    · exact .inl rfl
    · exact .inr ((hbefore key c).mpr (.inr hbase))
  · intro key _ c hc
    rcases (hbefore key c).mp hc with ⟨-, rfl⟩ | hbase
    · exact .inr hlt
    · exact .inl ((hafter key c).mpr (.inr hbase))

/-- A row went. -/
theorem sameClaims_drop {old : Member} (hrows : ∀ m, m ∈ rows ↔ m = old ∨ m ∈ rows') :
    SameClaims (fun key => nickKey old.nick = some key) rows rows' := by
  intro key hkey c
  simp only [Claims, hrows, or_and_right, exists_or, exists_eq_left]
  exact or_iff_right fun h => hkey h.1

variable {f : List Member → List Member}

/-- Rosters rewritten one by one, each with the same claims to what is not touched. -/
theorem sameClaims_mapRows (hnil : f [] = [])
    (hf : ∀ list, SameClaims touched list (f list)) :
    SameClaims touched t.rows (t.mapRows f).rows := by
  intro key hkey c
  constructor
  · rintro ⟨m, hm, hmkey, hc⟩
    obtain ⟨chan, hm⟩ := mem_rows.mp hm
    obtain ⟨m', hm', hrest⟩ := (hf _ key hkey c).mp ⟨m, hm, hmkey, hc⟩
    exact ⟨m', (mem_rows_mapRows hnil).mpr ⟨chan, hm'⟩, hrest⟩
  · rintro ⟨m, hm, hmkey, hc⟩
    obtain ⟨chan, hm⟩ := (mem_rows_mapRows hnil).mp hm
    obtain ⟨m', hm', hrest⟩ := (hf _ key hkey c).mpr ⟨m, hm, hmkey, hc⟩
    exact ⟨m', mem_rows.mpr ⟨chan, hm'⟩, hrest⟩

/-- Rows rewritten one by one: a row that moves leaves and enters touched keys only. -/
theorem sameClaims_map {g : Member → Member} (list : List Member)
    (hg : ∀ m, (g m).claim = m.claim ∧ ((g m).nick = m.nick ∨
      (∀ key, nickKey m.nick = some key → touched key) ∧
        ∀ key, nickKey (g m).nick = some key → touched key)) :
    SameClaims touched list (list.map g) := by
  intro key hkey c
  simp only [Claims, List.mem_map, exists_exists_and_eq_and]
  refine exists_congr fun m => and_congr_right fun _ => ?_
  obtain ⟨hclaim, hnick | ⟨hout, hin⟩⟩ := hg m
  · rw [hclaim, hnick]
  · rw [hclaim]
    exact ⟨fun h => absurd (hout key h.1) hkey, fun h => absurd (hin key h.1) hkey⟩

theorem sameClaims_set (hclaim : new.claim = old.claim)
    (hnick : new.nick = old.nick ∨ (∀ key, nickKey old.nick = some key → touched key) ∧
      ∀ key, nickKey new.nick = some key → touched key) :
    SameClaims touched (l ++ old :: r) (l ++ new :: r) := by
  intro key hkey c
  simp only [Claims, mem_split, or_and_right, exists_or, exists_eq_left, hclaim]
  refine or_congr_left ?_
  rcases hnick with hnick | ⟨hout, hin⟩
  · rw [hnick]
  · exact ⟨fun h => absurd (hout key h.1) hkey, fun h => absurd (hin key h.1) hkey⟩

theorem IndexOk.untouch (h : IndexOk touched t) (hnone : ∀ key, ¬ touched key) : Exact t :=
  h.mono fun key hkey => hnone key hkey

theorem Exact.index (h : Exact t) (new : Member) (a : ApplyAllocs)
    (hclaims : t'.bestNickClaims = t.bestNickClaims)
    (hdirty : t'.claimIndexDirty = t.claimIndexDirty)
    (hraised : Raised new.nick new.claim t.rows t'.rows) :
    Exact (t'.indexNick new.nick new.node new.hlc a) := by
  have hframe := setNickLocation_frame t' new.nick new.node a.route
  exact h.note (hframe.claims.trans hclaims) (hframe.dirty.trans hdirty)
    (hraised.congr_right (mem_rows_congr (roster_congr hframe.members))) a.index

theorem Exact.dropped (h : Exact t) (hroster : t.channelMembersOf chan = l ++ cur :: r) :
    IndexOk (fun key => nickKey cur.nick = some key)
      (t.setRoster chan (swapRemove (l ++ cur :: r) l.length)) := by
  have hrows : SameClaims (fun key => nickKey cur.nick = some key) t.rows
      (t.setRoster chan (swapRemove (l ++ cur :: r) l.length)).rows := by
    refine sameClaims_drop fun m => ?_
    rw [mem_rows_setRoster, (swapRemove_perm l r cur).mem_iff, mem_rows_of_roster hroster]
  exact (h.changed (by rfl) (by rfl) hrows).mono fun key hkey => hkey.resolve_left id

theorem Exact.partRow (h : Exact t) (hroster : t.channelMembersOf chan = l ++ cur :: r)
    (index : Bool) : Exact (t.partRow chan (l ++ cur :: r) l.length cur.nick index) := by
  have hdrop := (h.dropped hroster).alike (pruneIfEmpty_frame _ chan)
  rw [RouteTable.partRow]
  have hunrouted : ∀ gone : Prop, [Decidable gone] →
      IndexOk (fun key => nickKey cur.nick = some key)
      (if gone then ((t.dropRow chan (l ++ cur :: r) l.length).removeNick cur.nick).2
        else t.dropRow chan (l ++ cur :: r) l.length) := by
    intro gone _
    split
    · exact hdrop.routes (removeNick_frame _ _)
    · exact hdrop
  exact ((hunrouted _).reselectNick cur.nick index).untouch fun key hkey => hkey.2 hkey.1

theorem lower_priority (h : old.hlc < new.hlc) :
    old.claim.priority < new.claim.priority :=
  Prod.Lex.toLex_lt_toLex.mpr (.inl h)

theorem Exact.memberStep (h : Exact t) {loserUid : NodeId → Bytes → Bytes} {m : Membership}
    {a : ApplyAllocs} (hstep : MemberStep loserUid t m a t') : Exact t' := by
  cases hstep with
  | same halike => exact h.alike halike
  | refreshed hroster halike =>
    have hrows : SameClaims (fun _ => False) t.rows t'.rows := by
      intro key _ c
      simp only [Claims, mem_rows_congr halike.roster, mem_rows_setRoster, mem_split,
        mem_rows_of_roster hroster, or_assoc, or_and_right, exists_or, exists_eq_left]
      exact Iff.rfl
    exact (h.changed halike.claims halike.dirty hrows).untouch fun key hkey => hkey.elim id id
  | updated _ _ hroster _ hnick hnewer halike =>
    refine Exact.index h m.row a halike.claims halike.dirty
      (raised_replace hnick.symm (lower_priority hnewer) (fun x => mem_rows_of_roster hroster)
        fun x => ?_)
    rw [mem_rows_congr halike.roster, mem_rows_setRoster, mem_split, or_assoc]
  | joined _ _ _ halike =>
    refine Exact.index h m.row a halike.claims halike.dirty (raised_add fun x => ?_)
    rw [mem_rows_congr halike.roster, mem_rows_setRoster, mem_rows_split m.chan, List.mem_append,
      List.mem_singleton, or_assoc, or_left_comm]
  | parted _ _ hroster _ _ _ halike =>
    exact Exact.partRow (h.alike halike) ((halike.roster _).trans hroster) a.index

theorem Exact.commitWinningJoin (h : Exact t) (prepared : PreparedWinningJoin) (index : Bool) :
    Exact (t.commitWinningJoin prepared index) := by
  have hframe := clearPartTombstone_frame (t.setRoster prepared.channel
    (t.channelMembersOf prepared.channel ++ [prepared.row])) prepared.channel prepared.row.nick
    prepared.row.node
  rw [RouteTable.commitWinningJoin]
  refine Exact.note h ?_ ?_ ?_ index
  · exact hframe.claims
  · exact hframe.dirty
  · refine raised_add fun x => (mem_rows_congr hframe.roster x).trans ?_
    rw [mem_rows_setRoster, mem_rows_split prepared.channel, List.mem_append,
      List.mem_singleton, or_assoc, or_left_comm]

theorem departStale_exact (t : RouteTable) (n : Nat) (i : Nat) :
    Exact (t.departStale n chan l i m) := by
  rw [RouteTable.departStale]
  refine .inl ?_
  simp only [RouteTable.setRoster]
  split
  · exact (removeNick_frame _ _).dirty
  · rfl

theorem Exact.pruneStaleObserved (h : Exact t) (nowMs windowMs : Int) (announced : Nat → Bool)
    (a : RouteTable.PruneAllocs) : Exact (t.pruneStaleObserved nowMs windowMs announced a).2 :=
  pruneStaleObserved_invariant (P := Exact) (Q := Exact)
    (fun t n _ l _ _ _ _ _ => departStale_exact t n l.length) (fun _ ht _ => ht)
    (fun _ _ hframe ht => ht.alike hframe) (fun _ alloc ht => ht.rebuildIfDirty alloc) t h

theorem Exact.departRetired (h : Exact t) (hroster : t.channelMembersOf chan = l ++ m :: r)
    (a : ReconcileAllocs) (n : Nat) :
    Exact (t.departRetired a n chan (l ++ m :: r) l.length m) := by
  have hframe : ∀ gone : Bool, RoutesOnly t (if gone then (t.removeNick m.nick).2 else t) := by
    intro gone
    split
    · exact removeNick_frame t m.nick
    · exact .refl t
  have hdrop := fun gone => Exact.dropped (h.routes (hframe gone))
    ((roster_congr (hframe gone).members chan).trans hroster)
  rw [RouteTable.departRetired]
  generalize (decide (t.memberNickOccurrences m.nick = 1) ||
    decide (t.nickNode m.nick = some m.node)) = gone
  replace hdrop := hdrop gone
  generalize (if gone = true then (t.removeNick m.nick).2 else t).setRoster chan
    (swapRemove (l ++ m :: r) l.length) = dropped at hdrop ⊢
  split
  · rename_i hkey
    exact hdrop.untouch fun key hk => by simp [hkey] at hk
  rename_i key hkey
  have hselected : Exact (dropped.reselectBestNickKey key (a.index n)) := by
    refine (hdrop.reselect key (a.index n)).untouch fun k hk => hk.2 ?_
    exact (Option.some.inj (hkey.symm.trans hk.1)).symm
  generalize dropped.reselectBestNickKey key (a.index n) = reselected at hselected ⊢
  simp only
  split
  · split
    · exact hselected
    · exact hselected.routes (setNickLocation_frame _ _ _ _)
  · exact hselected

theorem nickKey_congr {nick nick' : Bytes} (h : eqlIgnoreCase nick nick' = true) :
    nickKey nick = nickKey nick' := by
  have hlower := eqlIgnoreCase_iff.mp h
  have hlength : nick.length = nick'.length := by
    rw [← lowerString_length nick, hlower, lowerString_length]
  rw [nickKey, nickKey, hlength, hlower]

theorem Exact.mapRows (h : Exact t) (hroutes : RoutesOnly t t')
    (hnil : f [] = []) (hf : ∀ list, SameClaims touched list (f list)) :
    IndexOk touched (t'.mapRows f) :=
  ((h.routes hroutes).changed (by rfl) (by rfl) (sameClaims_mapRows hnil hf)).mono
    fun _ hkey => hkey.resolve_left id

theorem Exact.applyRename (h : Exact t) (old new : Bytes) (node : NodeId) (ident : MemberIdentity) :
    Exact (t.applyRename old new node ident) := by
  rw [RouteTable.applyRename]
  have hroutes :
      RoutesOnly t (if (t.nickNode old).isSome then t.moveRoute old new node else t) := by
    split
    · exact ⟨rfl, rfl, rfl, rfl⟩
    · exact .refl t
  have hmoved : IndexOk (fun key => nickKey old = some key ∨ nickKey new = some key)
      ((if (t.nickNode old).isSome then t.moveRoute old new node else t).mapRows
        (renamePlanned old new node ident)) := by
    refine h.mapRows hroutes rfl fun list => ?_
    rw [renamePlanned]
    split
    · rename_i i member hplanned
      obtain ⟨hfound, -⟩ := Option.filter_eq_some_iff.mp hplanned
      obtain ⟨l, r, rfl, rfl, rfl, -⟩ := findRow_some hfound
      rw [set_split]
      exact sameClaims_set rfl (.inr ⟨fun key => .inl, fun key => .inr⟩)
    · exact sameClaims_of_mem fun _ => Iff.rfl
  exact (hmoved.reselectTwo old new true true).untouch fun key hkey => hkey.1.elim hkey.2.1 hkey.2.2

theorem Exact.applySession (h : Exact t) (s : SessionRename) (a : SessionAllocs) :
    Exact (t.applySession s a) := by
  have hmoved : IndexOk (fun key => nickKey s.oldNick = some key ∨ nickKey s.newNick = some key)
      ((t.sessionRoutes s).mapRows (·.map s.moved)) := by
    refine h.mapRows ⟨rfl, rfl, rfl, rfl⟩ rfl fun list => sameClaims_map list fun x => ?_
    rw [SessionRename.moved]
    split
    · rename_i htakes
      have hold : nickKey x.nick = nickKey s.oldNick := by
        refine nickKey_congr ?_
        simp only [SessionRename.takes, SessionRename.sameIdentity, Bool.and_eq_true] at htakes
        exact htakes.1.2
      rw [hold]
      have hnew : ∀ y : Member, y.nick = s.newNick → ∀ key, nickKey y.nick = some key →
          nickKey s.oldNick = some key ∨ nickKey s.newNick = some key :=
        fun y hy key hkey => .inr (hy ▸ hkey)
      extract_lets bound
      have hbound : bound.claim = x.claim ∧ bound.nick = s.newNick := by
        simp only [bound]
        split <;> exact ⟨rfl, rfl⟩
      split
      · exact ⟨hbound.1, .inr ⟨fun key => .inl, hnew _ hbound.2⟩⟩
      · exact ⟨hbound.1, .inr ⟨fun key => .inl, hnew _ rfl⟩⟩
    · exact ⟨rfl, .inl rfl⟩
  exact (hmoved.reselectTwo s.oldNick s.newNick a.index a.indexNew).untouch
    fun key hkey => hkey.1.elim hkey.2.1 hkey.2.2

theorem Exact.applyDisplacing (h : Exact t) (d : Displacing) : Exact (t.applyDisplacing d) := by
  have hmoved : IndexOk (fun key => nickKey d.oldNick = some key ∨ nickKey d.newNick = some key ∨
      nickKey d.incumbentUid = some key) ((t.displaceRoutes d).mapRows (·.map d.moved)) := by
    refine h.mapRows ⟨rfl, rfl, rfl, rfl⟩ rfl fun list => sameClaims_map list fun x => ?_
    have hsame : ∀ wanted, d.sameNick x.nick wanted = true → nickKey x.nick = nickKey wanted := by
      intro wanted hwanted
      rw [Displacing.sameNick] at hwanted
      split at hwanted
      · exact nickKey_congr hwanted
      · rw [of_decide_eq_true hwanted]
    rw [Displacing.moved]
    split
    · rename_i hold
      rw [Displacing.isExactOld, Bool.and_eq_true] at hold
      rw [hsame _ hold.2]
      split
      · exact ⟨rfl, .inr ⟨fun key => .inl, fun key hkey => .inr (.inl hkey)⟩⟩
      · exact ⟨rfl, .inr ⟨fun key => .inl, fun key hkey => .inr (.inl hkey)⟩⟩
    · split
      · rename_i hincumbent
        rw [Displacing.isIncumbent, Bool.and_eq_true] at hincumbent
        rw [hsame _ hincumbent.2]
        exact ⟨rfl, .inr ⟨fun key hkey => .inr (.inl hkey), fun key hkey => .inr (.inr hkey)⟩⟩
      · exact ⟨rfl, .inl rfl⟩
  refine (((hmoved.reselectNick d.oldNick true).reselectNick d.newNick true).reselectNick
    d.incumbentUid true).untouch ?_
  rintro key ⟨⟨⟨hold | hnew | huid, hnold⟩, hnnew⟩, hnuid⟩
  · exact hnold hold
  · exact hnnew hnew
  · exact hnuid huid

theorem Exact.rebindSessionToken (h : Exact t) (loserUid : NodeId → Bytes → Bytes) (node : NodeId)
    (wireNick : Bytes) (token : Option SessionToken) :
    Exact (t.rebindSessionToken loserUid node wireNick token).2 := by
  rw [RouteTable.rebindSessionToken]
  split
  · exact h
  · exact h
  · refine (h.mapRows (.refl t) rfl fun list => sameClaims_map list fun x => ?_).untouch
      fun _ => id
    simp only
    split <;> exact ⟨rfl, .inl rfl⟩

theorem Exact.reconcileSessionTokenObserved (h : Exact t) (loserUid : NodeId → Bytes → Bytes)
    (s : Reconcile) (a : ReconcileAllocs) :
    Exact (t.reconcileSessionTokenObserved loserUid s a).2 :=
  reconcile_invariant loserUid (P := Exact) (Q := Exact)
    (fun _ _ _ _ _ _ ht _ _ => Exact.applySession ht _ _) (fun _ => id)
    (fun _ n _ _ _ _ ht hroster _ => Exact.departRetired ht hroster a n)
    (fun _ _ halike ht => ht.alike halike) t h fun _ => h

theorem exact_empty (cfg : Config) : Exact (RouteTable.empty cfg) :=
  .inr fun _ _ => rfl

theorem Exact.rehash (h : Exact t) (members : HashMap Bytes (List Member)) :
    Exact (t.rehash members) := by
  rw [RouteTable.rehash]
  split
  · rename_i hperm
    exact h.same (by rfl) (by rfl) fun m => (hperm.flatMap_right _).mem_iff.symm
  · exact h

theorem Exact.tableStep (h : Exact t) (loserUid : NodeId → Bytes → Bytes) (op : Op) :
    Exact (tableStep loserUid t op).2 := by
  cases op with
  | rehash members => exact h.rehash members
  | setNickLocation nick node alloc =>
      exact IndexOk.routes h (setNickLocation_frame t nick node alloc)
  | removeNick nick => exact IndexOk.routes h (removeNick_frame t nick)
  | clear => exact exact_empty t.cfg
  | addChannelMember chan node alloc => exact h.alike (addChannelMember_frame t chan node alloc)
  | removeChannelMember chan node => exact h.alike (removeChannelMember_frame t chan node)
  | setChannelNodePresence chan node present alloc =>
    exact h.alike (setChannelNodePresence_frame t chan node present alloc)
  | applyFact op => exact h.alike (applyFact_frame t op)
  | applyMembership m preparer a =>
      exact h.memberStep (applyMembership_step loserUid t m preparer a)
  | prepareWinningJoin => exact h
  | commitWinningJoin => exact h
  | abandonWinningJoin => exact h
  | renameNick old new node ident copies plans =>
    rcases renameNick_step t old new node ident copies plans with heq | ⟨-, heq⟩
    · exact heq.symm ▸ h
    · exact heq.symm ▸ h.applyRename old new node ident
  | renameNickDisplacing d staged reserved =>
    rcases renameNickDisplacing_step t d staged reserved with heq | ⟨-, heq⟩
    · exact heq.symm ▸ h
    · exact heq.symm ▸ h.applyDisplacing d
  | renameNickBindingSessionToken node old new token ident a =>
    rcases renameSessionTokenRows_step t ⟨token, node, old, new, some ident, true⟩ a with
      ⟨answer, -, heq⟩ | ⟨-, heq⟩
    · exact (congrArg Prod.snd heq).symm ▸ h
    · exact (congrArg Prod.snd heq).symm ▸ h.applySession _ a
  | rebindSessionToken node wireNick token =>
      exact h.rebindSessionToken loserUid node wireNick token
  | reconcileSessionToken r a => exact h.reconcileSessionTokenObserved loserUid r a
  | pruneStale nowMs windowMs announced a => exact h.pruneStaleObserved nowMs windowMs announced a
  | removeNode node a => exact exact_rebuild _ a.rebuild

theorem Exact.step {s : System} (h : Exact s.table) (loserUid : NodeId → Bytes → Bytes) (op : Op) :
    Exact (step loserUid s op).2.table := by
  rcases step_table loserUid s op with halike | ⟨index, prepared, -, -, -, heq⟩ | heq
  · exact IndexOk.alike h halike
  · exact heq.symm ▸ h.commitWinningJoin prepared index
  · exact heq.symm ▸ h.tableStep loserUid op

/-- In every state of every run the best claim of a nick is the highest that a row makes
to it, ignoring case, and there is none when no row has the nick. -/
theorem best_claim_is_scanned (loserUid : NodeId → Bytes → Bytes) (cfg : Config) (ops : List Op)
    (nick : Bytes) :
    let table := (final (step loserUid) (System.init cfg) ops).table
    (∀ claim, table.bestNickClaim nick = some claim ↔
      Latest NickClaim.priority (ClaimsNick table.rows nick) claim) ∧
    (table.bestNickClaim nick = none ↔
      ∀ m ∈ table.rows, lowerString m.nick ≠ lowerString nick) := by
  intro table
  have hexact : Exact table := final_invariant (P := fun s : System => Exact s.table)
    (fun s op h => h.step loserUid op) (exact_empty cfg) ops
  rw [hexact.bestNickClaim_eq nick, projected_none]
  refine ⟨fun claim => projected_some nick, ?_⟩
  constructor
  · exact fun h m hm hnick => h m.claim ⟨m, hm, hnick, rfl⟩
  · rintro h claim ⟨m, hm, hnick, -⟩
    exact h m hm hnick

end OnyxServer.Undertow
