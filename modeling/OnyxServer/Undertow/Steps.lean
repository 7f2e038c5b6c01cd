import OnyxServer.Undertow.Rows

/-!
# What one operation can do

For the operations with many branches, the cases that are left once tables that are alike
are not told apart. Every invariant of the rosters, the routes and the index is derived
from these.
-/
namespace OnyxServer.Undertow

open Lib Text

variable (loserUid : NodeId → Bytes → Bytes) {t t' : RouteTable} {list : List Member}

/-- The row of the node that a roster holds under the loser's name. -/
def loserRow (m : Membership) (list : List Member) : Option (Nat × Member) :=
  (findRow list (loserUid m.node m.nick)).filter fun (_, cur) => decide (cur.node = m.node)

/-- The row that a part of the member takes out of the roster. -/
def partedRow (m : Membership) (list : List Member) : Option (Nat × Member) :=
  match findRow list m.nick with
  | some (i, cur) => if cur.node = m.node then some (i, cur) else loserRow loserUid m list
  | none => loserRow loserUid m list

/-- The cases of a membership event. -/
inductive MemberStep (t : RouteTable) (m : Membership) (a : ApplyAllocs) : RouteTable → Prop
  | same {t' : RouteTable} (h : Alike t t') : MemberStep t m a t'
  | refreshed {t' : RouteTable} {l r : List Member} {cur : Member}
      (hroster : t.channelMembersOf m.chan = l ++ cur :: r)
      (h : Alike (t.setRoster m.chan (l ++ { cur with lastRefreshedMs := m.nowMs } :: r)) t') :
      MemberStep t m a t'
  | updated {u : RouteTable} {l r : List Member} {cur : Member}
      (hvalid : t.validateMembership m.chan m.nick m.node = .ok ()) (hpresent : m.present = true)
      (hroster : t.channelMembersOf m.chan = l ++ cur :: r)
      (hrow : findRow (l ++ cur :: r) m.nick = some (l.length, cur)) (hnick : cur.nick = m.nick)
      (hnewer : cur.hlc < m.hlc) (h : Alike (t.setRoster m.chan (l ++ m.row :: r)) u) :
      MemberStep t m a (u.indexNick m.nick m.node m.hlc a)
  | joined {u : RouteTable} (hvalid : t.validateMembership m.chan m.nick m.node = .ok ())
      (hpresent : m.present = true) (hnew : ∀ e ∈ t.channelMembersOf m.chan, e.nick ≠ m.nick)
      (h : Alike (t.setRoster m.chan (t.channelMembersOf m.chan ++ [m.row])) u) :
      MemberStep t m a (u.indexNick m.nick m.node m.hlc a)
  | parted {u : RouteTable} {l r : List Member} {cur : Member}
      (hvalid : t.validateMembership m.chan m.nick m.node = .ok ()) (hpresent : m.present = false)
      (hroster : t.channelMembersOf m.chan = l ++ cur :: r)
      (hrow : partedRow loserUid m (l ++ cur :: r) = some (l.length, cur))
      (hnode : cur.node = m.node) (hnewer : cur.hlc < m.hlc) (h : Alike t u) :
      MemberStep t m a (u.partRow m.chan (l ++ cur :: r) l.length cur.nick a.index)

variable {loserUid} {m : Membership} {a : ApplyAllocs}

/-- An event on a table that is alike is an event on the table. -/
theorem MemberStep.of_alike {u : RouteTable} (h : Alike t u)
    (hstep : MemberStep loserUid u m a t') :
    MemberStep loserUid t m a t' := by
  have hvalid : u.validateMembership m.chan m.nick m.node =
      t.validateMembership m.chan m.nick m.node := by
    simp only [RouteTable.validateMembership, RouteTable.validateName, h.cfg]
  cases hstep with
  | same h' => exact .same (h.trans h')
  | refreshed hroster h' =>
    exact .refreshed ((h.roster _).symm.trans hroster) ((h.setRoster _ _).trans h')
  | updated hv hpresent hroster hrow hnick hnewer h' =>
    exact .updated (hvalid ▸ hv) hpresent ((h.roster _).symm.trans hroster) hrow hnick hnewer
      ((h.setRoster _ _).trans h')
  | joined hv hpresent hnew h' =>
    rw [h.roster] at hnew h'
    exact .joined (hvalid ▸ hv) hpresent hnew ((h.setRoster _ _).trans h')
  | parted hv hpresent hroster hrow hnode hnewer h' =>
    exact .parted (hvalid ▸ hv) hpresent ((h.roster _).symm.trans hroster) hrow hnode hnewer
      (h.trans h')

theorem notePart_alike {chan nick : Bytes} {node : NodeId} {hlc : UInt64} {nowMs : Int}
    {ensure alloc : Bool} {answer : Except Error Unit}
    (h : t.notePartTombstone chan nick node hlc nowMs ensure alloc = (answer, t')) :
    Alike t t' := by
  have hframe := notePartTombstone_frame t chan nick node hlc nowMs ensure alloc
  rwa [h] at hframe

section

variable (hvalid : t.validateMembership m.chan m.nick m.node = .ok ())
include hvalid

/-- A part of the row that was found, under the name it is stored under. -/
theorem applyKnown_part (hpresent : m.present = false) {l r : List Member} {cur : Member}
    (hroster : t.channelMembersOf m.chan = l ++ cur :: r)
    (hrow : partedRow loserUid m (l ++ cur :: r) = some (l.length, cur))
    (hnode : cur.node = m.node) (preparer : Option MembershipIdentityPreparer) :
    MemberStep loserUid t m a
      (t.applyKnown { m with nick := cur.nick } (l ++ cur :: r) l.length cur preparer a).2 := by
  simp only [RouteTable.applyKnown, hpresent]
  split
  · exact .same (.refl t)
  rename_i hnewer
  rw [if_neg Bool.false_ne_true]
  split
  · rename_i hnote
    exact .same (notePart_alike hnote)
  · rename_i hnote
    exact .parted hvalid hpresent hroster hrow hnode (UInt64.not_le.mp hnewer)
      (notePart_alike hnote)

theorem applyKnown_join (hpresent : m.present = true) {l r : List Member} {cur : Member}
    (hroster : t.channelMembersOf m.chan = l ++ cur :: r)
    (hrow : findRow (l ++ cur :: r) m.nick = some (l.length, cur)) (hnick : cur.nick = m.nick)
    (preparer : Option MembershipIdentityPreparer) :
    MemberStep loserUid t m a (t.applyKnown m (l ++ cur :: r) l.length cur preparer a).2 := by
  simp only [RouteTable.applyKnown, hpresent, set_split]
  split
  · exact .refreshed hroster (.refl _)
  rename_i hnewer
  rw [if_pos trivial]
  split
  · exact .same (.refl t)
  split
  · exact .same (.refl t)
  · rw [hnick]
    exact .updated hvalid hpresent hroster hrow hnick (UInt64.not_le.mp hnewer)
      (clearPartTombstone_frame _ _ _ _)

theorem applyFreshJoin_step
    (hpresent : m.present = true) (hnew : findRow (t.channelMembersOf m.chan) m.nick = none) :
    MemberStep loserUid t m a (t.applyFreshJoin m (t.channelMembersOf m.chan) a).2 := by
  rw [RouteTable.applyFreshJoin]
  split
  · exact .same (.refl t)
  split
  · exact .same (.refl t)
  · split
    · exact .same (.refl t)
    · exact .joined hvalid hpresent (findRow_none hnew) (clearPartTombstone_frame _ _ _ _)

end

theorem noteUnknownPart_step :
    MemberStep loserUid t m a (t.noteUnknownPart m a).2 := by
  rw [RouteTable.noteUnknownPart]
  split
  · rename_i hnote
    exact .same (notePart_alike hnote)
  · rename_i hnote
    exact .same ((notePart_alike hnote).trans (pruneIfEmpty_frame _ _))

theorem noteForeignPart_step :
    MemberStep loserUid t m a (t.noteForeignPart m a).2 := by
  rw [RouteTable.noteForeignPart]
  split <;> rename_i hnote <;> exact .same (notePart_alike hnote)

section

variable (hvalid : t.validateMembership m.chan m.nick m.node = .ok ())
    (hpresent : m.present = false)
variable (hparted : partedRow loserUid m (t.channelMembersOf m.chan) =
    loserRow loserUid m (t.channelMembersOf m.chan))
include hvalid hpresent hparted

theorem applyPartUnknown_step :
    MemberStep loserUid t m a
      (t.applyPartUnknown loserUid m (t.channelMembersOf m.chan) a).2 := by
  rw [RouteTable.applyPartUnknown]
  cases hfound : findRow (t.channelMembersOf m.chan) (loserUid m.node m.nick) with
  | none => exact noteUnknownPart_step
  | some found =>
    obtain ⟨i, cur⟩ := found
    simp only
    split
    · rename_i hnode
      obtain ⟨l, r, hroster, rfl, hnick, -⟩ := findRow_some hfound
      have hrow : partedRow loserUid m (l ++ cur :: r) = some (l.length, cur) := by
        rw [← hroster, hparted, loserRow, hfound]
        simp [Option.filter, hnode]
      split
      · exact .same (.refl t)
      rename_i hnewer
      split
      · rename_i hnote
        exact .same (notePart_alike hnote)
      rename_i hnote
      split
      · rename_i hnote'
        exact .same ((notePart_alike hnote).trans (notePart_alike hnote'))
      rename_i hnote'
      rw [hroster, ← hnick]
      exact .parted hvalid hpresent hroster hrow hnode (UInt64.not_le.mp hnewer)
        ((notePart_alike hnote).trans (notePart_alike hnote'))
    · exact noteUnknownPart_step

theorem applyForeignPart_step :
    MemberStep loserUid t m a
      (t.applyForeignPart loserUid m (t.channelMembersOf m.chan) a).2 := by
  rw [RouteTable.applyForeignPart]
  cases hfound : findRow (t.channelMembersOf m.chan) (loserUid m.node m.nick) with
  | none => exact noteForeignPart_step
  | some found =>
    obtain ⟨i, cur⟩ := found
    simp only
    split
    · rename_i hnode
      obtain ⟨l, r, hroster, rfl, hnick, -⟩ := findRow_some hfound
      have hrow : partedRow loserUid m (l ++ cur :: r) = some (l.length, cur) := by
        rw [← hroster, hparted, loserRow, hfound]
        simp [Option.filter, hnode]
      split
      · exact .same (.refl t)
      · rw [hroster, ← hnick]
        exact applyKnown_part hvalid hpresent hroster hrow hnode none
    · exact noteForeignPart_step

end

theorem applyMembership_step (loserUid : NodeId → Bytes → Bytes) (t : RouteTable) (m : Membership)
    (preparer : Option MembershipIdentityPreparer) (a : ApplyAllocs) :
    MemberStep loserUid t m a (t.applyMembership loserUid m preparer a).2 := by
  rw [RouteTable.applyMembership]
  split
  · exact .same (.refl t)
  rename_i hvalid
  rcases ensureMemberList_spec t m.chan a.list with ⟨e, heq⟩ | ⟨u, heq, hu⟩
  · rw [heq]
    exact .same (.refl t)
  rw [heq]
  refine .of_alike hu ?_
  have hvalid' : u.validateMembership m.chan m.nick m.node = .ok () := by
    rw [← hvalid]
    simp only [RouteTable.validateMembership, RouteTable.validateName, hu.cfg]
  rw [← hu.roster]
  simp only
  cases hfound : findRow (u.channelMembersOf m.chan) m.nick with
  | none =>
    have hparted : partedRow loserUid m (u.channelMembersOf m.chan) =
        loserRow loserUid m (u.channelMembersOf m.chan) := by rw [partedRow, hfound]
    simp only
    split
    · rename_i hpresent
      exact applyFreshJoin_step hvalid' hpresent hfound
    · rename_i hpresent
      exact applyPartUnknown_step hvalid' (Bool.not_eq_true _ ▸ hpresent) hparted
  | some found =>
    obtain ⟨i, cur⟩ := found
    obtain ⟨l, r, hroster, rfl, hnick, -⟩ := findRow_some hfound
    simp only
    split
    · rename_i hforeign
      obtain ⟨hpresent, hnode⟩ : m.present = false ∧ cur.node ≠ m.node := by
        simpa using hforeign
      refine applyForeignPart_step hvalid' hpresent ?_
      rw [partedRow, hfound]
      exact if_neg hnode
    · rename_i hown
      rw [hroster] at hfound ⊢
      cases hpresent : m.present with
      | true => exact applyKnown_join hvalid' hpresent hroster hfound hnick preparer
      | false =>
        have hnode : cur.node = m.node := by simpa [hpresent] using hown
        have hrow : partedRow loserUid m (l ++ cur :: r) = some (l.length, cur) := by
          rw [partedRow, hfound]
          exact if_pos hnode
        have hpart := applyKnown_part (a := a) hvalid' hpresent hroster hrow hnode preparer
        rwa [hnick] at hpart

theorem prepareWinningJoin_alike (t : RouteTable) (m : Membership) (incumbentUid : Bytes)
    (list row : Bool) : Alike t (t.prepareWinningJoin m incumbentUid list row).2 := by
  rw [RouteTable.prepareWinningJoin]
  split
  · exact .refl t
  split
  · exact .refl t
  rcases ensureMemberList_spec t m.chan list with ⟨e, heq⟩ | ⟨u, heq, hu⟩
  · rw [heq]
    exact .refl t
  rw [heq]
  have hunwound : Alike t
      (if (t.channelMembers.lookup m.chan).isNone then u.pruneIfEmpty m.chan else u) := by
    split
    · exact hu.trans (pruneIfEmpty_frame u m.chan)
    · exact hu
  simp only
  split
  · exact hunwound
  split
  · exact hunwound
  · split
    · exact hunwound
    · exact hu

theorem abandonWinningJoin_alike (t : RouteTable) (prepared : PreparedWinningJoin) :
    Alike t (t.abandonWinningJoin prepared) := by
  rw [RouteTable.abandonWinningJoin]
  split
  · exact pruneIfEmpty_frame t _
  · exact .refl t

/-- What the departures of a sweep keep, the sweep keeps; it ends without stale rows when
every departure can be announced. -/
theorem pruneStaleObserved_invariant {P Q : RouteTable → Prop} {nowMs windowMs : Int}
    {announced : Nat → Bool} {a : RouteTable.PruneAllocs}
    (hdepart : ∀ t n chan l m r, P t → t.channelMembersOf chan = l ++ m :: r →
      isStale nowMs windowMs m = true → P (t.departStale n chan (l ++ m :: r) l.length m))
    (hend : ∀ t, P t → ((∀ i, announced i = true) → ∀ m ∈ t.rows,
      isStale nowMs windowMs m = false) → Q t)
    (halike : ∀ t t', Alike t t' → Q t → Q t')
    (hindex : ∀ t alloc, Q t → Q (t.rebuildIfDirty alloc))
    (t : RouteTable) (h : P t) : Q (t.pruneStaleObserved nowMs windowMs announced a).2 := by
  have hsweep := sweep_invariant (fun _ _ member => isStale nowMs windowMs member) announced
    RouteTable.departStale hdepart t.channelMembers.keys 0 t h
  have hdone := fun hannounced => sweep_done (fun _ _ member => isStale nowMs windowMs member)
    announced RouteTable.departStale (fun _ _ _ => rfl) hannounced roster_departStale
    t.channelMembers.keys 0 t fun chan hchan => by
      rw [RouteTable.channelMembersOf, AList.lookup_eq_none.mpr hchan]
      exact fun _ hm => absurd hm List.not_mem_nil
  rw [RouteTable.pruneStaleObserved]
  rcases hrun : sweep (fun _ _ member => isStale nowMs windowMs member) announced
    RouteTable.departStale t.channelMembers.keys 0 t with ⟨completed, pruned, u⟩
  rw [hrun] at hsweep hdone
  have hrebuilt := hindex _ a.rebuild (halike u _ (pruneEmpty_frame u) (hend u hsweep hdone))
  simp only
  split
  · exact hrebuilt
  · exact hindex _ a.retry (halike _ _ (sweepTombs_frame _ _ _) hrebuilt)

/-- A rename that goes through where memory lasts. -/
structure RenameGoes (t : RouteTable) (old new : Bytes) (node : NodeId) : Prop where
  valid : t.validateName new = .ok ()
  fits : t.refusesRename old new node = false
  moves : t.nothingMoves old node = false

theorem renameNick_step (t : RouteTable) (old new : Bytes) (node : NodeId) (ident : MemberIdentity)
    (copies plans : Bool) :
    (t.renameNick old new node ident copies plans).2 = t ∨
      RenameGoes t old new node ∧
        (t.renameNick old new node ident copies plans).2 = t.applyRename old new node ident := by
  rw [RouteTable.renameNick]
  split
  · exact .inl rfl
  rename_i hvalid
  split_ifs with hrefused hcopies hnothing hplans
  · exact .inl rfl
  · exact .inl rfl
  · exact .inl rfl
  · exact .inl rfl
  · exact .inr ⟨⟨hvalid, Bool.not_eq_true _ ▸ hrefused, Bool.not_eq_true _ ▸ hnothing⟩, rfl⟩

structure DisplacingGoes (t : RouteTable) (d : Displacing) : Prop where
  valid : t.validateDisplacing d = .ok ()
  fits : t.refusesDisplacing d = false
  room : t.projectedCount d ≤ t.cfg.maxNicks

theorem renameNickDisplacing_step (t : RouteTable) (d : Displacing) (staged reserved : Bool) :
    (t.renameNickDisplacing d staged reserved).2 = t ∨
      DisplacingGoes t d ∧ (t.renameNickDisplacing d staged reserved).2 = t.applyDisplacing d := by
  rw [RouteTable.renameNickDisplacing]
  split
  · exact .inl rfl
  rename_i hvalid
  split_ifs with hrefused hstaged hfull hreserved
  · exact .inl rfl
  · exact .inl rfl
  · exact .inl rfl
  · exact .inl rfl
  · exact .inr ⟨⟨hvalid, Bool.not_eq_true _ ▸ hrefused, Nat.not_lt.mp hfull⟩, rfl⟩

structure SessionGoes (t : RouteTable) (r : SessionRename) : Prop where
  valid : t.validateName r.newNick = .ok ()
  fits : t.refusesSession r = false
  free : (t.nickNode r.newNick).any (· != r.node) = false

theorem renameSessionTokenRows_step (t : RouteTable) (r : SessionRename) (a : SessionAllocs) :
    (∃ answer, answer ≠ .ok true ∧ t.renameSessionTokenRows r a = (answer, t)) ∨
      SessionGoes t r ∧ t.renameSessionTokenRows r a = (.ok true, t.applySession r a) := by
  have hsame : ∀ answer : Except Error Bool, answer ≠ .ok true →
      ∃ other, other ≠ .ok true ∧ (answer, t) = (other, t) := fun answer h => ⟨answer, h, rfl⟩
  rw [RouteTable.renameSessionTokenRows]
  split
  · exact .inl (hsame _ nofun)
  rename_i hvalid
  split_ifs with hcopy hrefused hnames hfree hroute hannounced
  · exact .inl (hsame _ nofun)
  · exact .inl (hsame _ nofun)
  · exact .inl (hsame _ nofun)
  · exact .inl (hsame _ nofun)
  · exact .inl (hsame _ nofun)
  · exact .inl (hsame _ nofun)
  · exact .inr ⟨⟨hvalid, Bool.not_eq_true _ ▸ hrefused, Bool.not_eq_true _ ▸ hfree⟩, rfl⟩

variable (loserUid)

/-- The rename of one group of the reconcile. -/
def groupRename (t : RouteTable) (r : Reconcile) (nick : Bytes) (m : Member) : SessionRename :=
  ⟨r.token, m.node, m.nick, t.reconciledNickTarget loserUid r m.node nick, none, false⟩

/-- What every rename of a group keeps, the pass keeps. -/
theorem renamePass_invariant {P : RouteTable → Prop} {r : Reconcile} {nick : Bytes}
    (hrename : ∀ t m a, P t → t.findCandidate loserUid r nick = some m →
      SessionGoes t (groupRename loserUid t r nick m) →
      P (t.applySession (groupRename loserUid t r nick m) a))
    (a : Nat → SessionAllocs) (fuel renamed : Nat) (t : RouteTable) (h : P t) :
    P (t.renamePass loserUid r nick a fuel renamed).2 := by
  induction fuel generalizing renamed t with
  | zero => exact h
  | succ fuel ih =>
    rw [RouteTable.renamePass]
    cases hcandidate : t.findCandidate loserUid r nick with
    | none => exact h
    | some m =>
      rcases renameSessionTokenRows_step t (groupRename loserUid t r nick m) (a renamed) with
        ⟨answer, hanswer, heq⟩ | ⟨hgoes, heq⟩
      · rw [groupRename] at heq
        simp only [heq]
        match answer, hanswer with
        | .error _, _ => exact h
        | .ok false, _ => exact h
      · have hnext := ih (renamed + 1) _ (hrename t m (a renamed) h hcandidate hgoes)
        rw [groupRename] at heq hnext
        simp only [heq]
        exact hnext

/-- What the renames and the departures of a reconcile keep, the reconcile keeps. -/
theorem reconcile_invariant {P Q : RouteTable → Prop} {r : Reconcile} {a : ReconcileAllocs}
    (hrename : ∀ nick, r.desiredNick = some nick → r.localCanonical = false → ∀ t m b, P t →
      t.findCandidate loserUid r nick = some m →
      SessionGoes t (groupRename loserUid t r nick m) →
      P (t.applySession (groupRename loserUid t r nick m) b))
    (hpass : ∀ t, P t → Q t)
    (hdepart : ∀ t n chan l m s, Q t → t.channelMembersOf chan = l ++ m :: s →
      r.retires loserUid chan (l ++ m :: s) m = true →
      Q (t.departRetired a n chan (l ++ m :: s) l.length m))
    (halike : ∀ t t', Alike t t' → Q t → Q t') (t : RouteTable) (hq : Q t)
    (hp : t.validateDesired r = .ok () → P t) :
    Q (t.reconcileSessionTokenObserved loserUid r a).2 := by
  rw [RouteTable.reconcileSessionTokenObserved]
  split
  · exact hq
  rename_i hvalid
  have h := hp hvalid
  have hrenames : P (t.reconcileRenames loserUid r a).2 := by
    rw [RouteTable.reconcileRenames]
    cases hnick : r.desiredNick with
    | none => exact h
    | some nick =>
      simp only
      split
      · exact h
      · rename_i hlocal
        exact renamePass_invariant loserUid
          (hrename nick hnick (Bool.not_eq_true _ ▸ hlocal)) _ _ _ t h
  rcases hrun : t.reconcileRenames loserUid r a with ⟨answer, u⟩
  rw [hrun] at hrenames
  cases answer with
  | error e => exact hpass u hrenames
  | ok renamed =>
    have hsweep := sweep_invariant _ a.announced _ hdepart u.channelMembers.keys 0 u
      (hpass u hrenames)
    rcases hout : sweep (r.retires loserUid) a.announced (RouteTable.departRetired a)
      u.channelMembers.keys 0 u with ⟨completed, removed, u'⟩
    rw [hout] at hsweep
    simp only [hout]
    cases completed
    · exact hsweep
    · exact halike u' _ (pruneEmpty_frame u') hsweep

/-- A step changes nothing, commits the pending join or is that of its operation. -/
theorem step_table (s : System) (op : Op) :
    Alike s.table (step loserUid s op).2.table ∨
      (∃ index prepared, op = .commitWinningJoin index ∧ s.pending = some prepared ∧
        s.table.nickNode prepared.row.nick = none ∧
        (step loserUid s op).2.table = s.table.commitWinningJoin prepared index) ∨
      (step loserUid s op).2.table = (tableStep loserUid s.table op).2 := by
  cases op with
  | prepareWinningJoin m incumbentUid list row =>
    have hframe := prepareWinningJoin_alike s.table m incumbentUid list row
    refine .inl ?_
    rw [step]
    split <;> rename_i heq <;> rwa [heq] at hframe
  | commitWinningJoin index =>
    rw [step]
    split
    · exact .inl (.refl _)
    rename_i prepared hpending
    split
    · exact .inl (.refl _)
    · rename_i hfree
      exact .inr (.inl ⟨index, prepared, rfl, hpending,
        Option.not_isSome_iff_eq_none.mp hfree, rfl⟩)
  | abandonWinningJoin =>
    refine .inl ?_
    rw [step]
    split
    · exact .refl _
    · exact abandonWinningJoin_alike s.table _
  | rehash => exact .inr (.inr rfl)
  | setNickLocation => exact .inr (.inr rfl)
  | removeNick => exact .inr (.inr rfl)
  | clear => exact .inr (.inr rfl)
  | addChannelMember => exact .inr (.inr rfl)
  | removeChannelMember => exact .inr (.inr rfl)
  | setChannelNodePresence => exact .inr (.inr rfl)
  | applyFact => exact .inr (.inr rfl)
  | applyMembership => exact .inr (.inr rfl)
  | renameNick => exact .inr (.inr rfl)
  | renameNickDisplacing => exact .inr (.inr rfl)
  | renameNickBindingSessionToken => exact .inr (.inr rfl)
  | rebindSessionToken => exact .inr (.inr rfl)
  | reconcileSessionToken => exact .inr (.inr rfl)
  | pruneStale => exact .inr (.inr rfl)
  | removeNode => exact .inr (.inr rfl)

end OnyxServer.Undertow
