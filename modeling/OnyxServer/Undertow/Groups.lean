import OnyxServer.Undertow.Steps

/-!
# Displacing renames, session renames and the groups of a reconcile

Which rows the renames of many rows take, and where they land. A reconcile renames the obsolete rows
of its session group by group; a row that is not obsolete never becomes so, because a
contested nick stays contested.
-/
namespace OnyxServer.Undertow

open Lib Text List

variable {loserUid : NodeId → Bytes → Bytes} {t : RouteTable} {s : SessionRename}
  {r : Reconcile} {a : SessionAllocs} {nick k : Bytes} {m x : Member} {chan : Bytes}
  {list : List Member} {n : NodeId}

theorem sameIdentity_iff : s.sameIdentity x = true ↔
    x.node = s.node ∧ lowerString x.nick = lowerString s.oldNick := by
  simp [SessionRename.sameIdentity]

theorem takes_identity (h : s.takes x = true) :
    x.node = s.node ∧ lowerString x.nick = lowerString s.oldNick := by
  rw [SessionRename.takes, Bool.and_eq_true] at h
  exact sameIdentity_iff.mp h.1

theorem moved_of_takes (h : s.takes x = true) :
    (s.moved x).nick = s.newNick ∧ (s.moved x).node = s.node := by
  have hnode := (takes_identity h).1
  rw [SessionRename.moved, if_pos h]
  split <;> (simp only [Member.renamed]; split <;> exact ⟨rfl, hnode⟩)

theorem moved_of_stays (h : s.takes x = false) : s.moved x = x := by
  rw [SessionRename.moved, if_neg (by simp [h])]

theorem mem_rows_applySession :
    x ∈ (t.applySession s a).rows ↔ ∃ y ∈ t.rows, s.moved y = x := by
  simp only [mem_rows, roster_applySession, mem_map]
  constructor
  · rintro ⟨chan, y, hy, rfl⟩
    exact ⟨y, ⟨chan, hy⟩, rfl⟩
  · rintro ⟨y, ⟨chan, hy⟩, rfl⟩
    exact ⟨chan, y, hy, rfl⟩

theorem routes_applySession (t : RouteTable) (s : SessionRename) (a : SessionAllocs) (k : Bytes) :
    (t.applySession s a).nickNode k =
      if t.installsNewRoute s = true ∧ k = s.newNick then some s.node
      else if t.removesOldRoute s = true ∧ k = s.oldNick then none
      else t.nickNode k := by
  rw [RouteTable.nickNode, RouteTable.applySession, (reselectTwo_frame _ _ _ _ _).routes]
  show (t.sessionRoutes s).nickToNode.lookup k = _
  rw [RouteTable.sessionRoutes, RouteTable.nickNode]
  cases t.installsNewRoute s <;> cases t.removesOldRoute s <;>
    simp [HashMap.lookup_insert_eq, HashMap.lookup_erase_eq]

/-- A roster that fits has at most the moved row under the new nick. -/
theorem occupied_find (hfits : s.occupied list = false) {i j : Nat} (hx : list[i]? = some x)
    (htakes : s.takes x = true) (hfind : find list s.newNick = some j) : j = i := by
  rw [SessionRename.occupied, any_eq_false] at hfits
  have hat : (x, i) ∈ list.zipIdx := by
    rw [mem_zipIdx_iff_getElem?]
    exact hx
  have hfree := hfits _ hat
  simpa [htakes, hfind] using hfree

theorem fits_occupied (hfits : t.refusesSession s = false) (chan : Bytes) :
    s.occupied (t.channelMembersOf chan) = false := by
  cases hlookup : t.channelMembers.lookup chan with
  | none =>
    rw [RouteTable.channelMembersOf, hlookup]
    rfl
  | some list =>
    rw [RouteTable.refusesSession, Bool.or_eq_false_iff, any_eq_false] at hfits
    have hentry := hfits.1 _ (HashMap.mem_entries.mpr hlookup)
    rw [roster_of_lookup hlookup]
    simp only [Bool.or_eq_true, not_or, Bool.not_eq_true] at hentry
    exact hentry.2

theorem fits_takes (hfits : t.refusesSession s = false) : ∃ y ∈ t.rows, s.takes y = true := by
  rw [RouteTable.refusesSession, Bool.or_eq_false_iff, Bool.not_eq_false'] at hfits
  exact any_eq_true.mp hfits.2

/-- The nick that a displacing rename gives the row, if it moves. -/
def Displacing.lands (d : Displacing) (m : Member) : Option Bytes :=
  if d.isExactOld m then some d.newNick
  else if d.isIncumbent m then some d.incumbentUid
  else none

theorem Displacing.moved_nick (d : Displacing) (m : Member) :
    (d.moved m).nick = (d.lands m).getD m.nick := by
  rw [Displacing.moved, Displacing.lands]
  split
  · split <;> rfl
  · split <;> rfl

variable {d : Displacing}

/-- A row that stays has neither of the two nicks. -/
theorem Displacing.stays_apart (hfits : d.conflicts m = false)
    (hstays : d.lands m = none) :
    lowerString m.nick ≠ lowerString d.newNick ∧
    lowerString m.nick ≠ lowerString d.incumbentUid := by
  rw [Displacing.lands] at hstays
  rw [Displacing.conflicts] at hfits
  split_ifs at hstays with hold hincumbent
  rw [if_neg hold, if_neg hincumbent, Bool.or_eq_false_iff, ← Bool.not_eq_true,
    ← Bool.not_eq_true, eqlIgnoreCase_iff, eqlIgnoreCase_iff] at hfits
  exact hfits

theorem lands_nick {nick : Bytes} (h : d.lands m = some nick) :
    nick = d.newNick ∨ nick = d.incumbentUid := by
  rw [Displacing.lands] at h
  split at h
  · exact .inl (Option.some.inj h).symm
  · split at h
    · exact .inr (Option.some.inj h).symm
    · cases h

theorem fits_conflicts (hfits : t.refusesDisplacing d = false)
    (hm : m ∈ t.rows) : d.conflicts m = false := by
  simp only [RouteTable.refusesDisplacing, Bool.or_eq_false_iff] at hfits
  rw [← Bool.not_eq_true]
  exact any_eq_false.mp hfits.1.2 m hm

theorem Displacing.moved_node (d : Displacing) (m : Member) : (d.moved m).node = m.node := by
  rw [Displacing.moved]
  split
  · split <;> rfl
  · split <;> rfl

theorem Displacing.moved_of_stays (h : d.lands m = none) : d.moved m = m := by
  rw [Displacing.lands] at h
  rw [Displacing.moved]
  split_ifs at h
  · rename_i hold hincumbent
    rw [if_neg hold, if_neg hincumbent]

theorem Displacing.sameNick_lower {nick wanted : Bytes}
    (h : d.sameNick nick wanted = true) : lowerString nick = lowerString wanted := by
  rw [Displacing.sameNick] at h
  split at h
  · exact eqlIgnoreCase_iff.mp h
  · rw [of_decide_eq_true h]

theorem Displacing.isExactOld_identity (h : d.isExactOld m = true) :
    m.node = d.node ∧ lowerString m.nick = lowerString d.oldNick := by
  rw [Displacing.isExactOld, Bool.and_eq_true] at h
  exact ⟨of_decide_eq_true h.1, Displacing.sameNick_lower h.2⟩

theorem Displacing.isIncumbent_identity (h : d.isIncumbent m = true) :
    m.node = d.incumbentNode ∧ lowerString m.nick = lowerString d.newNick := by
  rw [Displacing.isIncumbent, Bool.and_eq_true] at h
  exact ⟨of_decide_eq_true h.1, Displacing.sameNick_lower h.2⟩

/-! ## The groups of a reconcile -/

theorem isObsolete_iff : t.isObsolete loserUid r nick m = true ↔
    m.sessionToken = some r.token ∧ lowerString m.nick ≠ lowerString nick ∧
      (t.contested r m.node nick = true →
        lowerString m.nick ≠ lowerString (loserUid m.node nick)) := by
  simp only [RouteTable.isObsolete, RouteTable.reconciledNickTarget, Bool.and_eq_true,
    decide_eq_true_eq, Bool.not_eq_true', eqlIgnoreCase_iff, and_assoc, ← Bool.not_eq_true]
  refine and_congr_right fun _ => and_congr_right fun hother => ?_
  cases ht : t.contested r m.node nick
  · simp only [Bool.false_eq_true, if_false, false_imp_iff, iff_true]
    exact fun h => hother (h.1.trans h.2.symm)
  · simp

theorem findCandidate_some (h : t.findCandidate loserUid r nick = some m) :
    ∃ chan, channelInSet chan r.desiredChannels = true ∧ m ∈ t.channelMembersOf chan ∧
      t.isObsolete loserUid r nick m = true := by
  obtain ⟨e, he, hfind⟩ := exists_of_findSome?_eq_some h
  obtain ⟨hentry, hdesired⟩ := mem_filter.mp he
  refine ⟨e.1, hdesired, ?_, List.find?_some hfind⟩
  rw [roster_of_lookup (HashMap.mem_entries.mp hentry)]
  exact mem_of_find?_eq_some hfind

theorem group_takes_iff : (groupRename loserUid t r nick m).takes x = true ↔
    x.node = m.node ∧ lowerString x.nick = lowerString m.nick ∧ x.sessionToken = some r.token := by
  rw [SessionRename.takes, Bool.and_eq_true, sameIdentity_iff, and_assoc]
  cases x.sessionToken with
  | none => simp [groupRename]
  | some stored =>
    simp only [groupRename, Option.some.injEq]
    exact and_congr_right fun _ => and_congr_right fun _ => decide_eq_true_iff

section Group

variable (hm : t.isObsolete loserUid r nick m = true)
include hm

/-- A contested nick stays contested. -/
theorem contested_applySession (h : t.contested r n nick = true) :
    (t.applySession (groupRename loserUid t r nick m) a).contested r n nick = true := by
  obtain ⟨-, hother, -⟩ := isObsolete_iff.mp hm
  simp only [RouteTable.contested, Bool.or_eq_true] at h ⊢
  obtain (hroute | hrow) | hheld := h
  · refine .inl (.inl ?_)
    obtain ⟨home, hhome, hne⟩ : ∃ home, t.nickNode nick = some home ∧ home ≠ n := by
      simpa [Option.any_eq_true] using hroute
    have hkept : (t.applySession (groupRename loserUid t r nick m) a).nickNode nick =
        some home := by
      rw [routes_applySession, if_neg, if_neg, hhome]
      · rintro ⟨-, heq⟩
        exact hother (congrArg lowerString heq.symm)
      · rintro ⟨hinstalls, heq⟩
        rw [RouteTable.installsNewRoute, Bool.and_eq_true, ← heq, hhome] at hinstalls
        exact absurd hinstalls.1 Bool.false_ne_true
    simpa [Option.any_eq_true, hkept] using hne
  · refine .inl (.inr ?_)
    obtain ⟨y, hy, hforeign⟩ := any_eq_true.mp hrow
    have hstays : (groupRename loserUid t r nick m).takes y = false := by
      rw [← Bool.not_eq_true, group_takes_iff]
      rintro ⟨-, hsame, -⟩
      simp only [Bool.and_eq_true, eqlIgnoreCase_iff] at hforeign
      exact hother (hsame.symm.trans hforeign.2)
    exact any_eq_true.mpr
      ⟨y, mem_rows_applySession.mpr ⟨y, hy, moved_of_stays hstays⟩, hforeign⟩
  · exact .inr hheld

section

variable
    (h : (t.applySession (groupRename loserUid t r nick m) a).isObsolete loserUid r nick x = true)
include h

/-- What is obsolete after the rename was so before. -/
theorem obsolete_before :
    t.isObsolete loserUid r nick x = true := by
  obtain ⟨htoken, hother, huid⟩ := isObsolete_iff.mp h
  exact isObsolete_iff.mpr ⟨htoken, hother, fun hc => huid (contested_applySession hm hc)⟩

/-- No obsolete row has the nick that the group was given. -/
theorem obsolete_target (hnode : x.node = m.node) :
    lowerString x.nick ≠ lowerString (t.reconciledNickTarget loserUid r m.node nick) := by
  obtain ⟨-, hother, huid⟩ := isObsolete_iff.mp h
  rw [RouteTable.reconciledNickTarget]
  split
  · rename_i hc
    rw [hnode] at huid
    exact huid (contested_applySession hm hc)
  · exact hother

end

/-- The obsolete rows of a roster after the rename are obsolete rows that it did not take. -/
theorem obsolete_stays
    (hx : x ∈ (t.applySession (groupRename loserUid t r nick m) a).channelMembersOf chan)
    (h : (t.applySession (groupRename loserUid t r nick m) a).isObsolete loserUid r nick x = true) :
    x ∈ t.channelMembersOf chan ∧ (groupRename loserUid t r nick m).takes x = false ∧
      t.isObsolete loserUid r nick x = true := by
  rw [roster_applySession] at hx
  obtain ⟨y, hy, rfl⟩ := mem_map.mp hx
  cases htakes : (groupRename loserUid t r nick m).takes y with
  | true =>
    obtain ⟨hnick, hnode⟩ := moved_of_takes htakes
    exact absurd (congrArg lowerString hnick) (obsolete_target hm h hnode)
  | false =>
    rw [moved_of_stays htakes] at h ⊢
    exact ⟨hy, htakes, obsolete_before hm h⟩

end Group

end OnyxServer.Undertow
