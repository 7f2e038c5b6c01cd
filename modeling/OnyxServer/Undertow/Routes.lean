import OnyxServer.Undertow.Groups

/-!
# Routes

Where the routes lead after each operation, and that the counter of routes is the number
of entries within the bound of the table.
-/
namespace OnyxServer.Undertow

open Lib Text HashMap Option

variable {t t' : RouteTable} {k nick old new : Bytes} {n node : NodeId} {d : Displacing}
  {s : SessionRename}

theorem routes_setNickLocation {alloc : Bool}
    (h : (t.setNickLocation nick node alloc).2.nickNode k = some n) :
    (k = nick ∧ n = node) ∨ t.nickNode k = some n := by
  have hinsert : (t.nickToNode.insert nick node).lookup k = some n →
      (k = nick ∧ n = node) ∨ t.nickNode k = some n := by
    rw [lookup_insert_eq]
    split
    · rename_i hk
      exact fun heq => .inl ⟨hk, (some.inj heq).symm⟩
    · exact .inr
  rw [RouteTable.setNickLocation] at h
  split at h
  · exact .inr h
  · exact .inr h
  · split at h
    · exact hinsert h
    split at h
    · exact .inr h
    · split at h
      · exact .inr h
      · exact hinsert h

/-- A valid location replaces the route that the nick had. -/
theorem routes_setNickLocation_valid {alloc : Bool} (hname : t.validateName nick = .ok ())
    (hnode : validateNode node = .ok ())
    (h : (t.setNickLocation nick node alloc).2.nickNode k = some n) :
    (k = nick ∧ n = node) ∨ (k ≠ nick ∧ t.nickNode k = some n) := by
  rcases routes_setNickLocation h with hset | hold
  · exact .inl hset
  by_cases hk : k = nick
  · rw [hk] at hold h ⊢
    rw [RouteTable.setNickLocation, hname, hnode] at h
    simp only [hold, isSome_some, if_true] at h
    rw [RouteTable.nickNode, lookup_insert_eq, if_pos rfl] at h
    exact .inl ⟨rfl, (some.inj h).symm⟩
  · exact .inr ⟨hk, hold⟩

theorem routes_removeNick (t : RouteTable) (nick k : Bytes) :
    (t.removeNick nick).2.nickNode k = if k = nick then none else t.nickNode k := by
  rw [RouteTable.removeNick]
  split
  · exact lookup_erase_eq _ _ _
  rename_i hnone
  split
  · rename_i hk
    rw [hk]
    exact not_isSome_iff_eq_none.mp hnone
  · rfl

theorem routes_applyRename (t : RouteTable) (old new : Bytes) (node : NodeId)
    (ident : MemberIdentity) (k : Bytes) :
    (t.applyRename old new node ident).nickNode k =
      if (t.nickNode old).isSome = true ∧ k = new then some node
      else if k = old then none
      else t.nickNode k := by
  have hframe : (t.applyRename old new node ident).nickNode k =
      RouteTable.nickNode (if (t.nickNode old).isSome then t.moveRoute old new node else t) k :=
    congrArg (AList.lookup k) (reselectTwo_frame _ _ _ _ _).routes
  rw [hframe]
  split
  · rename_i hsome
    show (((t.nickToNode.erase old).erase new).insert new node).lookup k = _
    rw [lookup_insert_eq, lookup_erase_eq, lookup_erase_eq]
    by_cases hnew : k = new
    · rw [if_pos hnew, if_pos ⟨hsome, hnew⟩]
    · rw [if_neg hnew, if_neg hnew]
      exact (if_neg fun h => hnew h.2).symm
  · rename_i hnone
    rw [if_neg fun h => hnone h.1]
    split
    · rename_i hk
      rw [hk]
      exact not_isSome_iff_eq_none.mp hnone
    · rfl

theorem routes_applyDisplacing (t : RouteTable) (d : Displacing) (k : Bytes) :
    (t.applyDisplacing d).nickNode k =
      if t.nickNode d.incumbentUid = none ∧ k = d.incumbentUid then some d.incumbentNode
      else if k = d.newNick then some d.node
      else if k = d.oldNick then none
      else t.nickNode k := by
  have hframe : (t.applyDisplacing d).nickNode k = (t.displaceRoutes d).nickNode k := by
    refine congrArg (AList.lookup k) ?_
    rw [RouteTable.applyDisplacing, (reselectNick_frame _ _ _).routes,
      (reselectNick_frame _ _ _).routes, (reselectNick_frame _ _ _).routes]
    rfl
  have htaken :
      (((t.nickToNode.erase d.oldNick).erase d.newNick).insert d.newNick d.node).lookup k =
      if k = d.newNick then some d.node else if k = d.oldNick then none else t.nickNode k := by
    rw [lookup_insert_eq, lookup_erase_eq, lookup_erase_eq]
    by_cases hnew : k = d.newNick
    · rw [if_pos hnew, if_pos hnew]
    · rw [if_neg hnew, if_neg hnew, if_neg hnew]
      rfl
  rw [hframe, ← htaken]
  show (if (t.nickNode d.incumbentUid).isNone then _ else _ : HashMap Bytes NodeId).lookup k = _
  cases t.nickNode d.incumbentUid with
  | none =>
    rw [isNone_none, if_pos rfl, lookup_insert_eq]
    exact if_congr (by simp) rfl rfl
  | some home =>
    rw [isNone_some, if_neg Bool.false_ne_true, if_neg (by simp)]

/-- The counter is the number of routes, and within the bound. -/
structure Counted (t : RouteTable) : Prop where
  count : t.nickCount = HashMap.count t.nickToNode
  bound : t.nickCount ≤ t.cfg.maxNicks

theorem counted_empty (cfg : Config) : Counted (RouteTable.empty cfg) := ⟨rfl, Nat.zero_le _⟩

section

variable (h : Counted t)
include h

theorem Counted.alike (hframe : Alike t t') : Counted t' := by
  constructor
  · rw [hframe.count, hframe.routes]
    exact h.count
  · rw [hframe.count, hframe.cfg]
    exact h.bound

theorem Counted.index (hframe : IndexOnly t t') : Counted t' := by
  constructor
  · rw [hframe.count, hframe.routes]
    exact h.count
  · rw [hframe.count, hframe.cfg]
    exact h.bound

theorem Counted.setRoster (chan : Bytes) (list : List Member) :
    Counted (t.setRoster chan list) := ⟨h.count, h.bound⟩

theorem Counted.mapRows (f : List Member → List Member) : Counted (t.mapRows f) :=
  ⟨h.count, h.bound⟩

theorem Counted.setNickLocation (nick : Bytes) (node : NodeId) (alloc : Bool) :
    Counted (t.setNickLocation nick node alloc).2 := by
  rw [RouteTable.setNickLocation]
  split
  · exact h
  · exact h
  · split
    · rename_i hsome
      exact ⟨h.count.trans (count_insert_old hsome).symm, h.bound⟩
    rename_i hnone
    split
    · exact h
    rename_i hroom
    split
    · exact h
    have hnew : HashMap.count (t.nickToNode.insert nick node) =
        HashMap.count t.nickToNode + 1 :=
      HashMap.count_insert_new (not_isSome_iff_eq_none.mp hnone)
    exact ⟨(congrArg (· + 1) h.count).trans hnew.symm, Nat.lt_of_le_of_ne h.bound hroom⟩

theorem Counted.removeNick (nick : Bytes) : Counted (t.removeNick nick).2 := by
  rw [RouteTable.removeNick]
  split
  · rename_i hsome
    have herase : HashMap.count (t.nickToNode.erase nick) + 1 = HashMap.count t.nickToNode :=
      count_erase_old hsome
    constructor
    · show t.nickCount - 1 = HashMap.count (t.nickToNode.erase nick)
      rw [h.count]
      omega
    · exact (Nat.sub_le _ _).trans h.bound
  · exact h

theorem Counted.indexNick (nick : Bytes) (node : NodeId) (hlc : UInt64)
    (a : ApplyAllocs) : Counted (t.indexNick nick node hlc a) :=
  (h.setNickLocation nick node a.route).index (noteBestNickClaim_frame _ _ _ _)

theorem Counted.partRow (chan : Bytes) (list : List Member) (i : Nat) (nick : Bytes)
    (index : Bool) : Counted (t.partRow chan list i nick index) := by
  have hdrop := (h.setRoster chan (swapRemove list i)).alike (pruneIfEmpty_frame _ chan)
  rw [RouteTable.partRow]
  refine Counted.index ?_ (reselectNick_frame _ _ _)
  split
  · exact hdrop.removeNick nick
  · exact hdrop

theorem Counted.memberStep {loserUid : NodeId → Bytes → Bytes} {m : Membership}
    {a : ApplyAllocs} (hstep : MemberStep loserUid t m a t') : Counted t' := by
  cases hstep with
  | same halike => exact h.alike halike
  | refreshed _ halike => exact (h.setRoster _ _).alike halike
  | updated _ _ _ _ _ _ halike => exact ((h.setRoster _ _).alike halike).indexNick _ _ _ a
  | joined _ _ _ halike => exact ((h.setRoster _ _).alike halike).indexNick _ _ _ a
  | parted _ _ _ _ _ _ halike => exact (h.alike halike).partRow _ _ _ _ _

theorem Counted.commitWinningJoin {prepared : PreparedWinningJoin}
    (hfree : t.nickNode prepared.row.nick = none) (hroom : t.nickCount < t.cfg.maxNicks)
    (index : Bool) : Counted (t.commitWinningJoin prepared index) := by
  have hframe := clearPartTombstone_frame (t.setRoster prepared.channel
    (t.channelMembersOf prepared.channel ++ [prepared.row])) prepared.channel prepared.row.nick
    prepared.row.node
  rw [RouteTable.commitWinningJoin]
  generalize (t.setRoster prepared.channel
    (t.channelMembersOf prepared.channel ++ [prepared.row])).clearPartTombstone prepared.channel
    prepared.row.nick prepared.row.node = joined at hframe ⊢
  have hroutes : joined.nickToNode = t.nickToNode := hframe.routes
  have hcount : joined.nickCount = t.nickCount := hframe.count
  refine Counted.index ⟨?_, ?_⟩ (noteBestNickClaim_frame _ _ _ _)
  · show joined.nickCount + 1 = HashMap.count (joined.nickToNode.insert _ prepared.row.node)
    rw [hcount, hroutes, h.count]
    exact (HashMap.count_insert_new hfree).symm
  · show joined.nickCount + 1 ≤ joined.cfg.maxNicks
    rw [hcount, hframe.cfg]
    exact hroom

end

/-- A route leaves one count less when there was one. -/
theorem count_erase (m : HashMap Bytes NodeId) (k : Bytes) :
    HashMap.count (AList.erase k m) = HashMap.count m - (m.lookup k).isSome.toNat := by
  cases hk : m.lookup k with
  | none => simp [count_erase_new hk]
  | some home =>
    have herase := count_erase_old (isSome_of_eq_some hk)
    simp only [isSome_some, Bool.toNat_true]
    omega

theorem count_pos {m : HashMap Bytes NodeId} {k : Bytes} (h : (m.lookup k).isSome = true) :
    0 < HashMap.count m := by
  have herase := count_erase_old h
  omega

theorem Counted.applyRename (h : Counted t) (old new : Bytes) (node : NodeId)
    (ident : MemberIdentity) : Counted (t.applyRename old new node ident) := by
  rw [RouteTable.applyRename]
  refine Counted.index (Counted.mapRows ?_ _) (reselectTwo_frame _ _ _ _ _)
  split
  · rename_i hsome
    have hcount : (t.moveRoute old new node).nickCount =
        HashMap.count (t.moveRoute old new node).nickToNode := by
      have hold := count_erase_old hsome
      have hnew := count_erase (t.nickToNode.erase old) new
      have hinsert : HashMap.count (((t.nickToNode.erase old).erase new).insert new node) =
          HashMap.count ((t.nickToNode.erase old).erase new) + 1 :=
        HashMap.count_insert_new (AList.lookup_erase _ _)
      have hpos : ((t.nickToNode.erase old).lookup new).isSome = true →
          0 < HashMap.count (t.nickToNode.erase old) := count_pos
      have hcount := h.count
      simp only [RouteTable.moveRoute]
      rw [hinsert]
      cases hroute : ((t.nickToNode.erase old).lookup new).isSome
      · rw [hroute] at hnew
        rw [if_neg Bool.false_ne_true]
        simp only [Bool.toNat_false] at hnew
        omega
      · have hpos := hpos hroute
        rw [hroute] at hnew
        rw [if_pos rfl]
        simp only [Bool.toNat_true] at hnew
        omega
    refine ⟨hcount, ?_⟩
    simp only [RouteTable.moveRoute]
    split
    · exact (Nat.sub_le _ _).trans h.bound
    · exact h.bound
  · exact h

theorem Counted.applySession (h : Counted t) (s : SessionRename) (a : SessionAllocs) :
    Counted (t.applySession s a) := by
  refine Counted.index (Counted.mapRows ?_ _) (reselectTwo_frame _ _ _ _ _)
  have hcount := h.count
  have hbound := h.bound
  have hremoves : t.removesOldRoute s = true → (t.nickToNode.lookup s.oldNick).isSome = true :=
    fun hr => isSome_of_eq_some (of_decide_eq_true hr)
  have hnew : t.installsNewRoute s = true → t.nickToNode.lookup s.newNick = none :=
    fun hi => isNone_iff_eq_none.mp (Bool.and_eq_true _ _ ▸ hi).1
  have hleft : t.installsNewRoute s = true →
      (t.nickToNode.erase s.oldNick).lookup s.newNick = none := by
    intro hi
    rw [lookup_erase_eq, hnew hi]
    split <;> rfl
  have hroom : t.removesOldRoute s = false → t.installsNewRoute s = true →
      t.nickCount < t.cfg.maxNicks := by
    intro hr hi
    rw [RouteTable.installsNewRoute, hr, Bool.false_or, Bool.and_eq_true] at hi
    exact of_decide_eq_true hi.2
  cases hr : t.removesOldRoute s <;> cases hi : t.installsNewRoute s
  · refine ⟨?_, ?_⟩ <;> simp only [RouteTable.sessionRoutes, hr, hi]
    · exact hcount
    · exact hbound
  · refine ⟨?_, ?_⟩ <;> simp only [RouteTable.sessionRoutes, hr, hi]
    · exact (congrArg (· + 1) hcount).trans (HashMap.count_insert_new (hnew hi)).symm
    · exact hroom hr hi
  · have herase := count_erase_old (hremoves hr)
    refine ⟨?_, ?_⟩ <;> simp only [RouteTable.sessionRoutes, hr, hi]
    · show t.nickCount - 1 = HashMap.count (t.nickToNode.erase s.oldNick)
      omega
    · show t.nickCount - 1 ≤ t.cfg.maxNicks
      omega
  · have herase := count_erase_old (hremoves hr)
    have hinsert : HashMap.count ((t.nickToNode.erase s.oldNick).insert s.newNick s.node) =
        HashMap.count (t.nickToNode.erase s.oldNick) + 1 := HashMap.count_insert_new (hleft hi)
    refine ⟨?_, ?_⟩ <;> simp only [RouteTable.sessionRoutes, hr, hi]
    · show t.nickCount = HashMap.count ((t.nickToNode.erase s.oldNick).insert s.newNick s.node)
      omega
    · exact hbound

/-- The homes that a displacing rename which goes through has found. -/
structure Homes (t : RouteTable) (d : Displacing) : Prop where
  apart : d.node ≠ d.incumbentNode
  old : ∀ home, t.nickNode d.oldNick = some home → home = d.node
  new : t.nickNode d.newNick = some d.incumbentNode
  uid : ∀ home, t.nickNode d.incumbentUid = some home → home = d.incumbentNode

theorem fits_homes (hfits : t.refusesDisplacing d = false) : Homes t d := by
  simp only [RouteTable.refusesDisplacing, Bool.or_eq_false_iff] at hfits
  obtain ⟨⟨⟨⟨⟨hapart, hold⟩, hnew⟩, huid⟩, -⟩, -⟩ := hfits
  constructor
  · exact of_decide_eq_false hapart
  · intro home hhome
    simpa [hhome] using hold
  · exact not_not.mp (of_decide_eq_false hnew)
  · intro home hhome
    simpa [hhome] using huid

theorem Counted.applyDisplacing (h : Counted t) (hfits : t.refusesDisplacing d = false)
    (hroom : t.projectedCount d ≤ t.cfg.maxNicks) : Counted (t.applyDisplacing d) := by
  have homes := fits_homes hfits
  have hne : d.oldNick ≠ d.newNick := by
    intro heq
    exact homes.apart (homes.old _ (heq ▸ homes.new)).symm
  refine Counted.index (Counted.index (Counted.index (Counted.mapRows ⟨?_, hroom⟩ _)
    (reselectNick_frame _ _ _)) (reselectNick_frame _ _ _)) (reselectNick_frame _ _ _)
  have hold := count_erase t.nickToNode d.oldNick
  have hnew : HashMap.count ((t.nickToNode.erase d.oldNick).erase d.newNick) + 1 =
      HashMap.count (t.nickToNode.erase d.oldNick) := by
    refine count_erase_old ?_
    rw [lookup_erase_eq, if_neg hne.symm]
    exact isSome_of_eq_some homes.new
  have htaken :
      HashMap.count (((t.nickToNode.erase d.oldNick).erase d.newNick).insert d.newNick d.node) =
      HashMap.count ((t.nickToNode.erase d.oldNick).erase d.newNick) + 1 :=
    HashMap.count_insert_new (AList.lookup_erase _ _)
  have hcount := h.count
  show t.projectedCount d = HashMap.count (if (t.nickNode d.incumbentUid).isNone then _ else _)
  rw [RouteTable.projectedCount, hcount]
  cases huid : t.nickNode d.incumbentUid with
  | none =>
    have hinsert : HashMap.count ((((t.nickToNode.erase d.oldNick).erase d.newNick).insert d.newNick
        d.node).insert d.incumbentUid d.incumbentNode) =
        HashMap.count (((t.nickToNode.erase d.oldNick).erase d.newNick).insert d.newNick d.node) +
          1 := by
      refine HashMap.count_insert_new ?_
      rw [lookup_insert_eq, if_neg, lookup_erase_eq, if_neg, lookup_erase_eq]
      · split
        · rfl
        · exact huid
      · intro heq
        rw [heq, homes.new] at huid
        cases huid
      · intro heq
        rw [heq, homes.new] at huid
        cases huid
    rw [isNone_none, if_pos rfl, hinsert, htaken, Bool.toNat_true]
    change _ = HashMap.count t.nickToNode - (t.nickNode d.oldNick).isSome.toNat at hold
    omega
  | some home =>
    rw [isNone_some, if_neg Bool.false_ne_true, htaken, Bool.toNat_false]
    change _ = HashMap.count t.nickToNode - (t.nickNode d.oldNick).isSome.toNat at hold
    omega

theorem Counted.rebindSessionToken (h : Counted t) (loserUid : NodeId → Bytes → Bytes)
    (node : NodeId) (wireNick : Bytes) (token : Option SessionToken) :
    Counted (t.rebindSessionToken loserUid node wireNick token).2 := by
  rw [RouteTable.rebindSessionToken]
  split
  · exact h
  · exact h
  · exact h.mapRows _

theorem Counted.departStale (h : Counted t) (n : Nat) (chan : Bytes) (list : List Member) (i : Nat)
    (m : Member) : Counted (t.departStale n chan list i m) := by
  have hdirty : Counted { t with claimIndexDirty := true } := ⟨h.count, h.bound⟩
  rw [RouteTable.departStale]
  refine Counted.setRoster ?_ chan _
  split
  · exact hdirty.removeNick m.nick
  · exact hdirty

theorem Counted.departRetired (h : Counted t) (a : ReconcileAllocs) (n : Nat) (chan : Bytes)
    (list : List Member) (i : Nat) (m : Member) : Counted (t.departRetired a n chan list i m) := by
  rw [RouteTable.departRetired]
  generalize (decide (t.memberNickOccurrences m.nick = 1) ||
    decide (t.nickNode m.nick = some m.node)) = gone
  have hdrop : Counted ((if gone then (t.removeNick m.nick).2 else t).setRoster chan
      (swapRemove list i)) := by
    refine Counted.setRoster ?_ chan _
    split
    · exact h.removeNick m.nick
    · exact h
  generalize (if gone = true then (t.removeNick m.nick).2 else t).setRoster chan
    (swapRemove list i) = dropped at hdrop ⊢
  split
  · exact hdrop
  rename_i key _
  have hselected := hdrop.index (reselectBestNickKey_frame dropped key (a.index n))
  generalize dropped.reselectBestNickKey key (a.index n) = reselected at hselected ⊢
  simp only
  split
  · split
    · exact hselected
    · exact hselected.setNickLocation _ _ _
  · exact hselected

theorem Counted.removeNode (h : Counted t) (node : NodeId) (a : RouteTable.RemoveAllocs) :
    Counted (t.removeNode node a) := by
  have hkept : HashMap.count (HashMap.keep (fun _ home => home != node) t.nickToNode) ≤
      HashMap.count t.nickToNode := List.length_filter_le _ _
  have hcount := h.count
  refine Counted.index ⟨?_, ?_⟩ (rebuildAllBestNickClaims_frame _ a.rebuild)
  · show t.nickCount - (HashMap.count t.nickToNode - _) = _
    rw [hcount]
    exact Nat.sub_sub_self hkept
  · exact (Nat.sub_le _ _).trans h.bound

end OnyxServer.Undertow
