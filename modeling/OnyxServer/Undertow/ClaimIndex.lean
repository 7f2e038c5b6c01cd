import Mathlib.Data.List.MinMax
import OnyxServer.Undertow.Rows

/-!
# The claim index

The index keeps for every nick the best claim among the rows, or it is dirty and not
read. An operation that adds or raises a claim notes it; one that takes claims away
reselects their keys or rebuilds the index.
-/
namespace OnyxServer.Undertow

open Lib Text List Option

variable {t t' : RouteTable} {key : NickKey} {claim : NickClaim} {rows rows' : List Member}
  {stale touched : NickKey → Prop}

theorem bestRow_eq_argmax (rows : List Member) :
    bestRow rows = rows.argmax fun m => m.claim.priority := by
  have hstep : (fun (best : Option Member) member =>
      if best.all fun row => higherPriority member.claim row.claim then some member else best) =
      List.argAux fun b c : Member => c.claim.priority < b.claim.priority := by
    funext best member
    cases best with
    | none => rfl
    | some row => simp [List.argAux]
  rw [bestRow, hstep]
  rfl

/-- Some row makes the claim to the nick. -/
def Claims (rows : List Member) (key : NickKey) (claim : NickClaim) : Prop :=
  ∃ m ∈ rows, nickKey m.nick = some key ∧ m.claim = claim

/-- Some row has the nick, ignoring case, and makes the claim. -/
def ClaimsNick (rows : List Member) (nick : Bytes) (claim : NickClaim) : Prop :=
  ∃ m ∈ rows, lowerString m.nick = lowerString nick ∧ m.claim = claim

/-- The best row of a selection makes the latest of its claims. -/
theorem bestRow_claim (p : Member → Bool) (rows : List Member) (claim : NickClaim) :
    (bestRow (rows.filter p)).map Member.claim = some claim ↔
      Latest NickClaim.priority (fun c => ∃ m ∈ rows, p m = true ∧ m.claim = c) claim := by
  have hbest : ∀ m, bestRow (rows.filter p) = some m →
      Latest NickClaim.priority (fun c => ∃ m ∈ rows, p m = true ∧ m.claim = c) m.claim := by
    intro m hm
    rw [bestRow_eq_argmax] at hm
    obtain ⟨hmem, hp⟩ := mem_filter.mp (argmax_mem hm)
    refine ⟨⟨m, hmem, hp, rfl⟩, ?_⟩
    rintro _ ⟨r, hr, hpr, rfl⟩
    exact le_of_mem_argmax (f := fun m : Member => m.claim.priority) (mem_filter.mpr ⟨hr, hpr⟩) hm
  constructor
  · intro h
    obtain ⟨m, hm, rfl⟩ := Option.map_eq_some_iff.mp h
    exact hbest m hm
  · intro h
    cases hm : bestRow (rows.filter p) with
    | none =>
      obtain ⟨r, hr, hpr, -⟩ := h.mem
      rw [bestRow_eq_argmax, argmax_eq_none] at hm
      exact absurd (mem_filter.mpr ⟨hr, hpr⟩) (hm ▸ not_mem_nil)
    | some m => exact congrArg some (priority_inj ((hbest m hm).rank_eq h))

theorem bestRow_no_claim (p : Member → Bool) (rows : List Member) :
    (bestRow (rows.filter p)).map Member.claim = none ↔
      ∀ claim, ¬ ∃ m ∈ rows, p m = true ∧ m.claim = claim := by
  rw [Option.map_eq_none_iff, bestRow_eq_argmax, argmax_eq_none, filter_eq_nil_iff]
  constructor
  · rintro h claim ⟨m, hm, hp, -⟩
    exact h m hm hp
  · exact fun h m hm hp => h m.claim ⟨m, hm, hp, rfl⟩

theorem scanned_none : t.scannedBestNickKey key = none ↔ ∀ claim, ¬ Claims t.rows key claim := by
  rw [RouteTable.scannedBestNickKey, RouteTable.rowsOfKey, bestRow_no_claim]
  simp only [decide_eq_true_eq]
  exact Iff.rfl

theorem projected_none (nick : Bytes) : t.projectedIdentityNickClaim nick = none ↔
    ∀ claim, ¬ ClaimsNick t.rows nick claim := by
  rw [RouteTable.projectedIdentityNickClaim, RouteTable.identityNickClaim, Option.map_map,
    RouteTable.rowsNamed]
  show (bestRow _).map Member.claim = _ ↔ _
  rw [bestRow_no_claim]
  simp only [eqlIgnoreCase_iff]
  exact Iff.rfl

theorem scanned_some : t.scannedBestNickKey key = some claim ↔
    Latest NickClaim.priority (Claims t.rows key) claim := by
  rw [RouteTable.scannedBestNickKey, RouteTable.rowsOfKey, bestRow_claim]
  simp only [decide_eq_true_eq]
  exact Iff.rfl

theorem projected_some (nick : Bytes) : t.projectedIdentityNickClaim nick = some claim ↔
    Latest NickClaim.priority (ClaimsNick t.rows nick) claim := by
  rw [RouteTable.projectedIdentityNickClaim, RouteTable.identityNickClaim, Option.map_map,
    RouteTable.rowsNamed]
  show (bestRow _).map Member.claim = _ ↔ _
  rw [bestRow_claim]
  simp only [eqlIgnoreCase_iff]
  exact Iff.rfl

/-- Scans of rows that make the same claims agree. -/
theorem scanned_congr (h : ∀ c, Claims t.rows key c ↔ Claims t'.rows key c) :
    t.scannedBestNickKey key = t'.scannedBestNickKey key := by
  apply Option.ext
  intro c
  rw [scanned_some, scanned_some]
  exact ⟨fun hc => hc.congr fun z => (h z).symm, fun hc => hc.congr h⟩

/-- The index is dirty, or exact for every key that is not stale. -/
def IndexOk (stale : NickKey → Prop) (t : RouteTable) : Prop :=
  t.claimIndexDirty = true ∨
    ∀ key, ¬ stale key → t.bestNickClaims.lookup key = t.scannedBestNickKey key

/-- The index is dirty or exact. -/
abbrev Exact (t : RouteTable) : Prop := IndexOk (fun _ => False) t

/-- The rows make the same claims to every nick that is not touched. -/
def SameClaims (touched : NickKey → Prop) (rows rows' : List Member) : Prop :=
  ∀ key, ¬ touched key → ∀ c, Claims rows key c ↔ Claims rows' key c

theorem sameClaims_of_mem (h : ∀ m, m ∈ rows ↔ m ∈ rows') : SameClaims touched rows rows' :=
  fun _ _ _ => exists_congr fun m => and_congr_left' (h m)

theorem IndexOk.mono (h : IndexOk stale t) (hsub : ∀ key, stale key → touched key) :
    IndexOk touched t :=
  h.imp_right fun hexact key hkey => hexact key fun hstale => hkey (hsub key hstale)

section

variable (h : IndexOk stale t) (hclaims : t'.bestNickClaims = t.bestNickClaims)
variable (hdirty : t'.claimIndexDirty = t.claimIndexDirty)
include h hclaims hdirty

/-- The rows changed, the index did not. -/
theorem IndexOk.changed
    (hrows : SameClaims touched t.rows t'.rows) :
    IndexOk (fun key => stale key ∨ touched key) t' := by
  refine Or.imp (hdirty.trans ·) (fun hexact key hkey => ?_) h
  rw [hclaims, hexact key fun hstale => hkey (.inl hstale)]
  exact scanned_congr (hrows key fun htouched => hkey (.inr htouched))

/-- The rows make the same claims, and the index did not change. -/
theorem IndexOk.same (hrows : ∀ m, m ∈ t.rows ↔ m ∈ t'.rows) :
    IndexOk stale t' :=
  (h.changed hclaims hdirty (sameClaims_of_mem hrows : SameClaims (fun _ => False) _ _)).mono
    fun _ hkey => hkey.elim id False.elim

end

section

variable (h : IndexOk stale t)
include h

theorem IndexOk.routes (hframe : RoutesOnly t t') : IndexOk stale t' :=
  h.same hframe.claims hframe.dirty fun m =>
    (mem_rows_congr (roster_congr hframe.members) m).symm

theorem IndexOk.alike (hframe : Alike t t') : IndexOk stale t' :=
  h.same hframe.claims hframe.dirty fun m => (mem_rows_congr hframe.roster m).symm

/-! ## Reselecting, noting and rebuilding -/

/-- A reselected key is exact. -/
theorem IndexOk.reselect (key : NickKey) (alloc : Bool) :
    IndexOk (fun k => stale k ∧ k ≠ key) (t.reselectBestNickKey key alloc) := by
  rw [RouteTable.reselectBestNickKey]
  rcases h with hdirty | hexact
  · rw [if_pos hdirty]
    exact .inl hdirty
  split
  · rename_i hdirty
    exact .inl hdirty
  have hother : ∀ k, ¬ (stale k ∧ k ≠ key) → k ≠ key →
      t.bestNickClaims.lookup k = t.scannedBestNickKey k :=
    fun k hk hne => hexact k fun hstale => hk ⟨hstale, hne⟩
  have hinsert : ∀ claim, t.scannedBestNickKey key = some claim →
      IndexOk (fun k => stale k ∧ k ≠ key)
        { t with bestNickClaims := t.bestNickClaims.insert key claim } := by
    refine fun claim hscan => .inr fun k hk => ?_
    show (t.bestNickClaims.insert key claim).lookup k = t.scannedBestNickKey k
    rw [HashMap.lookup_insert_eq]
    split
    · rename_i heq
      rw [heq, hscan]
    · rename_i hne
      exact hother k hk hne
  cases hscan : t.scannedBestNickKey key with
  | some claim =>
    simp only
    split
    · exact hinsert claim hscan
    · split
      · exact .inl rfl
      · exact hinsert claim hscan
  | none =>
    refine .inr fun k hk => ?_
    show (t.bestNickClaims.erase key).lookup k = t.scannedBestNickKey k
    rw [HashMap.lookup_erase_eq]
    split
    · rename_i heq
      rw [heq, hscan]
    · rename_i hne
      exact hother k hk hne

theorem IndexOk.reselectNick (nick : Bytes) (alloc : Bool) :
    IndexOk (fun k => stale k ∧ nickKey nick ≠ some k) (t.reselectNick nick alloc) := by
  rw [RouteTable.reselectNick]
  split
  · rename_i hkey
    exact h.mono fun k hk => ⟨hk, by simp [hkey]⟩
  · rename_i key hkey
    refine (h.reselect key alloc).mono fun k hk => ⟨hk.1, fun heq => hk.2 ?_⟩
    exact (some.inj (hkey.symm.trans heq)).symm

theorem IndexOk.reselectTwo (old new : Bytes) (index indexNew : Bool) :
    IndexOk (fun k => stale k ∧ nickKey old ≠ some k ∧ nickKey new ≠ some k)
      (t.reselectTwo old new index indexNew) := by
  rw [RouteTable.reselectTwo]
  have hold := h.reselectNick old index
  split
  · rename_i hsame
    exact hold.mono fun k hk => ⟨hk.1, hk.2, hsame ▸ hk.2⟩
  · exact (hold.reselectNick new indexNew).mono fun k hk => ⟨hk.1.1, hk.1.2, hk.2⟩

end

/-- One claim was added, or took the place of a lower one. -/
structure Raised (nick : Bytes) (claim : NickClaim) (rows rows' : List Member) : Prop where
  other : SameClaims (fun key => nickKey nick = some key) rows rows'
  mem : ∀ key, nickKey nick = some key → Claims rows' key claim
  new : ∀ key, nickKey nick = some key → ∀ c, Claims rows' key c → c = claim ∨ Claims rows key c
  kept : ∀ key, nickKey nick = some key → ∀ c, Claims rows key c →
    Claims rows' key c ∨ c.priority < claim.priority

variable {nick : Bytes}

/-- What the scan finds after a claim was raised. -/
theorem Raised.scanned (h : Raised nick claim t.rows t'.rows)
    (hkey : nickKey nick = some key) :
    t'.scannedBestNickKey key =
      match t.scannedBestNickKey key with
      | none => some claim
      | some current => if higherPriority claim current then some claim else some current := by
  cases hscan : t.scannedBestNickKey key with
  | none =>
    have hblank := scanned_none.mp hscan
    rw [scanned_some]
    refine ⟨h.mem key hkey, fun c hc => ?_⟩
    rcases h.new key hkey c hc with rfl | hold
    · exact le_refl _
    · exact absurd hold (hblank c)
  | some current =>
    have hlatest := scanned_some.mp hscan
    simp only
    split
    · rename_i hhigher
      rw [scanned_some]
      refine ⟨h.mem key hkey, fun c hc => ?_⟩
      rcases h.new key hkey c hc with rfl | hold
      · exact le_refl _
      · exact (hlatest.max c hold).trans (higherPriority_iff.mp hhigher).le
    · rename_i hlower
      have hle := not_lt.mp (mt higherPriority_iff.mpr hlower)
      rw [scanned_some]
      refine ⟨(h.kept key hkey current hlatest.mem).resolve_right (not_lt.mpr hle), fun c hc => ?_⟩
      rcases h.new key hkey c hc with rfl | hold
      · exact hle
      · exact hlatest.max c hold

/-- The noted claim keeps the index exact for the rows that the claim was raised in. -/
theorem Exact.note (h : Exact t) (hclaims : t'.bestNickClaims = t.bestNickClaims)
    (hdirty : t'.claimIndexDirty = t.claimIndexDirty) (hraised : Raised nick claim t.rows t'.rows)
    (alloc : Bool) : Exact (t'.noteBestNickClaim nick claim alloc) := by
  rw [RouteTable.noteBestNickClaim]
  rcases h with hd | hexact
  · have hd' := hdirty.trans hd
    split
    · exact .inl hd'
    · rw [if_pos hd']
      exact .inl hd'
  have hother : ∀ k, nickKey nick ≠ some k →
      t'.bestNickClaims.lookup k = t'.scannedBestNickKey k := by
    intro k hk
    rw [hclaims, hexact k id]
    exact scanned_congr (hraised.other k hk)
  cases hkey : nickKey nick with
  | none => exact .inr fun k _ => hother k (by simp [hkey])
  | some key =>
    have hscan := hraised.scanned hkey
    have hinsert : t'.scannedBestNickKey key = some claim →
        Exact { t' with bestNickClaims := t'.bestNickClaims.insert key claim } := by
      refine fun hscan' => .inr fun k _ => ?_
      show (t'.bestNickClaims.insert key claim).lookup k = t'.scannedBestNickKey k
      rw [HashMap.lookup_insert_eq]
      split
      · rename_i heq
        rw [heq, hscan']
      · rename_i hne
        exact hother k fun heq => hne (some.inj (hkey.symm.trans heq)).symm
    rw [← hexact key id, ← hclaims] at hscan
    simp only
    split
    · rename_i hd
      exact .inl hd
    cases hcur : t'.bestNickClaims.lookup key with
    | some current =>
      rw [hcur] at hscan
      simp only at hscan ⊢
      by_cases hhigher : higherPriority claim current = true
      · rw [if_pos hhigher] at hscan ⊢
        exact hinsert hscan
      rw [if_neg hhigher] at hscan ⊢
      refine .inr fun k _ => ?_
      by_cases heq : k = key
      · rw [heq, hcur, hscan]
      · exact hother k fun h => heq (some.inj (hkey.symm.trans h)).symm
    | none =>
      rw [hcur] at hscan
      simp only at hscan ⊢
      split
      · exact .inl rfl
      · exact hinsert hscan

/-- The map holds the best claims of the rows seen so far. -/
structure Folded (seen : List Member) (claims : HashMap NickKey NickClaim) : Prop where
  best : ∀ key claim, claims.lookup key = some claim →
    Latest NickClaim.priority (Claims seen key) claim
  blank : ∀ key, claims.lookup key = none → ∀ claim, ¬ Claims seen key claim

theorem claims_cons {m : Member} {seen : List Member} (hkey : nickKey m.nick = some key) :
    Claims (m :: seen) key claim ↔ claim = m.claim ∨ Claims seen key claim := by
  simp only [Claims, mem_cons]
  constructor
  · rintro ⟨r, rfl | hr, hrkey, rfl⟩
    · exact .inl rfl
    · exact .inr ⟨r, hr, hrkey, rfl⟩
  · rintro (rfl | ⟨r, hr, hrkey, rfl⟩)
    · exact ⟨m, .inl rfl, hkey, rfl⟩
    · exact ⟨r, .inr hr, hrkey, rfl⟩

theorem claims_cons_other {m : Member} {seen : List Member} (hkey : nickKey m.nick ≠ some key) :
    Claims (m :: seen) key claim ↔ Claims seen key claim := by
  simp only [Claims, mem_cons]
  constructor
  · rintro ⟨r, rfl | hr, hrkey, rfl⟩
    · exact absurd hrkey hkey
    · exact ⟨r, hr, hrkey, rfl⟩
  · rintro ⟨r, hr, hrkey, rfl⟩
    exact ⟨r, .inr hr, hrkey, rfl⟩

variable {seen : List Member} {claims : HashMap NickKey NickClaim} {m : Member}

/-- A row that changes at most the slot of its own key. -/
theorem Folded.cons (h : Folded seen claims) {claims' : HashMap NickKey NickClaim}
    (hother : ∀ key, nickKey m.nick ≠ some key → claims'.lookup key = claims.lookup key)
    (hown : ∀ key, nickKey m.nick = some key → ∃ best, claims'.lookup key = some best ∧
      Latest NickClaim.priority (Claims (m :: seen) key) best) : Folded (m :: seen) claims' := by
  constructor
  · intro key best hbest
    by_cases hkey : nickKey m.nick = some key
    · obtain ⟨b, hb, hlatest⟩ := hown key hkey
      rwa [some.inj (hbest.symm.trans hb)]
    · rw [hother key hkey] at hbest
      exact (h.best key best hbest).congr fun z => claims_cons_other hkey
  · intro key hnone c
    by_cases hkey : nickKey m.nick = some key
    · obtain ⟨b, hb, -⟩ := hown key hkey
      rw [hb] at hnone
      cases hnone
    · rw [hother key hkey] at hnone
      rw [claims_cons_other hkey]
      exact h.blank key hnone c

theorem Folded.insert (h : Folded seen claims) (hkey : nickKey m.nick = some key)
    (hmax : ∀ c, Claims seen key c → c.priority ≤ m.claim.priority) :
    Folded (m :: seen) (claims.insert key m.claim) := by
  refine h.cons (fun k hk => ?_) fun k hk => ?_
  · exact AList.lookup_insert_ne fun heq => hk (heq ▸ hkey)
  · obtain rfl : key = k := some.inj (hkey.symm.trans hk)
    exact ⟨_, AList.lookup_insert _, (Latest.replace hmax).congr fun z => claims_cons hkey⟩

theorem Folded.keep (h : Folded seen claims) (hkey : nickKey m.nick = some key)
    {current : NickClaim} (hcur : claims.lookup key = some current)
    (hle : m.claim.priority ≤ current.priority) : Folded (m :: seen) claims := by
  refine h.cons (fun _ _ => rfl) fun k hk => ?_
  obtain rfl : key = k := some.inj (hkey.symm.trans hk)
  exact ⟨_, hcur, ((h.best key current hcur).keep hle).congr fun z => claims_cons hkey⟩

/-- A pass that reaches the end holds the best claims of all rows. -/
theorem refold_folded {maxNicks : Nat} {alloc : Nat → Bool} (rows : List Member)
    (h : Folded seen claims) (hdone : (refold maxNicks alloc rows claims).1 = true) :
    Folded (rows.reverse ++ seen) (refold maxNicks alloc rows claims).2 := by
  induction rows generalizing seen claims with
  | nil => exact h
  | cons m rows ih =>
    rw [reverse_cons, append_assoc]
    rw [refold] at hdone ⊢
    cases hkey : nickKey m.nick with
    | none =>
      simp only [hkey] at hdone ⊢
      refine ih (h.cons (fun _ _ => rfl) fun key hk => ?_) hdone
      rw [hkey] at hk
      cases hk
    | some key =>
      simp only [hkey] at hdone ⊢
      cases hcur : claims.lookup key with
      | some current =>
        have hlatest := h.best key current hcur
        simp only [hcur] at hdone ⊢
        by_cases hhigher : higherPriority m.claim current = true
        · rw [if_pos hhigher] at hdone ⊢
          exact ih (h.insert hkey fun c hc =>
            (hlatest.max c hc).trans (higherPriority_iff.mp hhigher).le) hdone
        · rw [if_neg hhigher] at hdone ⊢
          exact ih (h.keep hkey hcur (not_lt.mp (mt higherPriority_iff.mpr hhigher))) hdone
      | none =>
        simp only [hcur] at hdone ⊢
        by_cases hfull : maxNicks ≤ claims.count ∨ (!alloc claims.count) = true
        · rw [if_pos hfull] at hdone
          cases hdone
        · rw [if_neg hfull] at hdone ⊢
          exact ih (h.insert hkey fun c hc => absurd hc (h.blank key hcur c)) hdone

theorem exact_rebuild (t : RouteTable) (alloc : Nat → Bool) :
    Exact (t.rebuildAllBestNickClaims alloc) := by
  rw [RouteTable.rebuildAllBestNickClaims]
  have hblank : Folded [] (∅ : HashMap NickKey NickClaim) := by
    refine ⟨fun key c h => ?_, fun key _ c h => ?_⟩
    · cases h
    · obtain ⟨m, hm, -⟩ := h
      exact not_mem_nil hm
  cases hdone : (refold t.cfg.maxNicks alloc t.rows ∅).1 with
  | false => exact .inl (congrArg (!·) hdone)
  | true =>
    have hfolded := refold_folded t.rows hblank hdone
    refine .inr fun key _ => ?_
    have hclaims : ∀ c, Claims (t.rows.reverse ++ []) key c ↔ Claims t.rows key c := fun c => by
      simp [Claims]
    apply Option.ext
    intro c
    rw [scanned_some]
    show (refold t.cfg.maxNicks alloc t.rows ∅).2.lookup key = some c ↔
      Latest _ (Claims t.rows key) c
    constructor
    · exact fun h => (hfolded.best key c h).congr fun z => (hclaims z).symm
    · intro h
      cases hlookup : (refold t.cfg.maxNicks alloc t.rows ∅).2.lookup key with
      | none => exact absurd ((hclaims c).mpr h.mem) (hfolded.blank key hlookup c)
      | some best =>
        have hbest := (hfolded.best key best hlookup).congr fun z => (hclaims z).symm
        exact congrArg some (priority_inj (hbest.rank_eq h))

theorem Exact.rebuildIfDirty (h : Exact t) (alloc : Nat → Bool) :
    Exact (t.rebuildIfDirty alloc) := by
  rw [RouteTable.rebuildIfDirty]
  split
  · exact exact_rebuild t alloc
  · exact h

theorem lower_of_nickKey (h : nickKey nick = some key) (other : Bytes) :
    nickKey other = some key ↔ lowerString other = lowerString nick := by
  rw [nickKey] at h ⊢
  split_ifs at h with hbound
  rw [← some.inj h]
  constructor
  · intro hother
    split_ifs at hother
    · exact some.inj hother
  · intro hlower
    have hlength : other.length = nick.length := by
      rw [← lowerString_length other, hlower, lowerString_length]
    rw [hlength, if_neg hbound, hlower]

/-- What an exact index answers is what a scan of all rosters finds. -/
theorem Exact.bestNickClaim_eq (h : Exact t) (nick : Bytes) :
    t.bestNickClaim nick = t.projectedIdentityNickClaim nick := by
  rw [RouteTable.bestNickClaim]
  cases hkey : nickKey nick with
  | none => rfl
  | some key =>
    have hscan : t.scannedBestNickKey key = t.projectedIdentityNickClaim nick := by
      apply Option.ext
      intro c
      rw [scanned_some, projected_some]
      have hclaims : ∀ c, ClaimsNick t.rows nick c ↔ Claims t.rows key c := fun c => by
        simp only [ClaimsNick, Claims, lower_of_nickKey hkey]
      exact ⟨fun h => h.congr hclaims, fun h => h.congr fun z => (hclaims z).symm⟩
    simp only
    split
    · exact hscan
    · rename_i hclean
      rw [h.resolve_left hclean key id]
      exact hscan

end OnyxServer.Undertow
