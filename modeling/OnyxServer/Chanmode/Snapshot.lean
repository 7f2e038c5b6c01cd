import OnyxServer.Chanmode.Echo

/-!
# The full mode string

`writeModeString` renders the whole state as additions in catalog order. States that mode
lines lead to have valid, distinct entries, so the rendering applied to an empty state of the
same capacities finds room for everything and restores it.
-/
namespace OnyxServer.Chanmode

open Lib List

def appendSpec (modes : ChannelModes) (writer : ModeWriter) (spec : ModeSpec) :
    Except ChanModeError ModeWriter :=
  match spec.kind with
  | .listA =>
    ((modes.listFor spec.mode).elim [] ModeList.slice).foldlM
      (fun writer entry => writer.append .add spec.mode (some entry)) writer
  | .paramB =>
    match modes.key with
    | some key => writer.append .add .key (some key)
    | none => .ok writer
  | .paramC =>
    match modes.limit with
    | some limit => writer.append .add .limit (some limit.text)
    | none => .ok writer
  | .flagD => if modes.containsFlag spec.mode then writer.append .add spec.mode none else .ok writer

def writeModeString (modes : ChannelModes) (modeCap paramsCap : Nat) :
    Except ChanModeError SerializedModes :=
  (defaultSpecs.foldlM (appendSpec modes) (ModeWriter.init modeCap paramsCap)).map ModeWriter.finish

namespace View

def specChanges (view : View) (spec : ModeSpec) : List AppliedChange :=
  match spec.kind with
  | .listA => (view.entries spec.mode).map fun entry => ⟨.add, spec.mode, some entry⟩
  | .paramB => view.key.toList.map fun key => ⟨.add, .key, some key⟩
  | .paramC => view.limit.toList.map fun limit => ⟨.add, .limit, some limit.text⟩
  | .flagD => if view.flag spec.mode then [⟨.add, spec.mode, none⟩] else []

def snapshot (view : View) : List AppliedChange := defaultSpecs.flatMap view.specChanges

end View

theorem appendAll_append (writer : ModeWriter) (front back : List AppliedChange) :
    writer.appendAll (front ++ back) = writer.appendAll front >>= fun writer =>
      writer.appendAll back := by
  induction front generalizing writer with
  | nil => rfl
  | cons change front ih =>
    rw [cons_append, ModeWriter.appendAll, ModeWriter.appendAll]
    cases writer.append change.op change.mode change.param with
    | error e => rfl
    | ok writer => exact ih writer

theorem append_eq (writer : ModeWriter) (op : ModeOp) (mode : ChannelMode) (param : Option Bytes) :
    writer.append op mode param = writer.appendAll [⟨op, mode, param⟩] := by
  rw [ModeWriter.appendAll]
  cases writer.append op mode param <;> rfl

theorem foldlM_append (writer : ModeWriter) (mode : ChannelMode) (entries : List Bytes) :
    entries.foldlM (fun writer entry => writer.append .add mode (some entry)) writer =
      writer.appendAll (entries.map fun entry => ⟨.add, mode, some entry⟩) := by
  induction entries generalizing writer with
  | nil => rfl
  | cons entry entries ih =>
    rw [foldlM_cons, map_cons, ModeWriter.appendAll]
    cases writer.append .add mode (some entry) with
    | error e => rfl
    | ok writer => exact ih writer

theorem appendSpec_eq (modes : ChannelModes) (writer : ModeWriter) (spec : ModeSpec) :
    appendSpec modes writer spec = writer.appendAll (modes.view.specChanges spec) := by
  have hkey : modes.view.key = modes.key := rfl
  have hlimit : modes.view.limit = modes.limit := rfl
  rw [appendSpec, View.specChanges, hkey, hlimit]
  cases spec.kind with
  | listA => exact foldlM_append ..
  | paramB =>
    cases modes.key with
    | none => rfl
    | some key => exact append_eq ..
  | paramC =>
    cases modes.limit with
    | none => rfl
    | some limit => exact append_eq ..
  | flagD =>
    show (if modes.containsFlag spec.mode then _ else _) =
      writer.appendAll (if modes.containsFlag spec.mode then _ else _)
    split_ifs
    · exact append_eq ..
    · rfl

theorem writeModeString_eq (modes : ChannelModes) (modeCap paramsCap : Nat) :
    writeModeString modes modeCap paramsCap =
      writeAppliedChanges modes.view.snapshot modeCap paramsCap := by
  rw [writeModeString, writeAppliedChanges, View.snapshot]
  congr 1
  generalize ModeWriter.init modeCap paramsCap = writer
  induction defaultSpecs generalizing writer with
  | nil => rfl
  | cons spec specs ih =>
    rw [foldlM_cons, flatMap_cons, appendAll_append, appendSpec_eq]
    cases writer.appendAll (modes.view.specChanges spec) with
    | error e => rfl
    | ok writer => exact ih writer

/-- From empty storage by mode lines, accepted or not, and by flags set in the record. -/
inductive Reachable : ChannelModes → Prop
  | init (banStorage exemptStorage invexStorage : List Bytes) :
      Reachable (ChannelModes.init banStorage exemptStorage invexStorage)
  | apply {modes : ChannelModes} (h : Reachable modes) (modeString : Bytes) (params : List Bytes)
      (out : List AppliedChange) : Reachable (apply modes modeString params out).1
  | putFlag {modes : ChannelModes} (h : Reachable modes) (mode : ChannelMode) (enabled : Bool) :
      Reachable (modes.putFlag mode enabled)

structure View.Sound (view : View) : Prop where
  nodup : ∀ mode, (view.entries mode).Nodup
  room : ∀ mode, (view.entries mode).length ≤ view.capacity mode
  entry : ∀ mode, ∀ entry ∈ view.entries mode, validateListEntry entry = .ok ()
  key : ∀ key, view.key = some key → validateKey key = .ok ()
  limit : ∀ limit, view.limit = some limit → parseLimit limit.text = .ok limit.value

variable {mode : ChannelMode} {view : View}

theorem View.Sound.setEntries (h : view.Sound) {entries : List Bytes}
    (hnodup : entries.Nodup) (hroom : entries.length ≤ view.capacity mode)
    (hentry : ∀ entry ∈ entries, validateListEntry entry = .ok ()) :
    (view.setEntries mode entries).Sound where
  nodup other := by
    rw [View.setEntries_entries]
    split_ifs
    · exact hnodup
    · exact h.nodup other
  room other := by
    rw [View.setEntries_entries]
    split_ifs with heq
    · exact heq ▸ hroom
    · exact h.room other
  entry other := by
    rw [View.setEntries_entries]
    split_ifs
    · exact hentry
    · exact h.entry other
  key := h.key
  limit := h.limit

theorem step_sound {change : AppliedChange} (hvalid : change.Valid)
    (hroom : ¬ view.Full change) (h : view.Sound) : (view.step change).Sound := by
  cases hkind : kindOf change.mode with
  | listA =>
    obtain ⟨entry, hparam, hcheck⟩ := hvalid.param (by rw [hkind]; rfl)
    rw [hkind] at hcheck
    cases hop : change.op with
    | add =>
      simp only [View.step, hkind, hop, hparam]
      split_ifs with hmem
      · exact h
      have hlt : (view.entries change.mode).length < view.capacity change.mode := by
        by_contra hfull
        exact hroom ⟨hkind, hop, entry, hparam, hmem, Nat.le_of_not_lt hfull⟩
      refine h.setEntries ?_ ?_ ?_
      · exact nodup_append.mpr ⟨h.nodup _, nodup_singleton _, by
          intro a ha b hb
          rw [mem_singleton.mp hb]
          exact fun heq => hmem (heq ▸ ha)⟩
      · rw [length_append]
        exact hlt
      · intro other hother
        rcases mem_append.mp hother with hother | hother
        · exact h.entry _ other hother
        · rw [mem_singleton.mp hother]
          exact hcheck
    | remove =>
      simp only [View.step, hkind, hop, hparam]
      refine h.setEntries ((h.nodup _).erase _) ?_ ?_
      · exact Nat.le_trans length_erase_le (h.room _)
      · exact fun other hother => h.entry _ other (mem_of_mem_erase hother)
  | paramB =>
    obtain ⟨key, hparam, hcheck⟩ := hvalid.param (by rw [hkind]; rfl)
    rw [hkind] at hcheck
    cases hop : change.op with
    | add =>
      simp only [View.step, hkind, hop, hparam]
      exact { h with key := fun other hother => Option.some.inj hother ▸ hcheck }
    | remove =>
      simp only [View.step, hkind, hop]
      exact { h with key := fun other hother => by cases hother }
  | paramC =>
    cases hop : change.op with
    | add =>
      obtain ⟨text, hparam, hcheck⟩ := hvalid.param (by rw [hkind, hop]; rfl)
      rw [hkind] at hcheck
      obtain ⟨value, hvalue⟩ := parseLimit_of_check hcheck
      simp only [View.step, hkind, hop, hparam, hvalue]
      split_ifs
      · exact h
      · exact { h with limit := fun other hother => Option.some.inj hother ▸ hvalue }
    | remove =>
      simp only [View.step, hkind, hop]
      exact { h with limit := fun other hother => by cases hother }
  | flagD =>
    simp only [View.step, hkind]
    exact { h with }

theorem applyEach_sound {changes : List AppliedChange} {modes : ChannelModes}
    (hvalid : ∀ change ∈ changes, change.Valid) (h : modes.view.Sound) :
    (applyEach modes changes).1.view.Sound := by
  induction changes generalizing modes with
  | nil => exact h
  | cons change changes ih =>
    rw [forall_mem_cons] at hvalid
    have heffect : Effect modes change := effect_of_valid hvalid.1
    rcases heffect with ⟨-, hone⟩ | ⟨hroom, changed, modes', hone, hview, -⟩
    · simp only [applyEach, hone]
      exact h
    simp only [applyEach, hone]
    apply ih hvalid.2
    rw [hview]
    exact step_sound hvalid.1 hroom h

theorem init_view (banStorage exemptStorage invexStorage : List Bytes) (mode : ChannelMode) :
    (ChannelModes.init banStorage exemptStorage invexStorage).view.entries mode = [] ∧
      (ChannelModes.init banStorage exemptStorage invexStorage).view.flag mode = false := by
  cases mode <;> exact ⟨rfl, rfl⟩

theorem Reachable.sound {modes : ChannelModes} (h : Reachable modes) : modes.view.Sound := by
  induction h with
  | init banStorage exemptStorage invexStorage =>
    have hentries := fun mode => (init_view banStorage exemptStorage invexStorage mode).1
    constructor
    · intro mode
      rw [hentries]
      exact nodup_nil
    · intro mode
      rw [hentries]
      exact Nat.zero_le _
    · intro mode entry hmem
      rw [hentries] at hmem
      cases hmem
    · exact fun _ hkey => nomatch hkey
    · exact fun _ hlimit => nomatch hlimit
  | @apply modes _ modeString params out ih =>
    rw [Chanmode.apply]
    cases hparse : parse modeString params out with
    | error e => exact ih
    | ok parsed =>
      obtain ⟨len, buffer⟩ := parsed
      obtain ⟨hlen, hvalid⟩ := parse_spec hparse
      dsimp only
      rw [applyParsed_eq modes hlen]
      exact applyEach_sound hvalid ih
  | @putFlag modes _ mode enabled ih =>
    by_cases hkind : kindOf mode = .flagD
    · rw [view_putFlag hkind]
      exact { ih with }
    have hsame : modes.putFlag mode enabled = modes := by
      cases mode <;> first | rfl | exact absurd rfl hkind
    rw [hsame]
    exact ih

theorem mode_of_paramB (h : kindOf mode = .paramB) : mode = .key := by
  cases mode <;> first | rfl | cases h

theorem mode_of_paramC (h : kindOf mode = .paramC) : mode = .limit := by
  cases mode <;> first | rfl | cases h

namespace View

/-- The view with what the given mode stands for taken from another. -/
def settle (target view : View) (spec : ModeSpec) : View :=
  match spec.kind with
  | .listA => view.setEntries spec.mode (target.entries spec.mode)
  | .paramB => { view with key := target.key }
  | .paramC => { view with limit := target.limit }
  | .flagD => view.setFlag spec.mode (target.flag spec.mode)

/-- Nothing is set yet under the given mode. -/
structure Blank (view : View) (spec : ModeSpec) : Prop where
  entries : view.entries spec.mode = []
  key : spec.kind = .paramB → view.key = none
  limit : spec.kind = .paramC → view.limit = none
  flag : view.flag spec.mode = false

end View

theorem fits_append {front back : List AppliedChange} (hfront : view.Fits front)
    (hback : (view.run front).Fits back) : view.Fits (front ++ back) := by
  induction front generalizing view with
  | nil => exact hback
  | cons change front ih => exact ⟨hfront.1, ih hfront.2 hback⟩

theorem run_append (view : View) (front back : List AppliedChange) :
    view.run (front ++ back) = (view.run front).run back := foldl_append

theorem run_entries (hkind : kindOf mode = .listA) (entries : List Bytes)
    (view : View) (hnodup : (view.entries mode ++ entries).Nodup)
    (hroom : (view.entries mode ++ entries).length ≤ view.capacity mode) :
    view.Fits (entries.map fun entry => ⟨.add, mode, some entry⟩) ∧
      view.run (entries.map fun entry => ⟨.add, mode, some entry⟩) =
        view.setEntries mode (view.entries mode ++ entries) := by
  induction entries generalizing view with
  | nil =>
    refine ⟨trivial, ?_⟩
    rw [append_nil, View.setEntries, Function.update_eq_self]
    rfl
  | cons entry entries ih =>
    have hnot : entry ∉ view.entries mode := by
      intro hmem
      exact (nodup_append.mp hnodup).2.2 entry hmem entry mem_cons_self rfl
    have hstep : view.step ⟨.add, mode, some entry⟩ =
        view.setEntries mode (view.entries mode ++ [entry]) := by
      simp only [View.step, hkind, if_neg hnot]
    have hself : (view.setEntries mode (view.entries mode ++ [entry])).entries mode =
        view.entries mode ++ [entry] := by
      rw [View.setEntries_entries, if_pos rfl]
    have happend : view.entries mode ++ entry :: entries =
        (view.entries mode ++ [entry]) ++ entries := by
      rw [append_assoc, singleton_append]
    rw [happend] at hnodup hroom ⊢
    obtain ⟨hfits, hrun⟩ := ih (view.setEntries mode (view.entries mode ++ [entry]))
      (by rwa [hself]) (by rwa [hself])
    refine ⟨⟨?_, by rwa [hstep]⟩, ?_⟩
    · rintro ⟨_, _, other, heq, _, hfull⟩
      rw [length_append, length_append, length_singleton] at hroom
      dsimp only at hfull
      omega
    · rw [map_cons, View.run, foldl_cons, hstep]
      refine hrun.trans ?_
      rw [hself, View.setEntries, View.setEntries, View.setEntries]
      dsimp only
      rw [Function.update_idem]

theorem run_specChanges {view target : View} (htarget : target.Sound) {spec : ModeSpec}
    (hkind : spec.kind = kindOf spec.mode) (hblank : view.Blank spec)
    (hcapacity : view.capacity = target.capacity) :
    view.Fits (target.specChanges spec) ∧
    view.run (target.specChanges spec) = target.settle view spec := by
  rw [View.specChanges, View.settle]
  cases hspec : spec.kind with
  | listA =>
    have hentries := run_entries (hkind.symm.trans hspec) (target.entries spec.mode) view
    rw [hblank.entries, nil_append, hcapacity] at hentries
    exact hentries (htarget.nodup _) (htarget.room _)
  | paramB =>
    cases hkey : target.key with
    | none =>
      refine ⟨trivial, ?_⟩
      show view = { view with key := none }
      rw [← hblank.key hspec]
    | some key => exact ⟨⟨not_full (show kindOf .key ≠ .listA by decide), trivial⟩, rfl⟩
  | paramC =>
    cases hlimit : target.limit with
    | none =>
      refine ⟨trivial, ?_⟩
      show view = { view with limit := none }
      rw [← hblank.limit hspec]
    | some limit =>
      refine ⟨⟨not_full (show kindOf .limit ≠ .listA by decide), trivial⟩, ?_⟩
      show view.step ⟨.add, .limit, some limit.text⟩ = _
      simp only [View.step, kindOf, htarget.limit limit hlimit, hblank.limit hspec]
      rfl
  | flagD =>
    dsimp only
    have hflag : kindOf spec.mode = .flagD := hkind.symm.trans hspec
    split_ifs with hset
    · refine ⟨⟨not_full (by rw [hflag]; decide), trivial⟩, ?_⟩
      rw [hset]
      show view.step ⟨.add, spec.mode, none⟩ = _
      simp only [View.step, hflag]
      rfl
    · refine ⟨trivial, ?_⟩
      rw [Bool.eq_false_of_not_eq_true hset, View.setFlag, ← hblank.flag, Function.update_eq_self]
      rfl

/-- What one line of the catalog sets is not what another one sets. -/
theorem settle_blank {view target : View} {spec other : ModeSpec}
    (hkind : spec.kind = kindOf spec.mode) (hother : other.kind = kindOf other.mode)
    (hne : other.mode ≠ spec.mode) (h : view.Blank other) :
    (target.settle view spec).Blank other := by
  have hunique : ∀ kind, (kind = .paramB ∨ kind = .paramC) → spec.kind = kind →
      other.kind ≠ kind := by
    intro kind hparam hspec heq
    apply hne
    rw [hkind] at hspec
    rw [hother] at heq
    rcases hparam with rfl | rfl
    · exact (mode_of_paramB heq).trans (mode_of_paramB hspec).symm
    · exact (mode_of_paramC heq).trans (mode_of_paramC hspec).symm
  rw [View.settle]
  cases hspec : spec.kind with
  | listA =>
    refine { h with entries := ?_ }
    rw [View.setEntries_entries, if_neg hne]
    exact h.entries
  | paramB => exact { h with key := fun heq => absurd heq (hunique _ (.inl rfl) hspec) }
  | paramC => exact { h with limit := fun heq => absurd heq (hunique _ (.inr rfl) hspec) }
  | flagD =>
    refine { h with flag := ?_ }
    rw [View.setFlag_flag, if_neg hne]
    exact h.flag

theorem settle_capacity (target view : View) (spec : ModeSpec) :
    (target.settle view spec).capacity = view.capacity := by
  rw [View.settle]
  cases spec.kind <;> rfl

theorem run_specs {target : View} (htarget : target.Sound) {specs : List ModeSpec}
    (hmodes : (specs.map ModeSpec.mode).Nodup)
    (hkinds : ∀ spec ∈ specs, spec.kind = kindOf spec.mode)
    (hblank : ∀ spec ∈ specs, view.Blank spec) (hcapacity : view.capacity = target.capacity) :
    view.Fits (specs.flatMap target.specChanges) ∧
      view.run (specs.flatMap target.specChanges) = specs.foldl target.settle view := by
  induction specs generalizing view with
  | nil => exact ⟨trivial, rfl⟩
  | cons spec specs ih =>
    rw [map_cons, nodup_cons] at hmodes
    rw [forall_mem_cons] at hkinds hblank
    obtain ⟨hfits, hrun⟩ := run_specChanges htarget hkinds.1 hblank.1 hcapacity
    have hrest : ∀ other ∈ specs, (target.settle view spec).Blank other := by
      intro other hmem
      refine settle_blank hkinds.1 (hkinds.2 other hmem) (fun heq => hmodes.1 ?_)
        (hblank.2 other hmem)
      rw [← heq]
      exact mem_map_of_mem hmem
    obtain ⟨hfits', hrun'⟩ :=
      ih hmodes.2 hkinds.2 hrest ((settle_capacity ..).trans hcapacity)
    rw [flatMap_cons, run_append, hrun]
    exact ⟨fits_append hfits (hrun ▸ hfits'), hrun'⟩

/-- The snapshot of a state, applied to empty lists of the same capacities, restores it. -/
theorem run_snapshot {modes empty : ChannelModes} (hsound : modes.view.Sound)
    (hentries : ∀ mode, empty.view.entries mode = [])
    (hflag : ∀ mode, empty.view.flag mode = false) (hkey : empty.key = none)
    (hlimit : empty.limit = none) (hcapacity : empty.view.capacity = modes.view.capacity) :
    empty.view.Fits modes.view.snapshot ∧ empty.view.run modes.view.snapshot = modes.view := by
  obtain ⟨hfits, hrun⟩ := run_specs hsound (by decide : (defaultSpecs.map ModeSpec.mode).Nodup)
    (by decide) (fun spec _ => ⟨hentries _, fun _ => hkey, fun _ => hlimit, hflag _⟩) hcapacity
  refine ⟨hfits, hrun.trans ?_⟩
  have hlists : (defaultSpecs.foldl modes.view.settle empty.view).entries = modes.view.entries := by
    funext mode
    cases mode <;> rfl
  have hflags : (defaultSpecs.foldl modes.view.settle empty.view).flag = modes.view.flag := by
    funext mode
    cases mode <;> rfl
  exact View.mk.injEq .. ▸ ⟨hlists, hcapacity, rfl, rfl, hflags⟩

theorem snapshot_valid (h : view.Sound) : ∀ change ∈ view.snapshot, change.Valid := by
  intro change hmem
  obtain ⟨spec, hspec, hchange⟩ := mem_flatMap.mp hmem
  have hkinds : ∀ spec ∈ defaultSpecs, spec.kind = kindOf spec.mode := by decide
  have hkind := hkinds spec hspec
  rw [View.specChanges] at hchange
  cases hcase : spec.kind with
  | listA =>
    rw [hcase] at hchange hkind
    obtain ⟨entry, hentry, rfl⟩ := mem_map.mp hchange
    rw [AppliedChange.Valid, ← hkind]
    exact ⟨entry, rfl, h.entry _ entry hentry⟩
  | paramB =>
    rw [hcase] at hchange
    obtain ⟨key, hkey, rfl⟩ := mem_map.mp hchange
    exact ⟨key, rfl, h.key key (Option.mem_toList.mp hkey)⟩
  | paramC =>
    rw [hcase] at hchange
    obtain ⟨limit, hlimit, rfl⟩ := mem_map.mp hchange
    refine ⟨limit.text, rfl, ?_⟩
    show (parseLimit limit.text).map _ = _
    rw [h.limit limit (Option.mem_toList.mp hlimit)]
    rfl
  | flagD =>
    rw [hcase] at hchange hkind
    dsimp only at hchange
    split_ifs at hchange
    · rw [mem_singleton.mp hchange, AppliedChange.Valid, ← hkind]
      rfl
    · cases hchange

/-- The echo of a line does again what the line did, and the full mode string of a state
restores it in an empty one. -/
theorem echoes_reproduce_state :
    (∀ modes modes' modeString params out kept,
      apply modes modeString params out = (modes', .ok kept) → kept ≠ [] →
      ∀ modeCap paramsCap (out' : List AppliedChange), 2 * kept.length ≤ modeCap →
        kept.length ≤ paramsCap → kept.length ≤ out'.length →
        ∃ echo, writeAppliedChanges kept modeCap paramsCap = .ok echo ∧
          apply modes echo.modeString echo.params out' = (modes', .ok kept)) ∧
    ∀ modes, Reachable modes → ∀ banStorage exemptStorage invexStorage : List Bytes,
      banStorage.length = modes.bans.entries.length →
      exemptStorage.length = modes.exempts.entries.length →
      invexStorage.length = modes.invexes.entries.length →
      modes.view ≠ (ChannelModes.init banStorage exemptStorage invexStorage).view →
      ∀ modeCap paramsCap (out : List AppliedChange), 2 * modes.view.snapshot.length ≤ modeCap →
        modes.view.snapshot.length ≤ paramsCap → modes.view.snapshot.length ≤ out.length →
        ∃ echo modes' kept, writeModeString modes modeCap paramsCap = .ok echo ∧
          apply (ChannelModes.init banStorage exemptStorage invexStorage) echo.modeString
            echo.params out =
            (modes', .ok kept) ∧ modes'.view = modes.view := by
  constructor
  · intro modes modes' modeString params out kept happly hchanged modeCap paramsCap out' hmode
      hparams hroom
    exact ⟨_, writeAppliedChanges_ok hmode hparams, apply_echo happly hchanged hroom⟩
  · intro modes hreachable banStorage exemptStorage invexStorage hbans hexempts hinvexes hdefault
      modeCap paramsCap out hmode hparams hroom
    have hsound := hreachable.sound
    have hcapacity : (ChannelModes.init banStorage exemptStorage invexStorage).view.capacity =
        modes.view.capacity := by
      funext mode
      cases mode <;> first | rfl | assumption
    obtain ⟨hfits, hrun⟩ := run_snapshot hsound
      (fun mode => (init_view banStorage exemptStorage invexStorage mode).1)
      (fun mode => (init_view banStorage exemptStorage invexStorage mode).2) rfl rfl hcapacity
    have hvalid := snapshot_valid hsound
    have hchanged : modes.view.snapshot ≠ [] := by
      intro hnil
      rw [hnil] at hrun
      exact hdefault hrun.symm
    obtain ⟨kept, hkept, hstate⟩ := applyEach_fits hvalid hfits
    refine ⟨⟨letters none modes.view.snapshot, paramsOf modes.view.snapshot⟩, _, kept, ?_, ?_,
      hstate.trans hrun⟩
    · rw [writeModeString_eq]
      exact writeAppliedChanges_ok hmode hparams
    · rw [apply_letters hvalid hchanged hroom, ← hkept]

def roomForBans : ChannelModes := ChannelModes.init [[], []] [[]] []

/-- The line `+bbbekln-i a b a c p 5`: the third ban and the removal of `i` change nothing. -/
def guardLine : Bytes := [plusSign, 0x62, 0x62, 0x62, 0x65, 0x6B, 0x6C, 0x6E, minusSign, 0x69]

def guardParams : List Bytes := [[0x61], [0x62], [0x61], [0x63], [0x70], [0x35]]

def guardKept : List AppliedChange :=
  [⟨.add, .ban, some [0x61]⟩, ⟨.add, .ban, some [0x62]⟩, ⟨.add, .exempt, some [0x63]⟩,
    ⟨.add, .key, some [0x70]⟩, ⟨.add, .limit, some [0x35]⟩, ⟨.add, .noExternal, none⟩]

def changeRoom : List AppliedChange := List.replicate 8 ⟨.add, .ban, none⟩

def guardedModes : ChannelModes := (apply roomForBans guardLine guardParams changeRoom).1

theorem echoes_reproduce_state_ban :
    (∃ echo, writeAppliedChanges guardKept 12 6 = .ok echo ∧
      apply roomForBans echo.modeString echo.params changeRoom =
        (guardedModes, .ok guardKept)) ∧
    ∃ echo modes' kept, writeModeString guardedModes 12 6 = .ok echo ∧
      apply roomForBans echo.modeString echo.params changeRoom = (modes', .ok kept) ∧
        modes'.view = guardedModes.view := by
  constructor
  · exact echoes_reproduce_state.1 roomForBans guardedModes guardLine guardParams changeRoom
      guardKept rfl (by decide) 12 6 _ (by decide) (by decide) (by decide)
  · refine echoes_reproduce_state.2 guardedModes (.apply (.init [[], []] [[]] []) _ _ _) [[], []]
      [[]] [] rfl rfl rfl ?_ 12 6 _ (by decide) (by decide) (by decide)
    intro h
    have hbans := congrArg (fun view => view.entries .ban) h
    exact absurd hbans (by decide)

end OnyxServer.Chanmode
