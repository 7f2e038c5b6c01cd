import OnyxServer.IrcLine.Params
import OnyxServer.IrcLine.Tags

/-!
# The parser accepts its grammar

The three sections of a line are read one after the other, each from where the last one
ended. A line is accepted exactly if it is the rendering of valid fields, and those are the
fields it yields.
-/
namespace OnyxServer.IrcLine

open Lib List Option

/-! ## Tags, prefix, command -/

/-- The view after the tag section. -/
structure TagsRead (view view' : LineView) (read : List TagView) : Prop where
  tags : view'.tags = read
  params : view'.params = view.params
  trailing : view'.trailing = view.trailing
  prefixRaw : view'.prefixRaw = view.prefixRaw
  raw : view'.raw = view.raw
  tagsRaw : view'.tagsRaw = if read = [] then view.tagsRaw else some (atSign :: tagsText read)

variable {view view' : LineView} {tags : List TagView}

theorem AddsTags.read {text : Option Bytes}
    (hview : view.tags = []) (htags : tags ≠ []) (htext : text = some (atSign :: tagsText tags))
    (h : AddsTags { view with tagsRaw := text } view' tags) : TagsRead view view' tags where
  tags := by
    rw [h.tags]
    show view.tags ++ tags = tags
    rw [hview, nil_append]
  params := h.params
  trailing := h.trailing
  prefixRaw := h.prefixRaw
  raw := h.raw
  tagsRaw := by rw [if_neg htags, h.tagsRaw, htext]

variable {rest : Bytes}

theorem parseTagSection_at {raw : Bytes} (hraw : space ∉ raw) (n : Nat)
    (hrest : rest.head? ≠ some space) (view : LineView) :
    parseTagSection (atSign :: (raw ++ (spaces (n + 1) ++ rest))) view =
      if raw = [] then .error .malformedTags
      else
        match parseTags raw { view with tagsRaw := some (atSign :: raw) } with
        | .error e => .error e
        | .ok view => if rest = [] then .error .missingCommand
          else .ok (view, raw.length + n + 2) := by
  have hpiece : space ∉ atSign :: raw := by
    rw [mem_cons, not_or]
    exact ⟨by decide, hraw⟩
  have hword := word_at [] n hpiece hrest
  simp only [nil_append, length_nil, Nat.zero_add, cons_append, length_cons] at hword
  have hhead : (atSign :: (raw ++ (spaces (n + 1) ++ rest))).getD 0 0 = atSign := rfl
  have hinner : slice (atSign :: (raw ++ (spaces (n + 1) ++ rest))) 1 (raw.length + 1) = raw := by
    rw [slice, drop_succ_cons, drop_zero, Nat.add_sub_cancel, take_left]
  have houter : slice (atSign :: (raw ++ (spaces (n + 1) ++ rest))) 0 (raw.length + 1) =
      atSign :: raw := by
    rw [slice, drop_zero, Nat.sub_zero, take_succ_cons, take_left]
  have hlength : (atSign :: (raw ++ (spaces (n + 1) ++ rest))).length =
      raw.length + n + 2 + rest.length := by
    rw [length_cons, length_append, length_append, spaces, length_replicate]
    omega
  have hone : raw.length + 1 = 1 ↔ raw = [] := by
    rw [← length_eq_zero_iff]
    omega
  have hend : raw.length + n + 2 + rest.length ≤ raw.length + n + 2 ↔ rest = [] := by
    rw [← length_eq_zero_iff]
    omega
  have hcursor : raw.length + 1 + (n + 1) = raw.length + n + 2 := by omega
  rw [parseTagSection, if_pos hhead, hword.1]
  dsimp only
  rw [hinner, houter, hword.2, hlength]
  cases parseTags raw { view with tagsRaw := some (atSign :: raw) } <;>
    simp only [hone, hcursor, hend]

theorem parsePrefixSection_at (front : Bytes) {name : Bytes} (hname : space ∉ name) (n : Nat)
    (hrest : rest.head? ≠ some space) (view : LineView) :
    parsePrefixSection (front ++ colon :: (name ++ (spaces (n + 1) ++ rest))) view front.length =
      if name = [] then .error .malformedPrefix
      else if rest = [] then .error .missingCommand
      else .ok ({ view with prefixRaw := some name }, front.length + name.length + n + 2) := by
  have hpiece : space ∉ colon :: name := by
    rw [mem_cons, not_or]
    exact ⟨by decide, hname⟩
  have hword := word_at front n hpiece hrest
  simp only [cons_append, length_cons] at hword
  have hinner : slice (front ++ colon :: (name ++ (spaces (n + 1) ++ rest))) (front.length + 1)
      (front.length + (name.length + 1)) = name := by
    refine slice_field (?_ : _ = (front ++ [colon]) ++ (name ++ (spaces (n + 1) ++ rest))) ?_ ?_
    · rw [append_assoc]
      rfl
    · rw [length_append, length_singleton]
    · omega
  have hlength : (front ++ colon :: (name ++ (spaces (n + 1) ++ rest))).length =
      front.length + name.length + n + 2 + rest.length := by
    rw [length_append, length_cons, length_append, length_append, spaces, length_replicate]
    omega
  have hone : front.length + (name.length + 1) = front.length + 1 ↔ name = [] := by
    rw [← length_eq_zero_iff]
    omega
  have hend : front.length + name.length + n + 2 + rest.length ≤
      front.length + name.length + n + 2 ↔
      rest = [] := by
    rw [← length_eq_zero_iff]
    omega
  have hcursor : front.length + (name.length + 1) + (n + 1) =
      front.length + name.length + n + 2 := by omega
  rw [parsePrefixSection, getD_at, if_pos rfl, hword.1]
  dsimp only
  rw [hinner, hword.2, hlength]
  simp only [hone, hcursor, hend]

theorem tagsText_ne_nil (hitems : ∀ tag ∈ tags, tag.Item) (hne : tags ≠ []) :
    tagsText tags ≠ [] := by
  obtain ⟨tag, tags, rfl⟩ := exists_cons_of_ne_nil hne
  rw [tagsText_cons]
  exact fun h => (hitems tag mem_cons_self).text_ne_nil (append_eq_nil_iff.mp h).1

theorem parseTagSection_text (n : Nat) (view : LineView)
    (hitems : ∀ tag ∈ tags, tag.Item) (hspaceless : space ∉ tagsText tags)
    (hcount : tags.length ≤ maxTags) (hrest : rest ≠ []) (hspace : rest.head? ≠ some space)
    (hat : tags = [] → rest.head? ≠ some atSign) (hview : view.tags = []) :
    ∃ view', parseTagSection (tagSection tags n ++ rest) view =
      .ok (view', (tagSection tags n).length) ∧ TagsRead view view' tags := by
  rw [tagSection]
  by_cases htags : tags = []
  · obtain ⟨c, rest, rfl⟩ := exists_cons_of_ne_nil hrest
    have hc : c ≠ atSign := fun heq => hat htags (congrArg some heq)
    have hhead : (c :: rest).getD 0 0 = c := rfl
    refine ⟨view, ?_, ⟨hview.trans htags.symm, rfl, rfl, rfl, rfl, (if_pos htags).symm⟩⟩
    rw [if_pos htags, nil_append, parseTagSection, hhead, if_neg hc, length_nil]
  have hloop : ∃ view',
      tagLoop (([] : Bytes) ++ tagsText tags) ((tagsText tags).length + 1) ([] : Bytes).length
      { view with tagsRaw := some (atSign :: tagsText tags) } = .ok view' ∧
      AddsTags { view with tagsRaw := some (atSign :: tagsText tags) } view' tags := by
    refine tagLoop_text hitems htags [] (Nat.le_succ _) ?_
    dsimp only
    rw [hview, length_nil, Nat.zero_add]
    exact hcount
  obtain ⟨view', hparse, hadds⟩ := hloop
  rw [nil_append, length_nil] at hparse
  refine ⟨view', ?_, hadds.read hview htags rfl⟩
  rw [if_neg htags, cons_append, append_assoc, parseTagSection_at hspaceless n hspace,
    if_neg (tagsText_ne_nil hitems htags), parseTags, hparse]
  dsimp only
  rw [if_neg hrest, length_cons, length_spaces]
  rfl

theorem parseTagSection_sound {body : Bytes} {cursor : Nat}
    (hbody : body ≠ []) (hview : view.tags = [])
    (h : parseTagSection body view = .ok (view', cursor)) :
    ∃ tags n rest, body = tagSection tags n ++ rest ∧ cursor = (tagSection tags n).length ∧
    rest ≠ [] ∧
      (∀ tag ∈ tags, tag.Item) ∧ (tags = [] → rest.head? ≠ some atSign) ∧ space ∉ tagsText tags ∧
      TagsRead view view' tags := by
  obtain ⟨c, text, rfl⟩ := exists_cons_of_ne_nil hbody
  by_cases hc : c = atSign
  · subst hc
    have hhead : (atSign :: text).getD 0 0 = atSign := rfl
    cases hstop : findSpace (atSign :: text) 0 with
    | none =>
      rw [parseTagSection, hhead, if_pos rfl, hstop] at h
      cases h
    | some stop =>
      have hword : findSpace (([] : Bytes) ++ (atSign :: text)) ([] : Bytes).length =
          some stop := hstop
      obtain ⟨piece, n, rest, hsplit, hpiece, hrest, -⟩ := word_found hword
      have hraw : ∃ raw, piece = atSign :: raw ∧ text = raw ++ (spaces (n + 1) ++ rest) := by
        cases piece with
        | nil => exact absurd (List.cons.inj hsplit).1 (by decide)
        | cons d raw =>
          cases hsplit
          exact ⟨raw, rfl, rfl⟩
      obtain ⟨raw, rfl, rfl⟩ := hraw
      have hspaceless : space ∉ raw := fun hmem => hpiece (mem_cons_of_mem _ hmem)
      rw [parseTagSection_at hspaceless n hrest] at h
      have hempty : raw ≠ [] := by
        intro hnil
        rw [if_pos hnil] at h
        cases h
      rw [if_neg hempty] at h
      cases hparse : parseTags raw { view with tagsRaw := some (atSign :: raw) } with
      | error e =>
        rw [hparse] at h
        cases h
      | ok middle =>
        rw [hparse] at h
        dsimp only at h
        split_ifs at h with hlast
        cases h
        have hloop : tagLoop (([] : Bytes) ++ raw) (raw.length + 1) ([] : Bytes).length
            { view with tagsRaw := some (atSign :: raw) } = .ok view' := hparse
        obtain ⟨tags, htags, rfl, hitems, hadds⟩ := tagLoop_sound [] (Nat.lt_succ_self _) hloop
        refine ⟨tags, n, rest, ?_, ?_, hlast, hitems, fun heq => absurd heq htags, hspaceless,
          hadds.read hview htags rfl⟩
        · rw [tagSection, if_neg htags, cons_append, append_assoc]
        · rw [tagSection, if_neg htags, length_cons, length_spaces]
          rfl
  · have hhead : (c :: text).getD 0 0 = c := rfl
    rw [parseTagSection, hhead, if_neg hc] at h
    cases h
    refine ⟨[], 0, c :: text, rfl, rfl, cons_ne_nil _ _, fun tag hmem => (nomatch hmem),
      fun _ heq => hc (some.inj heq), not_mem_nil, ⟨hview, rfl, rfl, rfl, rfl, rfl⟩⟩

theorem parsePrefixSection_text (front : Bytes) {name : Option Bytes} (n : Nat)
    {view : LineView} (hname : ∀ text, name = some text → Word text) (hrest : rest ≠ [])
    (hspace : rest.head? ≠ some space) (hcolon : name = none → rest.head? ≠ some colon)
    (hview : view.prefixRaw = none) :
    parsePrefixSection (front ++ (prefixSection name n ++ rest)) view front.length =
      .ok ({ view with prefixRaw := name }, (front ++ prefixSection name n).length) := by
  cases name with
  | none =>
    obtain ⟨c, rest, rfl⟩ := exists_cons_of_ne_nil hrest
    have hc : c ≠ colon := fun heq => hcolon rfl (congrArg some heq)
    have hsame : { view with prefixRaw := none } = view := by rw [← hview]
    rw [prefixSection, nil_append, parsePrefixSection, getD_at, if_neg hc, hsame, append_nil]
  | some text =>
    obtain ⟨hne, hword⟩ := hname text rfl
    rw [prefixSection, cons_append, append_assoc, parsePrefixSection_at front hword n hspace,
      if_neg hne, if_neg hrest, length_append, length_cons, length_spaces]
    exact congrArg (fun cursor => Except.ok (_, cursor)) (by omega)

theorem parsePrefixSection_sound {front rest : Bytes} {cursor : Nat}
    (hrest : rest ≠ []) (hview : view.prefixRaw = none)
    (h : parsePrefixSection (front ++ rest) view front.length = .ok (view', cursor)) :
    ∃ name n rest', rest = prefixSection name n ++ rest' ∧
      cursor = (front ++ prefixSection name n).length ∧ rest' ≠ [] ∧
      (∀ text, name = some text → Word text) ∧ (name = none → rest'.head? ≠ some colon) ∧
      view' = { view with prefixRaw := name } := by
  obtain ⟨c, text, rfl⟩ := exists_cons_of_ne_nil hrest
  by_cases hc : c = colon
  · subst hc
    cases hstop : findSpace (front ++ colon :: text) front.length with
    | none =>
      rw [parsePrefixSection, getD_at, if_pos rfl, hstop] at h
      cases h
    | some stop =>
      obtain ⟨piece, n, rest', hsplit, hpiece, hrest', -⟩ := word_found hstop
      have hname : ∃ name, piece = colon :: name ∧ text = name ++ (spaces (n + 1) ++ rest') := by
        cases piece with
        | nil => exact absurd (List.cons.inj hsplit).1 (by decide)
        | cons d name =>
          cases hsplit
          exact ⟨name, rfl, rfl⟩
      obtain ⟨name, rfl, rfl⟩ := hname
      have hspaceless : space ∉ name := fun hmem => hpiece (mem_cons_of_mem _ hmem)
      rw [parsePrefixSection_at front hspaceless n hrest'] at h
      split_ifs at h with hempty hlast
      cases h
      refine ⟨some name, n, rest', ?_, ?_, hlast, ?_, fun heq => (by cases heq), rfl⟩
      · rw [prefixSection, cons_append, append_assoc]
      · rw [prefixSection, length_append, length_cons, length_spaces]
        omega
      · intro text heq
        cases heq
        exact ⟨hempty, hspaceless⟩
  · rw [parsePrefixSection, getD_at, if_neg hc] at h
    cases h
    refine ⟨none, 0, c :: text, rfl, ?_, cons_ne_nil _ _, fun _ heq => (by cases heq),
      fun _ heq => hc (some.inj heq), ?_⟩
    · rw [prefixSection, append_nil]
    · rw [← hview]

theorem parseCommand_text (front : Bytes) {command tail : Bytes} {params : List Bytes}
    {last : Option Bytes} (hcommand : Word command) (htail : ParamTail params last tail)
    (view : LineView) (hcount : params.length ≤ maxPara) (hparams : view.params = [])
    (htrailing : view.trailing = none) :
    ∃ view', parseCommand (front ++ (command ++ tail)) view front.length = .ok view' ∧
      AddsParams { view with command := command } view' params last := by
  have hpos : 0 < command.length := length_pos_of_ne_nil hcommand.1
  have hloop : ∃ view', paramLoop ((front ++ command) ++ tail) (front ++ (command ++ tail)).length
      (skipSpaces ((front ++ command) ++ tail) (front ++ command).length)
      { view with command := command } = .ok view' ∧
      AddsParams { view with command := command } view' params last := by
    refine paramLoop_tail htail (front ++ command) ?_ ?_ htrailing
    · rw [length_append, length_append]
      omega
    · dsimp only
      rw [hparams, length_nil, Nat.zero_add]
      exact hcount
  obtain ⟨view', hview', hadds⟩ := hloop
  have hlength : (front ++ command).length = front.length + command.length := length_append
  rw [append_assoc, hlength] at hview'
  refine ⟨view', ?_, hadds⟩
  rw [parseCommand, findSpace, pieceEnd_at front hcommand.2 htail.head]
  rw [if_neg (by omega), slice_at]
  exact hview'

theorem parseCommand_sound {front rest : Bytes} (hview : view.trailing = none)
    (h : parseCommand (front ++ rest) view front.length = .ok view') :
    ∃ command tail params last, rest = command ++ tail ∧ Word command ∧ ParamTail params last tail ∧
      AddsParams { view with command := command } view' params last := by
  obtain ⟨command, tail, rfl, hcommand, htail⟩ := piece_split space rest
  rw [parseCommand, findSpace, pieceEnd_at front hcommand htail] at h
  split_ifs at h with hempty
  have hne : command ≠ [] := by
    rintro rfl
    exact hempty rfl
  obtain ⟨n, rest', rfl, hrest'⟩ := spaces_split tail
  rw [slice_at] at h
  have hskip :
      skipSpaces (front ++ (command ++ (spaces n ++ rest'))) (front.length + command.length) =
      (front ++ command ++ spaces n).length := by
    rw [length_spaces, ← length_append, ← append_assoc]
    exact skipSpaces_at (front ++ command) n hrest'
  have hbody : front ++ (command ++ (spaces n ++ rest')) =
      (front ++ command ++ spaces n) ++ rest' := by
    rw [append_assoc, append_assoc]
  rw [hskip, hbody] at h
  have hfuel : rest'.length ≤ (front ++ command ++ spaces n ++ rest').length := by
    rw [length_append]
    omega
  have htrailing : ({ view with command := command } : LineView).trailing = none := hview
  obtain ⟨params, last, hadds, hparams⟩ := paramLoop_sound _ hfuel hrest' htrailing h
  exact ⟨command, spaces n ++ rest', params, last, rfl, ⟨hne, hcommand⟩,
    hparams n (spaces_pos htail hrest'), hadds⟩

def lineEndings : List Bytes := [[], [cr], [lf], [cr, lf]]

theorem clean_append {front rest : Bytes} : Clean (front ++ rest) ↔ Clean front ∧ Clean rest := by
  simp only [Clean, mem_append, not_or]
  tauto

theorem clean_cons {byte : UInt8} (h : byte ≠ 0 ∧ byte ≠ cr ∧ byte ≠ lf) :
    Clean (byte :: rest) ↔ Clean rest := by
  simp only [Clean, mem_cons, not_or]
  exact ⟨fun hclean => ⟨hclean.1.2, hclean.2.1.2, hclean.2.2.2⟩,
    fun hclean => ⟨⟨h.1.symm, hclean.1⟩, ⟨h.2.1.symm, hclean.2.1⟩, h.2.2.symm, hclean.2.2⟩⟩

theorem clean_spaces (n : Nat) : Clean (spaces n) := by
  refine ⟨fun hmem => ?_, fun hmem => ?_, fun hmem => ?_⟩ <;>
    exact absurd (eq_of_mem_replicate hmem) (by decide)

theorem checkBody_iff (body : Bytes) : checkBody body = .ok () ↔ Clean body := by
  induction body with
  | nil => exact ⟨fun _ => ⟨not_mem_nil, not_mem_nil, not_mem_nil⟩, fun _ => rfl⟩
  | cons byte rest ih =>
    rw [checkBody]
    by_cases hzero : byte = 0
    · rw [if_pos hzero]
      refine iff_of_false (fun h => nomatch h) fun hclean => hclean.1 ?_
      rw [hzero]
      exact mem_cons_self
    rw [if_neg hzero]
    by_cases hbreak : byte = cr ∨ byte = lf
    · rw [if_pos hbreak]
      refine iff_of_false (fun h => nomatch h) fun hclean => ?_
      rcases hbreak with rfl | rfl
      · exact hclean.2.1 mem_cons_self
      · exact hclean.2.2 mem_cons_self
    · rw [if_neg hbreak, ih]
      exact (clean_cons ⟨hzero, not_or.mp hbreak⟩).symm

theorem getD_last (front : Bytes) (x : UInt8) :
    (front ++ [x]).getD ((front ++ [x]).length - 1) 0 = x := by
  rw [length_append, length_singleton, Nat.add_sub_cancel]
  exact getD_at front x []

theorem getD_second (front : Bytes) (y x : UInt8) :
    (front ++ [y, x]).getD ((front ++ [y, x]).length - 2) 0 = y ∧
      (front ++ [y, x]).getD ((front ++ [y, x]).length - 1) 0 = x := by
  constructor
  · rw [length_append]
    exact getD_at front y [x]
  · have hlast := getD_last (front ++ [y]) x
    rwa [append_assoc] at hlast

theorem stripLineEnding_crlf (front : Bytes) : stripLineEnding (front ++ [cr, lf]) = front := by
  obtain ⟨hsecond, hlast⟩ := getD_second front cr lf
  rw [stripLineEnding, if_pos ⟨by rw [length_append]; exact Nat.le_add_left _ _, hsecond, hlast⟩,
    length_append]
  exact take_left' rfl

theorem stripLineEnding_one {front : Bytes} {x : UInt8} (hx : x = cr ∨ x = lf)
    (hfront : x = lf → front.getLast? ≠ some cr) : stripLineEnding (front ++ [x]) = front := by
  have hfirst :
      ¬ (2 ≤ (front ++ [x]).length ∧ (front ++ [x]).getD ((front ++ [x]).length - 2) 0 = cr ∧
      (front ++ [x]).getD ((front ++ [x]).length - 1) 0 = lf) := by
    rintro ⟨hlength, hsecond, hlast⟩
    rw [getD_last] at hlast
    rcases eq_nil_or_concat front with rfl | ⟨rest, y, rfl⟩
    · exact absurd hlength (by simp)
    · rw [concat_eq_append, append_assoc, singleton_append, (getD_second rest y x).1] at hsecond
      exact hfront hlast (by rw [hsecond, concat_eq_append, List.getLast?_concat])
  rw [stripLineEnding, if_neg hfirst, if_pos ⟨by simp, by rwa [getD_last]⟩, length_append]
  exact take_left' rfl

theorem stripLineEnding_none {input : Bytes}
    (h : input.getLast? ≠ some cr ∧ input.getLast? ≠ some lf) : stripLineEnding input = input := by
  rcases eq_nil_or_concat input with rfl | ⟨front, x, rfl⟩
  · rfl
  rw [concat_eq_append, List.getLast?_concat] at h
  rw [concat_eq_append, stripLineEnding, getD_last,
    if_neg fun hfirst => h.2 (congrArg some hfirst.2.2), if_neg]
  rintro ⟨-, heq | heq⟩
  · exact h.1 (congrArg some heq)
  · exact h.2 (congrArg some heq)

theorem stripLineEnding_append {body ending : Bytes} (hbody : Clean body)
    (hending : ending ∈ lineEndings) : stripLineEnding (body ++ ending) = body := by
  have hcr : body.getLast? ≠ some cr := fun h => hbody.2.1 (mem_of_getLast? h)
  have hlf : body.getLast? ≠ some lf := fun h => hbody.2.2 (mem_of_getLast? h)
  simp only [lineEndings, mem_cons, not_mem_nil, or_false] at hending
  rcases hending with rfl | rfl | rfl | rfl
  · rw [append_nil]
    exact stripLineEnding_none ⟨hcr, hlf⟩
  · exact stripLineEnding_one (.inl rfl) fun h => absurd h (by decide)
  · exact stripLineEnding_one (.inr rfl) fun _ => hcr
  · exact stripLineEnding_crlf body

theorem stripLineEnding_split (input : Bytes) :
    ∃ ending ∈ lineEndings, input = stripLineEnding input ++ ending := by
  rcases eq_nil_or_concat input with rfl | ⟨front, x, rfl⟩
  · exact ⟨[], by decide, rfl⟩
  rw [concat_eq_append]
  by_cases hx : x = cr ∨ x = lf
  · by_cases hboth : x = lf ∧ front.getLast? = some cr
    · obtain ⟨rfl, hlast⟩ := hboth
      obtain ⟨rest, rfl⟩ := List.getLast?_eq_some_iff.mp hlast
      rw [append_assoc, singleton_append]
      exact ⟨[cr, lf], by decide, by rw [stripLineEnding_crlf]⟩
    · refine ⟨[x], ?_, by rw [stripLineEnding_one hx fun hlf hcr => hboth ⟨hlf, hcr⟩]⟩
      rcases hx with rfl | rfl <;> decide
  · refine ⟨[], by decide, ?_⟩
    rw [append_nil, stripLineEnding_none]
    rw [List.getLast?_concat]
    exact ⟨fun h => hx (.inl (some.inj h)), fun h => hx (.inr (some.inj h))⟩

end OnyxServer.IrcLine
