import OnyxServer.IrcLine.RoundTrip

/-!
# The language of the parser

Valid fields in any rendering are read back as they are, and every accepted line is such a
rendering. A line can therefore be written again from its view.
-/
namespace OnyxServer.IrcLine

open Lib List Option

theorem TagView.Valid.item {tag : TagView} (h : tag.Valid) : tag.Item :=
  ⟨h.key, fun value hvalue => (h.value value hvalue).1⟩

theorem not_mem_tagsText {tags : List TagView} (hitems : ∀ tag ∈ tags, tag.Item) {byte : UInt8}
    (hbyte : validTagByte byte = false ∧ byte ≠ semicolon ∧ byte ≠ equals) :
    byte ∉ tagsText tags ↔ ∀ tag ∈ tags, ∀ value, tag.valueRaw = some value → byte ∉ value := by
  induction tags with
  | nil => exact ⟨fun _ tag hmem => (nomatch hmem), fun _ => not_mem_nil⟩
  | cons tag tags ih =>
    rw [forall_mem_cons] at hitems
    have htext : byte ∉ tag.text ↔ ∀ value, tag.valueRaw = some value → byte ∉ value := by
      rw [mem_text, not_or, not_exists]
      constructor
      · exact fun h value hvalue hmem => h.2 value ⟨hvalue, .inr hmem⟩
      · refine fun h => ⟨not_mem_key hitems.1.1 hbyte.1, fun value ⟨hvalue, hmem⟩ => ?_⟩
        exact h value hvalue (hmem.resolve_left hbyte.2.2)
    have hrest : byte ∉ (if tags = [] then [] else semicolon :: tagsText tags) ↔
        byte ∉ tagsText tags := by
      split_ifs with hnil
      · rw [hnil]
        rfl
      · rw [mem_cons, not_or]
        exact ⟨fun h => h.2, fun h => ⟨hbyte.2.1, h⟩⟩
    rw [tagsText_cons, mem_append, not_or, htext, hrest, ih hitems.2, forall_mem_cons]

theorem clean_tagsText {tags : List TagView} (hitems : ∀ tag ∈ tags, tag.Item) :
    Clean (tagsText tags) ↔ ∀ tag ∈ tags, ∀ value, tag.valueRaw = some value → Clean value := by
  rw [Clean, not_mem_tagsText hitems (by decide), not_mem_tagsText hitems (by decide),
    not_mem_tagsText hitems (by decide)]
  exact ⟨fun h tag hmem value hvalue => ⟨h.1 tag hmem value hvalue, h.2.1 tag hmem value hvalue,
      h.2.2 tag hmem value hvalue⟩,
    fun h => ⟨fun tag hmem value hvalue => (h tag hmem value hvalue).1,
      fun tag hmem value hvalue => (h tag hmem value hvalue).2.1,
      fun tag hmem value hvalue => (h tag hmem value hvalue).2.2⟩⟩

theorem clean_tagSection (tags : List TagView) (n : Nat) :
    Clean (tagSection tags n) ↔ Clean (tagsText tags) := by
  rw [tagSection]
  split_ifs with hnil
  · rw [hnil]
    rfl
  · rw [clean_cons (by decide), clean_append]
    exact and_iff_left (clean_spaces _)

theorem clean_prefixSection (name : Option Bytes) (n : Nat) :
    Clean (prefixSection name n) ↔ ∀ text, name = some text → Clean text := by
  cases name with
  | none => exact ⟨fun _ text h => (nomatch h), fun _ => clean_spaces 0⟩
  | some text =>
    rw [prefixSection, clean_cons (by decide), clean_append, and_iff_left (clean_spaces _)]
    exact ⟨fun h other heq => some.inj heq ▸ h, fun h => h text rfl⟩

variable {params : List Bytes} {last : Option Bytes} {tail : Bytes}

theorem ParamTail.clean
    (h : ParamTail params last tail) : Clean tail ↔ ∀ param ∈ params, Clean param := by
  induction h with
  | stop n => exact ⟨fun _ param hmem => (nomatch hmem), fun _ => clean_spaces n⟩
  | trailing n param =>
    rw [clean_append, clean_cons (by decide), and_iff_right (clean_spaces _), forall_mem_singleton]
  | middle n _ _ ih =>
    rw [clean_append, clean_append, and_iff_right (clean_spaces _), ih, forall_mem_cons]

theorem Renders.clean {fields : LineFields} {trailing : Option Bytes} {body : Bytes}
    (hitems : ∀ tag ∈ fields.tags, tag.Item) (h : Renders fields trailing body) :
    Clean body ↔ (∀ tag ∈ fields.tags, ∀ value, tag.valueRaw = some value → Clean value) ∧
      (∀ name, fields.prefixRaw = some name → Clean name) ∧ Clean fields.command ∧
        ∀ param ∈ fields.params, Clean param := by
  obtain ⟨n, m, tail, htail, rfl⟩ := h
  rw [clean_append, clean_append, clean_append, clean_tagSection, clean_tagsText hitems,
    clean_prefixSection, htail.clean]

theorem head?_append_word {word rest : Bytes} (h : word ≠ []) :
    (word ++ rest).head? = word.head? := by
  obtain ⟨c, word, rfl⟩ := exists_cons_of_ne_nil h
  rfl

theorem Word.head_ne_space {word : Bytes} (h : Word word) (rest : Bytes) :
    (word ++ rest).head? ≠ some space := by
  rw [head?_append_word h.1]
  exact fun heq => h.2 (mem_of_mem_head? heq)

/-- The command, behind a prefix or not, is what decides how the line goes on. -/
theorem prefixSection_head (name : Option Bytes) (n : Nat) {command : Bytes}
    (hcommand : Word command) (tail : Bytes) : prefixSection name n ++ (command ++ tail) ≠ [] ∧
      (prefixSection name n ++ (command ++ tail)).head? ≠ some space ∧
      (prefixSection name n ++ (command ++ tail)).head? =
        if name = none then command.head? else some colon := by
  cases name with
  | none =>
    refine ⟨?_, hcommand.head_ne_space tail, head?_append_word hcommand.1⟩
    exact fun h => hcommand.1 (append_eq_nil_iff.mp (append_eq_nil_iff.mp h).2).1
  | some text => exact ⟨cons_ne_nil _ _, fun h => absurd (some.inj h) (by decide), rfl⟩

theorem parseLine_sections {input body : Bytes} (hstrip : stripLineEnding input = body)
    (hbody : body ≠ []) (hlength : body.length ≤ maxLineBody) (hclean : Clean body) :
    parseLine input =
      match parseTagSection body { raw := body } with
      | .error e => .error e
      | .ok (view, cursor) =>
        match parsePrefixSection body view cursor with
        | .error e => .error e
        | .ok (view, cursor) => parseCommand body view cursor := by
  have hpos := length_pos_of_ne_nil hbody
  rw [parseLine, hstrip]
  rewrite [if_neg (by omega), if_neg (by omega), (checkBody_iff body).mpr hclean]
  rfl

theorem parseLine_text {fields : LineFields} {trailing : Option Bytes} {body ending : Bytes}
    (hvalid : fields.Valid) (hrenders : Renders fields trailing body)
    (hlength : body.length ≤ maxLineBody) (hending : ending ∈ lineEndings) :
    ∃ view, parseLine (body ++ ending) = .ok view ∧ view.fields = fields ∧
    view.trailing = trailing := by
  have hitems : ∀ tag ∈ fields.tags, tag.Item := fun tag hmem => (hvalid.tags tag hmem).item
  have hclean : Clean body := by
    rw [hrenders.clean hitems]
    exact ⟨fun tag hmem value hvalue => ((hvalid.tags tag hmem).value value hvalue).2.2,
      fun name hname => (hvalid.prefixRaw name hname).2, hvalid.command.2, hvalid.params⟩
  have hspaceless : space ∉ tagsText fields.tags := by
    rw [not_mem_tagsText hitems (by decide)]
    exact fun tag hmem value hvalue => ((hvalid.tags tag hmem).value value hvalue).2.1
  obtain ⟨n, m, tail, htail, rfl⟩ := hrenders
  obtain ⟨hne, hspace, hhead⟩ := prefixSection_head fields.prefixRaw m hvalid.command.1 tail
  have hat : fields.tags = [] →
      (prefixSection fields.prefixRaw m ++ (fields.command ++ tail)).head? ≠ some atSign := by
    intro htags
    rw [hhead]
    split_ifs with hname
    · exact hvalid.commandAt htags hname
    · decide
  obtain ⟨view, htagSection, hread⟩ :=
    parseTagSection_text n { raw := tagSection fields.tags n ++
        (prefixSection fields.prefixRaw m ++ (fields.command ++ tail)) }
      hitems hspaceless hvalid.tagCount hne hspace hat rfl
  have hfront := parsePrefixSection_text (tagSection fields.tags n) m
    (fun name hname => (hvalid.prefixRaw name hname).1)
    (fun hnil => hvalid.command.1.1 (append_eq_nil_iff.mp hnil).1)
    (hvalid.command.1.head_ne_space tail)
    (fun hname => head?_append_word hvalid.command.1.1 ▸ hvalid.commandColon hname) hread.prefixRaw
  obtain ⟨view', hcommand, hadds⟩ := parseCommand_text
    (tagSection fields.tags n ++ prefixSection fields.prefixRaw m) hvalid.command.1 htail
    { view with prefixRaw := fields.prefixRaw } hvalid.paramCount hread.params hread.trailing
  rw [append_assoc] at hcommand
  refine ⟨view', ?_, ?_, hadds.trailing⟩
  · rw [parseLine_sections (stripLineEnding_append hclean hending) _ hlength hclean, htagSection]
    · dsimp only
      rw [hfront]
      exact hcommand
    · exact fun hnil => hne (append_eq_nil_iff.mp hnil).2
  · have hparams : view'.params = fields.params := by
      rw [hadds.params]
      show view.params ++ fields.params = fields.params
      rw [hread.params]
      rfl
    have htags : view'.tags = fields.tags := hadds.tags.trans hread.tags
    have hname : view'.prefixRaw = fields.prefixRaw := hadds.prefixRaw
    have hword : view'.command = fields.command := hadds.command
    rw [LineView.fields, htags, hname, hword, hparams]

/-- What an accepted line is made of. -/
structure Accepted (line : Bytes) (view : LineView) : Prop where
  ending : ∃ ending ∈ lineEndings, line = view.raw ++ ending
  length : view.raw.length ≤ maxLineBody
  renders : Renders view.fields view.trailing view.raw
  valid : view.fields.Valid
  clean : Clean view.raw
  tagsRaw : view.tagsRaw = if view.tags = [] then none else some (atSign :: tagsText view.tags)

variable {view : LineView}

theorem parseLine_sound {line : Bytes} (h : parseLine line = .ok view) :
    Accepted line view := by
  obtain ⟨ending, hending, hline⟩ := stripLineEnding_split line
  generalize hstrip : stripLineEnding line = body at hline
  have hbody : body ≠ [] := by
    rintro rfl
    rw [parseLine, hstrip, if_pos length_nil] at h
    cases h
  have hlength : body.length ≤ maxLineBody := by
    by_contra hlong
    rw [parseLine, hstrip, if_neg (fun hnil => hbody (length_eq_zero_iff.mp hnil)),
      if_pos (Nat.lt_of_not_le hlong)] at h
    cases h
  have hclean : Clean body := by
    rw [← checkBody_iff]
    rw [parseLine, hstrip, if_neg (fun hnil => hbody (length_eq_zero_iff.mp hnil)),
      if_neg (Nat.not_lt_of_le hlength)] at h
    cases hcheck : checkBody body with
    | error e =>
      rw [hcheck] at h
      cases h
    | ok => rfl
  rw [parseLine_sections hstrip hbody hlength hclean] at h
  cases htagSection : parseTagSection body { raw := body } with
  | error e =>
    rw [htagSection] at h
    cases h
  | ok tagged =>
    obtain ⟨view₁, cursor₁⟩ := tagged
    rw [htagSection] at h
    dsimp only at h
    obtain ⟨tags, n, rest, rfl, rfl, hrest, hitems, hat, hspaceless, hread⟩ :=
      parseTagSection_sound hbody rfl htagSection
    cases hfront : parsePrefixSection (tagSection tags n ++ rest) view₁
      (tagSection tags n).length with
    | error e =>
      rw [hfront] at h
      cases h
    | ok prefixed =>
      obtain ⟨view₂, cursor₂⟩ := prefixed
      rw [hfront] at h
      dsimp only at h
      obtain ⟨name, m, rest', rfl, rfl, hrest', hname, hcolon, rfl⟩ :=
        parsePrefixSection_sound hrest hread.prefixRaw hfront
      rw [← append_assoc] at h
      have hnone : ({ view₁ with prefixRaw := name } : LineView).trailing = none := hread.trailing
      obtain ⟨command, tail, params, last, rfl, hword, htail, hadds⟩ := parseCommand_sound hnone h
      have hraw : view.raw = tagSection tags n ++ (prefixSection name m ++ (command ++ tail)) :=
        hadds.raw.trans hread.raw
      have htags : view.tags = tags := hadds.tags.trans hread.tags
      have hparams : view.params = params := by
        rw [hadds.params]
        show view₁.params ++ params = params
        rw [hread.params]
        rfl
      have hfields : view.fields = ⟨tags, name, command, params⟩ := by
        rw [LineView.fields, htags, hadds.prefixRaw, hadds.command, hparams]
      have hrenders : Renders view.fields view.trailing view.raw := by
        rw [hfields, hadds.trailing, hraw]
        exact ⟨n, m, tail, htail, rfl⟩
      have hpieces := hrenders.clean (by rw [hfields]; exact hitems)
      rw [hfields, hraw] at hpieces
      obtain ⟨hvalues, hnames, hcommand, hcleanParams⟩ := hpieces.mp hclean
      have hspaces := (not_mem_tagsText hitems (by decide)).mp hspaceless
      have htagsRaw : view.tagsRaw = if tags = [] then none else some (atSign :: tagsText tags) :=
        hadds.tagsRaw.trans hread.tagsRaw
      refine ⟨⟨ending, hending, hraw ▸ hline⟩, hraw ▸ hlength, hrenders, ?_, hraw ▸ hclean,
        htags ▸ htagsRaw⟩
      rw [hfields]
      exact {
        tagCount := htags ▸ view.tagsBound
        tags := fun tag hmem => ⟨(hitems tag hmem).1, fun value hvalue =>
          ⟨(hitems tag hmem).2 value hvalue, hspaces tag hmem value hvalue,
          hvalues tag hmem value hvalue⟩⟩
        prefixRaw := fun text htext => ⟨hname text htext, hnames text htext⟩
        command := ⟨hword, hcommand⟩
        commandColon := fun hnil => head?_append_word hword.1 ▸ hcolon hnil
        commandAt := fun htagsNil hnil => by
          have hhead := (prefixSection_head name m hword tail).2.2
          rw [if_pos hnil] at hhead
          exact hhead ▸ hat htagsNil
        paramCount := hparams ▸ view.paramsBound
        params := hcleanParams }

def renderTail : List Bytes → Option Bytes → Bytes
  | [], _ => []
  | [param], some _ => space :: colon :: param
  | param :: params, trailing => space :: (param ++ renderTail params trailing)

/-- The line of a view, with single spaces. -/
def LineView.render (view : LineView) : Bytes :=
  tagSection view.tags 0 ++
    (prefixSection view.prefixRaw 0 ++ (view.command ++ renderTail view.params view.trailing))

theorem ParamTail.render
    (h : ParamTail params last tail) :
    ParamTail params last (renderTail params last) ∧
    (renderTail params last).length ≤ tail.length := by
  induction h with
  | stop n => exact ⟨.stop 0, Nat.zero_le _⟩
  | trailing n param =>
    refine ⟨.trailing 0 param, ?_⟩
    rw [renderTail, length_append, spaces, length_replicate, length_cons, length_cons]
    omega
  | @middle n param params last tail hmiddle h ih =>
    have hrender : renderTail (param :: params) last =
        space :: (param ++ renderTail params last) := by
      cases h with
      | stop => rfl
      | trailing => rfl
      | middle => rfl
    rw [hrender]
    refine ⟨.middle 0 hmiddle ih.1, ?_⟩
    rw [length_cons, length_append, length_append, length_append, spaces, length_replicate]
    have hle := ih.2
    omega

theorem tagSection_length_le (tags : List TagView) (n : Nat) :
    (tagSection tags 0).length ≤ (tagSection tags n).length := by
  rw [tagSection, tagSection]
  split_ifs
  · exact Nat.le_refl _
  · rw [length_cons, length_cons, length_spaces, length_spaces]
    omega

theorem prefixSection_length_le (name : Option Bytes) (n : Nat) :
    (prefixSection name 0).length ≤ (prefixSection name n).length := by
  cases name with
  | none => exact Nat.le_refl _
  | some text =>
    rw [prefixSection, prefixSection, length_cons, length_cons, length_spaces, length_spaces]
    omega

theorem render_renders {body : Bytes} (h : Renders view.fields view.trailing body) :
    Renders view.fields view.trailing view.render ∧ view.render.length ≤ body.length := by
  obtain ⟨n, m, tail, htail, rfl⟩ := h
  obtain ⟨hrender, hle⟩ := htail.render
  refine ⟨⟨0, 0, _, hrender, rfl⟩, ?_⟩
  have htags := tagSection_length_le view.tags n
  have hname := prefixSection_length_le view.prefixRaw m
  simp only [LineView.render, LineView.fields, length_append] at hle ⊢
  omega

def LineView.slices (view : LineView) : List Bytes :=
  view.raw :: view.command :: (view.tagsRaw.toList ++ view.prefixRaw.toList ++ view.params ++
    view.trailing.toList ++ view.tags.flatMap fun tag => tag.key :: tag.valueRaw.toList)

theorem ParamTail.last_mem
    (h : ParamTail params last tail) {param : Bytes} (hlast : last = some param) :
    param ∈ params := by
  induction h with
  | stop => cases hlast
  | trailing n other =>
    cases hlast
    exact mem_cons_self
  | middle _ _ _ ih => exact mem_cons_of_mem _ (ih hlast)

theorem clean_key {key : Bytes} (h : validTagKey key = true) : Clean key :=
  ⟨not_mem_key h (by decide), not_mem_key h (by decide), not_mem_key h (by decide)⟩

theorem Accepted.slices_clean {line : Bytes} (h : Accepted line view) :
    ∀ text ∈ view.slices, Clean text := by
  have hvalid := h.valid
  intro text hmem
  simp only [LineView.slices, mem_cons, mem_append, Option.mem_toList, mem_flatMap] at hmem
  rcases hmem with rfl | rfl | (((htags | hname) | hparam) | hlast) | ⟨tag, htag, rfl | hvalue⟩
  · exact h.clean
  · exact hvalid.command.2
  · rw [h.tagsRaw] at htags
    split_ifs at htags with hnil
    rw [← some.inj htags, clean_cons (by decide)]
    refine (clean_tagsText fun tag hmem => (hvalid.tags tag hmem).item).mpr ?_
    exact fun tag hmem value hvalue => ((hvalid.tags tag hmem).value value hvalue).2.2
  · exact (hvalid.prefixRaw text hname).2
  · exact hvalid.params text hparam
  · obtain ⟨n, m, tail, htail, -⟩ := h.renders
    exact hvalid.params text (htail.last_mem hlast)
  · exact clean_key (hvalid.tags tag htag).key
  · exact ((hvalid.tags tag htag).value text hvalue).2.2

/-- The parser accepts exactly the renderings of valid fields and yields those fields; what it
accepts can be written and read again, and no slice it returns has a NUL or a line break. -/
theorem parseLine_language :
    (∀ fields trailing body ending, LineFields.Valid fields → Renders fields trailing body →
      body.length ≤ maxLineBody → ending ∈ lineEndings →
      ∃ view, parseLine (body ++ ending) = .ok view ∧ view.fields = fields ∧
      view.trailing = trailing) ∧
    ∀ line view, parseLine line = .ok view →
      (∃ ending ∈ lineEndings, line = view.raw ++ ending) ∧ view.raw.length ≤ maxLineBody ∧
        view.fields.Valid ∧ Renders view.fields view.trailing view.raw ∧
        (∃ again, parseLine view.render = .ok again ∧ again.fields = view.fields ∧
          again.trailing = view.trailing) ∧
        ∀ text ∈ view.slices, Clean text := by
  constructor
  · intro fields trailing body ending hvalid hrenders hlength hending
    exact parseLine_text hvalid hrenders hlength hending
  · intro line view h
    have haccepted := parseLine_sound h
    obtain ⟨hrender, hle⟩ := render_renders haccepted.renders
    have hagain := parseLine_text haccepted.valid hrender (Nat.le_trans hle haccepted.length)
      (by decide : ([] : Bytes) ∈ lineEndings)
    rw [append_nil] at hagain
    exact ⟨haccepted.ending, haccepted.length, haccepted.valid, haccepted.renders, hagain,
      haccepted.slices_clean⟩

def tagged : LineFields :=
  ⟨[⟨[0x6B], some [0x76]⟩, ⟨[0x74], none⟩], some [0x6E], [0x50], [[0x62], [0x61]]⟩

/-- The line `@k=v;t :n P b :a` with a CRLF, and the view of the line `P b`. -/
theorem parseLine_language_short :
    (∃ view, parseLine ([atSign, 0x6B, equals, 0x76, semicolon, 0x74, space, colon, 0x6E, space,
        0x50, space, 0x62, space, colon, 0x61] ++ [cr, lf]) = .ok view ∧
      view.fields = tagged ∧ view.trailing = some [0x61]) ∧
    LineFields.Valid ⟨[], none, [0x50], [[0x62]]⟩ := by
  have hmiddle : Middle [0x62] := ⟨⟨by decide, by decide⟩, by decide⟩
  constructor
  · refine parseLine_language.1 tagged (some [0x61]) _ _ ?_
      ⟨0, 0, _, .middle 0 hmiddle (.trailing 0 [0x61]), rfl⟩ (by decide) (by decide)
    exact {
      tagCount := by decide
      tags := forall_mem_cons.mpr ⟨⟨by decide, fun value hvalue =>
          some.inj hvalue ▸ ⟨by decide, by decide, by decide, by decide, by decide⟩⟩,
        forall_mem_singleton.mpr ⟨by decide, fun value hvalue => nomatch hvalue⟩⟩
      prefixRaw := fun name hname =>
        some.inj hname ▸ ⟨⟨by decide, by decide⟩, by decide, by decide, by decide⟩
      command := ⟨⟨by decide, by decide⟩, by decide, by decide, by decide⟩
      commandColon := fun hname => nomatch hname
      commandAt := fun _ hname => nomatch hname
      paramCount := by decide
      params := forall_mem_cons.mpr ⟨⟨by decide, by decide, by decide⟩,
        forall_mem_singleton.mpr ⟨by decide, by decide, by decide⟩⟩ }
  · exact (parseLine_language.2 [0x50, space, 0x62]
      { raw := [0x50, space, 0x62], command := [0x50], params := [[0x62]],
        paramsBound := by decide } rfl).2.2.1

end OnyxServer.IrcLine
