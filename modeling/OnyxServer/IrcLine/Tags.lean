import OnyxServer.IrcLine.Parser

/-!
# The tag section

Items are cut at semicolons, and an item at its first equals sign. A valid key holds neither,
so an item and its text determine each other.
-/
namespace OnyxServer.IrcLine

open Lib List

/-- An item of a tag list: a valid key, and a value that ends at the next semicolon. -/
def TagView.Item (tag : TagView) : Prop :=
  validTagKey tag.key = true ∧ ∀ value, tag.valueRaw = some value → semicolon ∉ value

theorem not_mem_key {key : Bytes} (hkey : validTagKey key = true) {byte : UInt8}
    (hbyte : validTagByte byte = false) : byte ∉ key := by
  intro hmem
  rw [validTagKey] at hkey
  split_ifs at hkey
  rw [all_eq_true.mp hkey byte hmem] at hbyte
  cases hbyte

theorem key_ne_nil {key : Bytes} (hkey : validTagKey key = true) : key ≠ [] := by
  rintro rfl
  cases hkey

variable {tag : TagView}

theorem TagView.Item.text_ne_nil (h : tag.Item) : tag.text ≠ [] := by
  have hkey := key_ne_nil h.1
  rw [TagView.text]
  cases tag.valueRaw with
  | none => exact hkey
  | some value => exact fun heq => hkey (append_eq_nil_iff.mp heq).1

theorem mem_text {byte : UInt8} :
    byte ∈ tag.text ↔ byte ∈ tag.key ∨ ∃ value, tag.valueRaw = some value ∧
    (byte = equals ∨ byte ∈ value) := by
  rw [TagView.text]
  cases tag.valueRaw with
  | none => simp
  | some value => simp

theorem TagView.Item.semicolon (h : tag.Item) : semicolon ∉ tag.text := by
  rw [mem_text]
  rintro (hkey | ⟨value, hvalue, heq | hmem⟩)
  · exact not_mem_key h.1 (by decide) hkey
  · exact absurd heq (by decide)
  · exact h.2 value hvalue hmem

theorem splitTag_text (h : validTagKey tag.key = true) : splitTag tag.text = tag := by
  obtain ⟨key, value⟩ := tag
  have hkey : equals ∉ key := not_mem_key h (by decide)
  cases value with
  | none =>
    have hfind : findByte key 0 equals = none := findByte_absent [] hkey
    rw [TagView.text, splitTag, hfind]
  | some value =>
    have hfind : findByte (key ++ equals :: value) 0 equals = some (0 + key.length) :=
      findByte_at [] value hkey
    rw [Nat.zero_add] at hfind
    have hdrop : (key ++ equals :: value).drop (key.length + 1) = value := by
      rw [← drop_drop, drop_left]
      rfl
    rw [TagView.text, splitTag]
    dsimp only
    rw [hfind]
    dsimp only
    rw [take_left, hdrop]

theorem text_splitTag (item : Bytes) : (splitTag item).text = item := by
  obtain ⟨piece, tail, rfl, hpiece, htail⟩ := piece_split equals item
  rcases htail with rfl | htail
  · have hfind : findByte (piece ++ []) 0 equals = none := by
      rw [append_nil]
      exact findByte_absent [] hpiece
    rw [splitTag, hfind]
    rfl
  obtain ⟨value, rfl⟩ := List.head?_eq_some_iff.mp htail
  have hfind : findByte (piece ++ equals :: value) 0 equals = some (0 + piece.length) :=
    findByte_at [] value hpiece
  rw [Nat.zero_add] at hfind
  have hdrop : (piece ++ equals :: value).drop (piece.length + 1) = value := by
    rw [← drop_drop, drop_left]
    rfl
  rw [splitTag, hfind]
  dsimp only
  rw [take_left, hdrop]
  rfl

theorem tagsText_cons (tag : TagView) (tags : List TagView) :
    tagsText (tag :: tags) = tag.text ++ if tags = [] then [] else semicolon :: tagsText tags := by
  cases tags with
  | nil => exact (append_nil _).symm
  | cons next tags => rfl

structure AddsTags (view view' : LineView) (tags : List TagView) : Prop where
  tags : view'.tags = view.tags ++ tags
  params : view'.params = view.params
  trailing : view'.trailing = view.trailing
  prefixRaw : view'.prefixRaw = view.prefixRaw
  raw : view'.raw = view.raw
  tagsRaw : view'.tagsRaw = view.tagsRaw

theorem appendTag_ok {view view' : LineView} (h : appendTag view tag = .ok view') :
    AddsTags view view' [tag] ∧ validTagKey tag.key = true := by
  rw [appendTag] at h
  split_ifs at h with hroom hkey
  cases h
  exact ⟨⟨rfl, rfl, rfl, rfl, rfl, rfl⟩, Bool.eq_true_of_not_eq_false hkey⟩

theorem appendTag_of_valid {view : LineView} (hroom : view.tags.length < maxTags)
    (hkey : validTagKey tag.key = true) : ∃ view', appendTag view tag = .ok view' := by
  rw [appendTag, dif_neg (by omega), if_neg (by rw [hkey]; decide)]
  exact ⟨_, rfl⟩

theorem AddsTags.trans {view middle view' : LineView} {tags : List TagView}
    (hfirst : AddsTags view middle [tag]) (hrest : AddsTags middle view' tags) :
    AddsTags view view' (tag :: tags) where
  tags := by rw [hrest.tags, hfirst.tags, append_assoc, singleton_append]
  params := hrest.params.trans hfirst.params
  trailing := hrest.trailing.trans hfirst.trailing
  prefixRaw := hrest.prefixRaw.trans hfirst.prefixRaw
  raw := hrest.raw.trans hfirst.raw
  tagsRaw := hrest.tagsRaw.trans hfirst.tagsRaw

theorem tagLoop_item {piece tail : Bytes} (hne : piece ≠ []) (hpiece : semicolon ∉ piece)
    (htail : tail = [] ∨ tail.head? = some semicolon) (front : Bytes) (fuel : Nat)
    (view : LineView) :
    tagLoop (front ++ (piece ++ tail)) (fuel + 1) front.length view =
      match appendTag view (splitTag piece) with
      | .error e => .error e
      | .ok view => if tail = [] then .ok view
          else tagLoop (front ++ (piece ++ tail)) fuel (front.length + piece.length + 1) view := by
  have hpos : 0 < piece.length := length_pos_of_ne_nil hne
  have hend : front.length + piece.length = (front ++ (piece ++ tail)).length ↔ tail = [] := by
    rw [length_append, length_append, ← length_eq_zero_iff]
    omega
  conv_lhs => unfold tagLoop
  rw [if_pos (by rw [length_append]; omega)]
  dsimp only
  rw [pieceEnd_at front hpiece htail, if_neg (by omega), slice_at]
  cases appendTag view (splitTag piece) with
  | error e => rfl
  | ok view =>
    dsimp only
    simp only [hend]

theorem tagLoop_text {tags : List TagView} (hitems : ∀ tag ∈ tags, tag.Item) (hne : tags ≠ [])
    (front : Bytes) {fuel : Nat} (hfuel : (tagsText tags).length ≤ fuel) {view : LineView}
    (hbound : view.tags.length + tags.length ≤ maxTags) :
    ∃ view', tagLoop (front ++ tagsText tags) fuel front.length view = .ok view' ∧
      AddsTags view view' tags := by
  induction tags generalizing front fuel view with
  | nil => exact absurd rfl hne
  | cons tag tags ih =>
    rw [forall_mem_cons] at hitems
    rw [length_cons] at hbound
    have hpos : 0 < tag.text.length := length_pos_of_ne_nil hitems.1.text_ne_nil
    rw [tagsText_cons, length_append] at hfuel
    obtain ⟨fuel, rfl⟩ : ∃ more, fuel = more + 1 := ⟨fuel - 1, by omega⟩
    have hroom : view.tags.length < maxTags := by omega
    obtain ⟨middle, hview⟩ := appendTag_of_valid hroom hitems.1.1
    have hadds := (appendTag_ok hview).1
    rw [tagsText_cons]
    by_cases hlast : tags = []
    · rw [if_pos hlast, tagLoop_item hitems.1.text_ne_nil hitems.1.semicolon (.inl rfl),
        splitTag_text hitems.1.1, hview, hlast]
      exact ⟨middle, if_pos rfl, hadds⟩
    rw [if_neg hlast] at hfuel ⊢
    rw [tagLoop_item hitems.1.text_ne_nil hitems.1.semicolon (.inr rfl),
      splitTag_text hitems.1.1, hview]
    dsimp only
    rw [if_neg (cons_ne_nil _ _)]
    have hfuel' : (tagsText tags).length ≤ fuel := by
      rw [length_cons] at hfuel
      omega
    have hbound' : middle.tags.length + tags.length ≤ maxTags := by
      rw [hadds.tags, length_append, length_singleton]
      omega
    obtain ⟨view', hloop, hrest⟩ :=
      ih hitems.2 hlast (front ++ tag.text ++ [semicolon]) hfuel' hbound'
    refine ⟨view', ?_, hadds.trans hrest⟩
    rw [length_append, length_append, append_assoc, append_assoc] at hloop
    exact hloop

theorem tagLoop_sound {fuel : Nat} (front : Bytes) {rest : Bytes} (hfuel : rest.length < fuel)
    {view view' : LineView} (h : tagLoop (front ++ rest) fuel front.length view = .ok view') :
    ∃ tags, tags ≠ [] ∧ rest = tagsText tags ∧ (∀ tag ∈ tags, tag.Item) ∧
    AddsTags view view' tags := by
  induction fuel generalizing front rest view with
  | zero => omega
  | succ fuel ih =>
    obtain ⟨piece, tail, rfl, hpiece, htail⟩ := piece_split semicolon rest
    have hne : piece ≠ [] := by
      rintro rfl
      have hend := pieceEnd_at front hpiece htail
      unfold tagLoop at h
      rw [if_pos (by rw [length_append]; omega)] at h
      dsimp only at h
      rw [hend, if_pos (by rw [length_nil]; rfl)] at h
      cases h
    rw [tagLoop_item hne hpiece htail] at h
    cases hview : appendTag view (splitTag piece) with
    | error e =>
      rw [hview] at h
      cases h
    | ok middle =>
      rw [hview] at h
      dsimp only at h
      obtain ⟨hadds, hkey⟩ := appendTag_ok hview
      have hitem : (splitTag piece).Item := by
        refine ⟨hkey, fun value hvalue hmem => hpiece ?_⟩
        rw [← text_splitTag piece, mem_text]
        exact .inr ⟨value, hvalue, .inr hmem⟩
      rcases htail with rfl | htail
      · rw [if_pos rfl] at h
        cases h
        refine ⟨[splitTag piece], cons_ne_nil _ _, ?_, ?_, hadds⟩
        · rw [append_nil]
          exact (text_splitTag piece).symm
        · exact forall_mem_singleton.mpr hitem
      · obtain ⟨later, rfl⟩ := List.head?_eq_some_iff.mp htail
        rw [if_neg (cons_ne_nil _ _)] at h
        have hloop : tagLoop (front ++ piece ++ [semicolon] ++ later) fuel
            (front ++ piece ++ [semicolon]).length middle = .ok view' := by
          rw [length_append, length_append, append_assoc, append_assoc]
          exact h
        rw [length_append, length_cons] at hfuel
        obtain ⟨tags, hnonempty, rfl, hitems, hrest⟩ := ih _ (by omega) hloop
        refine ⟨splitTag piece :: tags, cons_ne_nil _ _, ?_,
          forall_mem_cons.mpr ⟨hitem, hitems⟩, hadds.trans hrest⟩
        rw [tagsText_cons, if_neg hnonempty, text_splitTag]

end OnyxServer.IrcLine
