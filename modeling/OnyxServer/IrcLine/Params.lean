import OnyxServer.IrcLine.Parser

/-!
# Command and parameters

The parameter loop reads exactly the tails the grammar allows behind a command.
-/
namespace OnyxServer.IrcLine

open Lib List Option

/-- The view after the loop: parameters behind those already there, perhaps a trailing one. -/
structure AddsParams (view view' : LineView) (params : List Bytes) (trailing : Option Bytes) :
    Prop where
  params : view'.params = view.params ++ params
  trailing : view'.trailing = trailing
  tags : view'.tags = view.tags
  prefixRaw : view'.prefixRaw = view.prefixRaw
  command : view'.command = view.command
  raw : view'.raw = view.raw
  tagsRaw : view'.tagsRaw = view.tagsRaw

theorem appendParam_ok {view view' : LineView} {param : Bytes}
    (h : appendParam view param = .ok view') :
    AddsParams view view' [param] view.trailing := by
  rw [appendParam] at h
  split_ifs at h
  cases h
  exact ⟨rfl, rfl, rfl, rfl, rfl, rfl, rfl⟩

theorem appendParam_of_room {view : LineView} (h : view.params.length < maxPara) (param : Bytes) :
    ∃ view', appendParam view param = .ok view' := by
  rw [appendParam, dif_neg (by omega)]
  exact ⟨_, rfl⟩

variable {params : List Bytes}

theorem AddsParams.trans {view middle view' : LineView} {param : Bytes}
    {last trailing : Option Bytes} (hfirst : AddsParams view middle [param] last)
    (hrest : AddsParams middle view' params trailing) :
    AddsParams view view' (param :: params) trailing where
  params := by rw [hrest.params, hfirst.params, append_assoc, singleton_append]
  trailing := hrest.trailing
  tags := hrest.tags.trans hfirst.tags
  prefixRaw := hrest.prefixRaw.trans hfirst.prefixRaw
  command := hrest.command.trans hfirst.command
  raw := hrest.raw.trans hfirst.raw
  tagsRaw := hrest.tagsRaw.trans hfirst.tagsRaw

variable {last : Option Bytes}

theorem AddsParams.refl {view : LineView} (h : view.trailing = last) :
    AddsParams view view [] last := ⟨(append_nil _).symm, h, rfl, rfl, rfl, rfl, rfl⟩

theorem ParamTail.head {tail : Bytes}
    (h : ParamTail params last tail) : tail = [] ∨ tail.head? = some space := by
  cases h with
  | stop n =>
    cases n with
    | zero => exact .inl rfl
    | succ n => exact .inr rfl
  | trailing n param => exact .inr rfl
  | middle n _ _ => exact .inr rfl

section
variable {front rest : Bytes} {fuel : Nat} {view : LineView}

theorem paramLoop_end (front : Bytes) (fuel : Nat) (view : LineView) :
    paramLoop front fuel front.length view = .ok view := by
  cases fuel with
  | zero => rfl
  | succ fuel =>
    unfold paramLoop
    rw [if_neg (Nat.lt_irrefl _)]

theorem paramLoop_colon (front param : Bytes) (fuel : Nat) (view : LineView) :
    paramLoop (front ++ colon :: param) (fuel + 1) front.length view =
      match appendParam view param with
      | .error e => .error e
      | .ok view => .ok { view with trailing := some param } := by
  have hdrop : (front ++ colon :: param).drop (front.length + 1) = param := by
    rw [← drop_drop, drop_left]
    rfl
  conv_lhs => unfold paramLoop
  rewrite [if_pos (by rw [length_append, length_cons]; omega), getD_at, if_pos rfl, hdrop]
  cases appendParam view param <;> rfl

theorem paramLoop_word {piece tail : Bytes} (hpiece : Middle piece)
    (htail : tail = [] ∨ tail.head? = some space) (front : Bytes) (fuel : Nat) (view : LineView) :
    paramLoop (front ++ (piece ++ tail)) (fuel + 1) front.length view =
      match appendParam view piece with
      | .error e => .error e
      | .ok view => paramLoop (front ++ (piece ++ tail)) fuel
          (skipSpaces (front ++ (piece ++ tail)) (front.length + piece.length)) view := by
  obtain ⟨⟨hne, hspace⟩, hcolon⟩ := hpiece
  obtain ⟨c, piece, rfl⟩ := exists_cons_of_ne_nil hne
  have hc : c ≠ colon := fun heq => hcolon (congrArg some heq)
  have hlength : 0 < (c :: piece).length := Nat.succ_pos _
  conv_lhs => unfold paramLoop
  rw [if_pos (by rw [length_append, length_append]; omega),
    show (front ++ (c :: piece ++ tail)).getD front.length 0 =
      c from getD_at front c (piece ++ tail),
    if_neg hc]
  dsimp only
  rewrite [findSpace, pieceEnd_at front hspace htail, if_pos (by omega), slice_at]
  cases appendParam view (c :: piece) <;> rfl

end

theorem paramLoop_tail {tail : Bytes}
    (h : ParamTail params last tail) (front : Bytes) {fuel : Nat} (hfuel : tail.length ≤ fuel)
    {view : LineView} (hbound : view.params.length + params.length ≤ maxPara)
    (htrailing : view.trailing = none) :
    ∃ view', paramLoop (front ++ tail) fuel (skipSpaces (front ++ tail) front.length) view =
      .ok view' ∧
      AddsParams view view' params last := by
  induction h generalizing front fuel view with
  | stop n =>
    have hskip : skipSpaces (front ++ (spaces n ++ [])) front.length = front.length + n :=
      skipSpaces_at front n (fun h => nomatch h)
    rw [append_nil] at hskip
    have hlength : (front ++ spaces n).length = front.length + n := by
      rw [length_append, spaces, length_replicate]
    rw [hskip, ← hlength, paramLoop_end]
    exact ⟨view, rfl, .refl htrailing⟩
  | trailing n param =>
    have hskip : skipSpaces (front ++ (spaces (n + 1) ++ colon :: param)) front.length =
        front.length + (n + 1) :=
      skipSpaces_at front (n + 1) fun h => absurd (some.inj h) (by decide)
    obtain ⟨fuel, rfl⟩ : ∃ more, fuel = more + 1 := by
      rw [length_append, length_cons] at hfuel
      exact ⟨fuel - 1, by omega⟩
    have hroom : view.params.length < maxPara := hbound
    obtain ⟨view', hview⟩ := appendParam_of_room hroom param
    have hadds := appendParam_ok hview
    rw [hskip, ← length_spaces, ← append_assoc, paramLoop_colon, hview]
    exact ⟨_, rfl, hadds.params, rfl, hadds.tags, hadds.prefixRaw, hadds.command, hadds.raw,
      hadds.tagsRaw⟩
  | @middle n param params last tail hmiddle h ih =>
    have hhead : (param ++ tail).head? ≠ some space := by
      obtain ⟨c, rest, rfl⟩ := exists_cons_of_ne_nil hmiddle.1.1
      intro heq
      exact hmiddle.1.2 (some.inj heq ▸ mem_cons_self)
    have hskip := skipSpaces_at front (n + 1) hhead
    rw [length_append, length_append, spaces, length_replicate] at hfuel
    obtain ⟨fuel, rfl⟩ : ∃ more, fuel = more + 1 := ⟨fuel - 1, by omega⟩
    rw [length_cons] at hbound
    have hroom : view.params.length < maxPara := by omega
    obtain ⟨middle, hview⟩ := appendParam_of_room hroom param
    have hadds := appendParam_ok hview
    have hnext : middle.params.length + params.length ≤ maxPara := by
      rw [hadds.params, length_append, length_singleton]
      omega
    have hfuel' : tail.length ≤ fuel := by omega
    obtain ⟨view', hloop, hrest⟩ := ih (front ++ spaces (n + 1) ++ param) hfuel' hnext
      (hadds.trailing.trans htrailing)
    refine ⟨view', ?_, hadds.trans hrest⟩
    rw [hskip, ← length_spaces, ← append_assoc, paramLoop_word hmiddle h.head, hview]
    rw [append_assoc, length_append] at hloop
    exact hloop

/-- What the loop accepts, standing at the end of a run of spaces, is a tail of the grammar. -/
theorem paramLoop_sound {fuel : Nat} (front : Bytes) {rest : Bytes} (hfuel : rest.length ≤ fuel)
    (hhead : rest.head? ≠ some space) {view view' : LineView} (htrailing : view.trailing = none)
    (h : paramLoop (front ++ rest) fuel front.length view = .ok view') :
    ∃ params last, AddsParams view view' params last ∧
      ∀ n, (rest ≠ [] → 0 < n) → ParamTail params last (spaces n ++ rest) := by
  induction fuel generalizing front rest view with
  | zero =>
    cases length_eq_zero_iff.mp (Nat.le_zero.mp hfuel)
    cases h
    exact ⟨[], none, .refl htrailing, fun n _ => by rw [append_nil]; exact .stop n⟩
  | succ fuel ih =>
    cases rest with
    | nil =>
      rw [append_nil, paramLoop_end] at h
      cases h
      exact ⟨[], none, .refl htrailing, fun n _ => by rw [append_nil]; exact .stop n⟩
    | cons c rest =>
      by_cases hc : c = colon
      · subst hc
        rw [paramLoop_colon] at h
        cases hview : appendParam view rest with
        | error e =>
          rw [hview] at h
          cases h
        | ok middle =>
          rw [hview] at h
          cases h
          have hadds := appendParam_ok hview
          refine ⟨[rest], some rest, ⟨hadds.params, rfl, hadds.tags, hadds.prefixRaw, hadds.command,
            hadds.raw, hadds.tagsRaw⟩, fun n hn => ?_⟩
          obtain ⟨n, rfl⟩ : ∃ less, n = less + 1 := ⟨n - 1, by have := hn (by simp); omega⟩
          exact .trailing n rest
      · obtain ⟨piece, tail, hsplit, hpiece, htail⟩ := piece_split space (c :: rest)
        have hmiddle : Middle piece := by
          cases piece with
          | nil =>
            rcases htail with rfl | htail
            · cases hsplit
            · rw [nil_append] at hsplit
              exact absurd (hsplit ▸ htail) hhead
          | cons d piece =>
            cases hsplit
            exact ⟨⟨cons_ne_nil _ _, hpiece⟩, fun heq => hc (some.inj heq)⟩
        rw [hsplit, paramLoop_word hmiddle htail] at h
        cases hview : appendParam view piece with
        | error e =>
          rw [hview] at h
          cases h
        | ok middle =>
          rw [hview] at h
          have hadds := appendParam_ok hview
          obtain ⟨k, rest', hspaces, hhead'⟩ := spaces_split tail
          have hpos : 0 < piece.length := length_pos_of_ne_nil hmiddle.1.1
          have hlength := congrArg List.length hsplit
          rw [hspaces, length_append, length_append, spaces, length_replicate] at hlength
          have hbody : front ++ (piece ++ tail) = front ++ piece ++ spaces k ++ rest' := by
            rw [hspaces, append_assoc, append_assoc]
          have hskip :
              skipSpaces (front ++ piece ++ spaces k ++ rest') (front.length + piece.length) =
              (front ++ piece ++ spaces k).length := by
            rw [length_spaces, ← length_append, append_assoc (front ++ piece)]
            exact skipSpaces_at (front ++ piece) k hhead'
          have hloop : paramLoop (front ++ piece ++ spaces k ++ rest') fuel
              (front ++ piece ++ spaces k).length middle = .ok view' := by
            rw [← hskip, ← hbody]
            exact h
          obtain ⟨params, last, hrest, hparams⟩ :=
            ih (front ++ piece ++ spaces k) (by omega) hhead' (hadds.trailing.trans htrailing) hloop
          refine ⟨piece :: params, last, hadds.trans hrest, fun n hn => ?_⟩
          obtain ⟨n, rfl⟩ : ∃ less, n = less + 1 := ⟨n - 1, by have := hn (by simp); omega⟩
          rw [hsplit, hspaces]
          exact .middle n hmiddle (hparams k (spaces_pos (hspaces ▸ htail) hhead'))

end OnyxServer.IrcLine
