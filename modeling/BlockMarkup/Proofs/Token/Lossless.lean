import BlockMarkup.Proofs.Document.Located
import BlockMarkup.Proofs.Token.Steps
import Mathlib.Data.List.Chain

/-!
# BlockMarkup.Proofs.Token.Lossless

Lexing loses nothing and always moves on. The stretches of a run are the text (`Logged.tiles`), what is
passed over in silence is white space and comments between the nodes of a body, and behind a match
of nothing comes a match of something (`Logged.movesOn`). `lossless_lex` says so of a document, and of
an expression on its own that nothing is passed over at all.
-/

namespace BlockMarkup

open Text

/-- The stretches that the steps take, one behind the other. -/
def stretchesOf (log : List Lexer.Step) : List Stretch := log.flatMap Lexer.Step.stretches

theorem stretchesOf_cons (s : Lexer.Step) (log : List Lexer.Step) :
    stretchesOf (s :: log) = s.stretches ++ stretchesOf log := List.flatMap_cons

theorem stretchesOf_append (log log' : List Lexer.Step) :
    stretchesOf (log ++ log') = stretchesOf log ++ stretchesOf log' := List.flatMap_append

namespace Mode.Hit

variable {m : Mode} {c : Cursor} {h : Mode.Hit}

/-- A match takes the front of what is there. -/
theorem after_eq (hs : m.search c.rest = some h) :
    (h.after c).rest = c.rest.drop (h.skipped + h.length) ∧
      (h.after c).pos = c.pos + (c.rest.take (h.skipped + h.length)).length := by
  refine ⟨after_rest h c, ?_⟩
  rw [after_pos, List.length_take, Nat.min_eq_left (Mode.search_sound hs).le, Nat.add_assoc]

/-- What a match takes, in front of what is tiled behind it. -/
theorem tiles_cons (hs : m.search c.rest = some h) {ss : List Stretch} {u v : List Char}
    (hrest : (h.after c).rest = u ++ v) (htiles : Tiles (h.after c).pos ss u) :
    ∃ w, c.rest = w ++ v ∧ (h.after c).pos + u.length = c.pos + w.length ∧
      Tiles c.pos ((⟨m, c⟩ : Lexer.Step).stretches ++ ss) w := by
  obtain ⟨hafter, hpos⟩ := after_eq hs
  have hstep := Lexer.Step.tiles ⟨m, c⟩
  rw [Lexer.Step.taken_of_hit (s := ⟨m, c⟩) hs] at hstep
  refine ⟨c.rest.take (h.skipped + h.length) ++ u, ?_, ?_, ?_⟩
  · rw [List.append_assoc, ← hrest, hafter, List.take_append_drop]
  · rw [List.length_append, hpos, Nat.add_assoc]
  · rw [hpos] at htiles
    exact hstep.append htiles

end Mode.Hit

namespace Logged

variable {m : Mode} {c stop : Cursor} {items : List Item} {log : List Lexer.Step}

theorem scans (h : Logged m c items stop log) : Scans m c items stop := by
  induction h with
  | stop hs => exact .stop hs
  | stay hs hm _ ih => exact .stay hs hm ih
  | pop hs hm => exact .pop hs hm
  | push hs hm _ _ ihsub ih => exact .push hs hm ihsub ih

/-- The stretches of a run are the text between its start and its end. -/
theorem tiles (h : Logged m c items stop log) : ∃ u, c.rest = u ++ stop.rest ∧
    stop.pos = c.pos + u.length ∧ Tiles c.pos (stretchesOf log) u := by
  induction h with
  | @stop m c hs =>
    have hstep := Lexer.Step.tiles ⟨m, c⟩
    rw [Lexer.Step.taken_of_none (s := ⟨m, c⟩) hs, List.take_length] at hstep
    refine ⟨c.rest, by simp [Cursor.advance], rfl, ?_⟩
    rwa [stretchesOf_cons, stretchesOf, List.flatMap_nil, List.append_nil]
  | stay hs _ _ ih =>
    obtain ⟨u, hrest, hpos, htiles⟩ := ih
    obtain ⟨w, hw, hlength, hall⟩ := Mode.Hit.tiles_cons hs hrest htiles
    exact ⟨w, hw, hpos.trans hlength, hall⟩
  | pop hs _ =>
    obtain ⟨w, hw, hlength, hall⟩ := Mode.Hit.tiles_cons hs (List.nil_append _).symm .nil
    exact ⟨w, hw, hlength, hall⟩
  | push hs _ _ _ ihsub ih =>
    obtain ⟨u, hrest, hpos, htiles⟩ := ihsub
    obtain ⟨v, hrest', hpos', htiles'⟩ := ih
    rw [hrest', ← List.append_assoc] at hrest
    rw [hpos] at hpos' htiles'
    obtain ⟨w, hw, hlength, hall⟩ := Mode.Hit.tiles_cons hs hrest (htiles.append htiles')
    refine ⟨w, hw, ?_, ?_⟩
    · rw [hpos', ← hlength, List.length_append, Nat.add_assoc]
    · rwa [stretchesOf_cons, stretchesOf_append]

/-- The tokens of a run are those of its stretches that are not skipped. -/
theorem tokens_eq (h : Logged m c items stop log) :
    (stretchesOf log).filterMap Stretch.token? = Item.tokensAll items := by
  have hstep : ∀ {m : Mode} {c : Cursor} {h : Mode.Hit} (log : List Lexer.Step),
      m.search c.rest = some h → (stretchesOf (⟨m, c⟩ :: log)).filterMap Stretch.token? =
        Item.tokensAll (h.items c) ++ (stretchesOf log).filterMap Stretch.token? := by
    intro m c h log hs
    rw [stretchesOf_cons, List.filterMap_append, Lexer.Step.tokens_of_hit (s := ⟨m, c⟩) hs]
  induction h with
  | @stop m c hs =>
    rw [stretchesOf_cons, stretchesOf, List.flatMap_nil, List.append_nil]
    exact Lexer.Step.tokens_of_none (s := ⟨m, c⟩) hs
  | stay hs _ _ ih => rw [hstep _ hs, Item.tokensAll_append, ih]
  | pop hs _ => rw [hstep _ hs, stretchesOf, List.flatMap_nil, List.filterMap_nil, List.append_nil]
  | push hs _ _ _ ihsub ih =>
    rw [hstep _ hs, stretchesOf_append, List.filterMap_append, ihsub, ih, Item.tokensAll_append,
      Item.tokensAll_append, Item.tokensAll_nested, List.append_assoc]

/-- In an expression, every step is made in an expression. -/
theorem mode_of_expression (h : Logged m c items stop log) (hm : m = .expression ∨ m = .group) :
    ∀ s ∈ log, s.mode = .expression ∨ s.mode = .group := by
  induction h with
  | stop _ => exact List.forall_mem_singleton.mpr hm
  | stay _ _ _ ih => exact List.forall_mem_cons.mpr ⟨hm, ih hm⟩
  | pop _ _ => exact List.forall_mem_singleton.mpr hm
  | @push m inner c back stop hit sub items inside log hs hmove _ _ ihsub ih =>
    have hinner : inner = .group := by
      have hgroup : ∀ r ∈ m.rules, r.move = .stay ∨ r.move = .pop ∨ r.move = .push .group := by
        rcases hm with rfl | rfl <;> decide
      have hrule := hgroup _ (Mode.search_sound hs).mem
      rw [hmove] at hrule
      rcases hrule with hrule | hrule | hrule <;> cases hrule
      rfl
    exact List.forall_mem_cons.mpr ⟨hm, List.forall_mem_append.mpr ⟨ihsub (.inr hinner), ih hm⟩⟩

/-- Every step is made at a place in the text. -/
theorem place_in {text : List Char} (h : Logged m c items stop log) (hc : c.In text) :
    ∀ s ∈ log, s.place.In text := by
  induction h with
  | stop _ => exact List.forall_mem_singleton.mpr hc
  | stay hs _ _ ih => exact List.forall_mem_cons.mpr ⟨hc, ih (Mode.Hit.in_after hs hc)⟩
  | pop _ _ => exact List.forall_mem_singleton.mpr hc
  | push hs _ hsub _ ihsub ih =>
    have hafter := Mode.Hit.in_after hs hc
    exact List.forall_mem_cons.mpr ⟨hc, List.forall_mem_append.mpr
      ⟨ihsub hafter, ih (hsub.scans.located hafter).1⟩⟩

end Logged

/-! ## Moving on -/

namespace Lexer.Step

/-- Behind a match of nothing that leaves its context, the next step takes something, unless it is
at the end of the text. -/
def MovesOn (s s' : Step) : Prop := s.leavesEmpty = true → 0 < s'.taken ∨ s'.place.rest = []

theorem leavesEmpty_eq_false {s : Step} {h : Mode.Hit} (hs : s.hit? = some h)
    (hm : h.rule.move ≠ .pop) : s.leavesEmpty = false := by
  simp [leavesEmpty, hs, hm]

theorem leavesEmpty_of_none {s : Step} (hs : s.hit? = none) : s.leavesEmpty = false := by
  simp [leavesEmpty, hs]

theorem taken_pos_of_isBody {s : Step} (hm : s.mode.isBody = true) :
    0 < s.taken ∨ s.place.rest = [] := by
  rcases s.progress with htaken | hleaves | hend
  · exact .inl htaken
  · rcases mode_of_leavesEmpty hleaves with hmode | hmode <;> rw [hmode] at hm <;> cases hm
  · exact .inr hend

end Lexer.Step

/-- Values and spreads stand in bodies only. -/
theorem Mode.isBody_of_push {m inner : Mode} {r : Rule} (hr : r ∈ m.rules)
    (hmove : r.move = .push inner) (hinner : inner = .attribute ∨ inner = .spread) :
    m.isBody = true := by
  rcases hinner with rfl | rfl <;> revert hmove r <;> cases m <;> decide

/-- How a run begins and ends, and that it moves on in between. -/
structure Moves (m : Mode) (c : Cursor) (log : List Lexer.Step) : Prop where
  head : log.head? = some ⟨m, c⟩
  last : ∀ s ∈ log.getLast?, s.leavesEmpty = true → m = .attribute ∨ m = .spread
  chain : log.IsChain Lexer.Step.MovesOn

namespace Moves

variable {m : Mode} {c : Cursor} {log : List Lexer.Step}

theorem singleton (h : (⟨m, c⟩ : Lexer.Step).leavesEmpty = true → m = .attribute ∨ m = .spread) :
    Moves m c [⟨m, c⟩] := by
  refine ⟨rfl, fun s hs hleaves => ?_, List.isChain_singleton _⟩
  obtain rfl : (⟨m, c⟩ : Lexer.Step) = s := Option.some.inj hs
  exact h hleaves

theorem ne_nil (h : Moves m c log) : log ≠ [] := by
  rintro rfl
  cases h.head

/-- A step that does not leave the context goes in front of what comes next. -/
theorem cons {k : Mode} {d : Cursor} (hstays : (⟨m, c⟩ : Lexer.Step).leavesEmpty = false)
    (hlast : ∀ s ∈ log.getLast?, s.leavesEmpty = true → m = .attribute ∨ m = .spread)
    (hhead : log.head? = some ⟨k, d⟩) (hchain : log.IsChain Lexer.Step.MovesOn) :
    Moves m c (⟨m, c⟩ :: log) := by
  refine ⟨rfl, ?_, List.isChain_cons.mpr ⟨fun s _ hleaves => ?_, hchain⟩⟩
  · cases log with
    | nil => cases hhead
    | cons s log => rwa [List.getLast?_cons_cons]
  · rw [hstays] at hleaves
    cases hleaves

end Moves

/-- A run moves on: after a match of nothing, lexing goes on in a body. -/
theorem Logged.moves {m : Mode} {c stop : Cursor} {items : List Item} {log : List Lexer.Step}
    (h : Logged m c items stop log) : Moves m c log := by
  induction h with
  | @stop m c hs =>
    refine .singleton fun hleaves => ?_
    rw [Lexer.Step.leavesEmpty_of_none (s := ⟨m, c⟩) hs] at hleaves
    cases hleaves
  | @stay m c stop hit items log hs hm _ ih =>
    exact .cons (Lexer.Step.leavesEmpty_eq_false (s := ⟨m, c⟩) hs (by rw [hm]; exact nofun)) ih.last
      ih.head ih.chain
  | pop _ _ => exact .singleton Lexer.Step.mode_of_leavesEmpty
  | @push m inner c back stop hit sub items inside log hs hm _ _ ihsub ih =>
    refine .cons (Lexer.Step.leavesEmpty_eq_false (s := ⟨m, c⟩) hs (by rw [hm]; exact nofun))
      (fun s hlast => ih.last s ?_) (d := hit.after c) (k := inner) ?_
      (List.isChain_append.mpr ⟨ihsub.chain, ih.chain, fun s hlast s' hhead hleaves => ?_⟩)
    · rwa [List.getLast?_append_of_ne_nil _ ih.ne_nil] at hlast
    · rw [List.head?_append, ihsub.head, Option.some_or]
    · -- The context that was left is a value or a spread, so a body is around it.
      have hbody := Mode.isBody_of_push (Mode.search_sound hs).mem hm (ihsub.last s hlast hleaves)
      obtain rfl : (⟨m, back⟩ : Lexer.Step) = s' := Option.some.inj (ih.head.symm.trans hhead)
      exact Lexer.Step.taken_pos_of_isBody hbody

/-! ## Expressions -/

/-- A string literal stands at the front of the text. -/
def StartsLiteral (s : List Char) : Prop := ∃ b rest, isQuotable b = true ∧ s = quote b ++ rest

theorem not_startsLiteral {s : List Char} (h : Pattern.stringLength? s = none) :
    ¬ StartsLiteral s := by
  rintro ⟨b, rest, hb, hs⟩
  rw [quote, List.cons_append, List.append_assoc] at hs
  have hsome := Pattern.stringLength?_iff.mpr ⟨b, rest, hs, hb, rfl⟩
  rw [h] at hsome
  cases hsome

/-- Where a quotation mark is a stray token, the rule for string literals was tried before. -/
theorem Mode.stringLength?_of_stray {m : Mode} (hm : m = .expression ∨ m = .group) {s : List Char}
    {n : Nat} {r : Rule} (h : Rule.first? m.rules s = some (n, r)) (hr : r.effect = .emit .stray) :
    r.pattern = .quote ∧ Pattern.stringLength? s = none := by
  have hquote : ∀ q ∈ m.rules, q.effect = .emit .stray → q = ⟨.quote, .emit .stray, .stay⟩ := by
    rcases hm with rfl | rfl <;> decide
  obtain rfl := hquote r (Rule.first?_eq_some h).1 hr
  have hbefore : ∃ before after, m.rules = before ++ after ∧
      (⟨.string, .emit .string, .stay⟩ : Rule) ∈ before ∧
      (⟨.quote, .emit .stray, .stay⟩ : Rule) ∉ before := by
    rcases hm with rfl | rfl
    · exact ⟨Mode.expression.rules.take 4, Mode.expression.rules.drop 4, by decide⟩
    · exact ⟨Mode.group.rules.take 5, Mode.group.rules.drop 5, by decide⟩
  obtain ⟨before, after, hrules, hstring, hnot⟩ := hbefore
  rw [hrules] at h
  exact ⟨rfl, Rule.first?_append_none h hnot _ hstring⟩

/-- In an expression a stray token is a quotation mark that begins no string literal. -/
theorem Lexer.Step.stray_of_expression {s : Lexer.Step} (hm : s.mode = .expression ∨ s.mode = .group)
    {t : Token} (ht : t ∈ s.stretches.filterMap Stretch.token?) (hstray : t.cls = .stray) :
    t.pos = s.place.pos ∧ t.text = ['"'] ∧ ¬ StartsLiteral s.place.rest := by
  cases hs : s.hit? with
  | none =>
    rw [tokens_of_none hs, Mode.search_eq_none hm hs, List.length_nil, Cursor.take_zero] at ht
    cases ht
  | some h =>
    obtain ⟨u, cls, -, hc, -, hfirst, hemit, hitems⟩ := Mode.Hit.token_of_total hm hs
    rw [tokens_of_hit hs, hitems] at ht
    obtain rfl : t = ⟨s.place.pos, u, cls⟩ := List.mem_singleton.mp ht
    obtain rfl : cls = .stray := hstray
    obtain ⟨hpattern, hnone⟩ := Mode.stringLength?_of_stray hm hfirst hemit
    have hmatched := (Rule.first?_eq_some hfirst).2
    rw [hpattern] at hmatched
    obtain ⟨c, rfl, hquote⟩ := eq_of_one hmatched
    rw [hc]
    exact ⟨rfl, by simpa using hquote, not_startsLiteral hnone⟩

/-! ## A whole text -/

/-- A text is taken apart by the steps that lexing makes in it, from the first place on. -/
structure Lossless (m : Mode) (text : List Char) (log : List Lexer.Step) : Prop where
  /-- The log is that of lexing the text to its end. -/
  logged : ∃ stop, Logged m (.start text) (lex m text) stop log ∧ stop.rest = []
  tokens : Item.tokensAll (lex m text) = (stretchesOf log).filterMap Stretch.token?
  tiles : Tiles 0 (stretchesOf log) text
  /-- Every character is in one stretch only: in one token, or in one that was passed over. -/
  once : ∀ i < text.length, ∃! s, s ∈ stretchesOf log ∧ s.pos ≤ i ∧ i < s.stop
  /-- What was passed over is white space or a comment, directly in a body. -/
  skipped : ∀ s ∈ stretchesOf log, s.effect = .skip → s.mode.isBody = true ∧ IsTrivia s.text
  movesOn : log.IsChain Lexer.Step.MovesOn

theorem exists_lossless {m : Mode} (hm : m.IsBottom) (text : List Char) :
    ∃ log, Lossless m text log := by
  obtain ⟨stop, hscans, hend⟩ := scans_lex hm text
  obtain ⟨log, hlog⟩ := hscans.logged
  obtain ⟨u, hrest, -, htiles⟩ := hlog.tiles
  rw [hend, List.append_nil] at hrest
  obtain rfl : text = u := hrest
  refine ⟨log, ⟨stop, hlog, hend⟩, hlog.tokens_eq.symm, htiles,
    fun i hi => htiles.existsUnique i (Nat.zero_le i) (by simpa [Cursor.start] using hi),
    fun s hs hskip => ?_, hlog.moves.chain⟩
  obtain ⟨step, -, hmem⟩ := List.mem_flatMap.mp hs
  exact Lexer.Step.trivia_of_skip hmem hskip

namespace Lossless

variable {m : Mode} {text : List Char} {log : List Lexer.Step}

theorem token_of_stretch (h : Lossless m text log) {t : Token}
    (ht : t ∈ Item.tokensAll (lex m text)) :
    ∃ s ∈ stretchesOf log, s.effect = .emit t.cls ∧ t.pos = s.pos ∧ t.text = s.text := by
  rw [h.tokens] at ht
  obtain ⟨s, hs, hsome⟩ := List.mem_filterMap.mp ht
  refine ⟨s, hs, ?_⟩
  unfold Stretch.token? at hsome
  split at hsome
  · cases hsome
  · rename_i cls heffect
    cases hsome
    exact ⟨heffect, rfl, rfl⟩

theorem text_ne_nil (h : Lossless m text log) {t : Token} (ht : t ∈ Item.tokensAll (lex m text)) :
    t.text ≠ [] := by
  obtain ⟨s, hs, -, -, htext⟩ := h.token_of_stretch ht
  rw [htext]
  exact h.tiles.text_ne_nil s hs

theorem skips_nothing (h : Lossless .expression text log) :
    ∀ s ∈ stretchesOf log, s.effect ≠ .skip := by
  obtain ⟨stop, hlog, -⟩ := h.logged
  intro s hs hskip
  obtain ⟨hbody, -⟩ := h.skipped s hs hskip
  obtain ⟨step, hstep, hmem⟩ := List.mem_flatMap.mp hs
  rw [step.mode_of_mem hmem] at hbody
  rcases hlog.mode_of_expression (.inl rfl) step hstep with hmode | hmode <;> rw [hmode] at hbody <;>
    cases hbody

/-- Where nothing is skipped, the tokens are the text. -/
theorem flatMap_text (h : Lossless m text log) (hall : ∀ s ∈ stretchesOf log, s.effect ≠ .skip) :
    (Item.tokensAll (lex m text)).flatMap (·.text) = text := by
  have hstretches : ∀ ss : List Stretch, (∀ s ∈ ss, s.effect ≠ .skip) →
      (ss.filterMap Stretch.token?).flatMap (·.text) = ss.flatMap (·.text) := by
    intro ss hss
    induction ss with
    | nil => rfl
    | cons s ss ih =>
      obtain ⟨hs, hss⟩ := List.forall_mem_cons.mp hss
      obtain ⟨cls, hcls⟩ : ∃ cls, s.effect = .emit cls := by
        cases he : s.effect with
        | skip => exact absurd he hs
        | emit cls => exact ⟨cls, rfl⟩
      have htoken : s.token? = some ⟨s.pos, s.text, cls⟩ := by rw [Stretch.token?, hcls]
      rw [List.filterMap_cons_some htoken, List.flatMap_cons, List.flatMap_cons, ih hss]
  rw [h.tokens, hstretches _ hall, h.tiles.flatMap_text]

/-- The stray tokens of an expression are quotation marks at which no string literal starts. -/
theorem stray_of_expression (h : Lossless .expression text log) {t : Token}
    (ht : t ∈ Item.tokensAll (lex .expression text)) (hstray : t.cls = .stray) :
    t.text = ['"'] ∧ ¬ StartsLiteral (text.drop t.pos) := by
  obtain ⟨stop, hlog, -⟩ := h.logged
  rw [h.tokens, stretchesOf, List.filterMap_flatMap] at ht
  obtain ⟨step, hstep, hmem⟩ := List.mem_flatMap.mp ht
  obtain ⟨hpos, htext, hliteral⟩ :=
    Lexer.Step.stray_of_expression (hlog.mode_of_expression (.inl rfl) step hstep) hmem hstray
  obtain ⟨before, hbefore, hlength⟩ := hlog.place_in (Cursor.in_start text) step hstep
  rw [hpos, hlength, hbefore, List.drop_left]
  exact ⟨htext, hliteral⟩

end Lossless

/-- Lexing is lossless and always moves on. In a document, the tokens are not empty and stand in order,
every character is in one token or in one stretch of white space or comment that was passed over
directly in a body, and behind a match of nothing comes a match of something or the end. In
an expression on its own nothing is passed over: the tokens are the text, and the only stray ones are
quotation marks at which no string literal starts. -/
theorem lossless_lex (text : List Char) :
    ((∀ t ∈ Item.tokensAll (lex .root text), t.text ≠ []) ∧
      (Item.tokensAll (lex .root text)).Pairwise (fun a b => a.stop ≤ b.pos) ∧
      ∃ log, Lossless .root text log) ∧
    (∃ log, Lossless .expression text log ∧ ∀ s ∈ stretchesOf log, s.effect ≠ .skip) ∧
    (Item.tokensAll (lex .expression text)).flatMap (·.text) = text ∧
    ∀ t ∈ Item.tokensAll (lex .expression text), t.cls = .stray →
      t.text = ['"'] ∧ ¬ StartsLiteral (text.drop t.pos) := by
  obtain ⟨rootLog, hroot⟩ := exists_lossless isBottom_root text
  obtain ⟨stop, hscans, -⟩ := scans_lex isBottom_root text
  obtain ⟨log, hlog⟩ := exists_lossless isBottom_expression text
  exact ⟨⟨fun t ht => hroot.text_ne_nil ht, hscans.ordered.sorted, rootLog, hroot⟩,
    ⟨log, hlog, hlog.skips_nothing⟩, hlog.flatMap_text hlog.skips_nothing,
    fun t ht hstray => hlog.stray_of_expression ht hstray⟩

end BlockMarkup
