import BlockMarkup.Proofs.Composition
import BlockMarkup.Proofs.Document.LineEnds
import BlockMarkup.Proofs.Expression.Counted
import BlockMarkup.Proofs.Expression.Sealed
import BlockMarkup.Proofs.Layout.Settled

/-!
# BlockMarkup.Proofs.Document.Lasting

What an accepted text holds can be read back from where it is written: its values, its spreads and its
decorations, if its tokens are sealed and its white space is plain (`Heads.whole_hold`).
-/

namespace BlockMarkup

open Text Lexeme

/-! ## Where a line goes on -/

namespace LineRest

variable {a w s : List Char}

theorem of_feed (hw : ∀ c ∈ w, isBlank c = true) (hfeed : '\n' ∈ w) : ∃ a, LineRest a (w ++ s) := by
  obtain ⟨a, b, rfl, ha⟩ := List.eq_append_cons_of_mem hfeed
  refine ⟨a, fun c hc => ⟨hw c (List.mem_append_left _ hc), ?_⟩, [], b ++ s, by simp, .inl rfl⟩
  rintro rfl
  exact ha hc

theorem of_comment {l : Lexeme} (h : l.Fits s) (hl : l.isLineComment = true) (hs : s ≠ []) :
    LineRest [] (l.text ++ s) := by
  obtain ⟨v, hv, -, hfeed⟩ := h.inv_lineComment hl
  obtain ⟨c, b, rfl⟩ := List.exists_cons_of_ne_nil hs
  obtain rfl := hfeed c rfl
  exact ⟨nofun, l.text, b, rfl, .inr ⟨v, hv⟩⟩

theorem behind (hw : ∀ c ∈ w, isBlank c = true) (hfeed : '\n' ∉ w) (h : LineRest a s) :
    LineRest (w ++ a) (w ++ s) := by
  obtain ⟨u, b, rfl, hu⟩ := h.ends
  refine ⟨List.forall_mem_append.mpr ⟨fun c hc => ⟨hw c hc, ?_⟩, h.blank⟩, u, b, by simp, hu⟩
  rintro rfl
  exact hfeed hc

end LineRest

theorem goesOn_of_not_lineRest {ls : List Lexeme} (hfit : AllFit [] ls)
    (hlast : ∀ l : Lexeme, l ∈ ls.getLast? → l.isLineComment = false)
    (h : ∀ a, ¬ LineRest a (textOf ls)) : goesOn ls := by
  have hcomment : ∀ (k : Lexeme) (ks : List Lexeme), AllFit [] (k :: ks) →
      (∀ l : Lexeme, l ∈ (k :: ks).getLast? → l.isLineComment = false) →
      (∀ a, ¬ LineRest a (textOf (k :: ks))) → k.isLineComment = false := by
    intro k ks hfit hlast h
    cases ks with
    | nil => exact hlast k rfl
    | cons j js =>
      have hne : textOf (j :: js) ≠ [] :=
        List.append_ne_nil_of_left_ne_nil hfit.2.1.text_ne_nil _
      have hk : k.Fits (textOf (j :: js)) := by
        have hk := hfit.1
        rwa [List.append_nil] at hk
      rw [← Bool.not_eq_true]
      exact fun hline => h [] (.of_comment hk hline hne)
  cases ls with
  | nil => trivial
  | cons l ls =>
    refine ⟨hcomment l ls hfit hlast h, fun hblank => ?_⟩
    obtain ⟨hall, -⟩ := hfit.1.inv_blank hblank
    have hfeed : '\n' ∉ l.text := fun hfeed =>
      let ⟨a, ha⟩ := LineRest.of_feed (s := textOf ls) hall hfeed
      h a ha
    refine ⟨hfeed, fun k hk => ?_⟩
    obtain ⟨ks, rfl⟩ := List.head?_eq_some_iff.mp hk
    exact hcomment k ks hfit.2 hlast fun a ha => h _ (.behind hall hfeed ha)

/-! ## Expressions in one piece -/

namespace IsOrderly

variable {s : List Char}

/-- The lexemes behind an own token are the text behind it. -/
theorem drop_stop (h : IsOrderly s) {t : Token} {is : List Item}
    (ht : (.token t :: is) <:+ lex .expression s) : s.drop t.stop = textOf (Item.lexemes is) := by
  obtain ⟨front, hfront⟩ := ht
  have hlexemes : lexemesOf s = Item.lexemes front ++ t.lexeme :: Item.lexemes is := by
    rw [lexemesOf, ← hfront, Item.lexemes_append, Item.lexemes_token]
  have htokens := expressionTokens_textOf h.fit h.nest
  rw [h.text, expressionTokens, ← hfront, hlexemes, place_append, Item.tokensAll_append] at htokens
  have hlength : (Item.tokensAll front).length = (place 0 (Item.lexemes front)).length := by
    have hmap := congrArg List.length (map_lexeme_place 0 (Item.lexemes front))
    rw [List.length_map] at hmap
    rw [hmap, Item.lexemes, List.length_map]
  have hplace : t = ⟨0 + (textOf (Item.lexemes front)).length, t.text, t.cls⟩ :=
    (List.cons.inj (List.append_inj htokens hlength).2).1
  have hstop : t.stop = (textOf (Item.lexemes front) ++ t.text).length := by
    rw [hplace, Token.stop, Nat.zero_add, List.length_append]
  have hs : s = (textOf (Item.lexemes front) ++ t.text) ++ textOf (Item.lexemes is) := by
    conv => lhs; rw [← h.text, hlexemes, textOf_append, textOf_cons, ← List.append_assoc]
    rfl
  rw [hstop]
  conv => lhs; rw [hs]
  exact List.drop_left

/-- As the value of an attribute or a field it is whole, without a comma of its own and where no string
of its own closes a line. -/
theorem whole_inValue (h : IsOrderly s) (htrim : Trimmed s) (hne : s ≠ [])
    (hlast : ∀ l : Lexeme, l ∈ (lexemesOf s).getLast? → l.isLineComment = false)
    (hcomma : ∀ t, .token t ∈ lex .expression s → t.text ≠ [','])
    (hstrings : ∀ t : Token, .token t ∈ lex .expression s → t.cls = .string →
      ∀ a, ¬ LineRest a (s.drop t.stop)) : Whole InValue (lexemesOf s) := by
  refine h.whole htrim hne hlast fun l ls hls hown => ?_
  obtain ⟨t, is, his, rfl, rfl⟩ := hown
  have ht := his.subset List.mem_cons_self
  refine ⟨hcomma t ht, fun hcls => ?_⟩
  obtain ⟨front, hfront⟩ := hls
  have hfit := h.fit
  rw [← hfront] at hfit
  refine goesOn_of_not_lineRest (allFit_append_iff.mp hfit).2.2 (fun k hk => hlast k ?_) fun a => ?_
  · obtain ⟨init, hinit⟩ := List.getLast?_eq_some_iff.mp hk
    rw [← hfront, hinit, ← List.cons_append, ← List.append_assoc, List.getLast?_concat]
    rfl
  · rw [← h.drop_stop his]
    exact hstrings t ht hcls a

/-- As a spread it is whole, without a comma of its own and on one line but for free tokens. -/
theorem whole_inSpread (h : IsOrderly s) (htrim : Trimmed s) (hne : s ≠ [])
    (hlast : ∀ l : Lexeme, l ∈ (lexemesOf s).getLast? → l.isLineComment = false)
    (hcomma : ∀ t, .token t ∈ lex .expression s → t.text ≠ [','])
    (hline : ∀ t : Token, .token t ∈ lex .expression s → '\n' ∈ t.text → t.cls ∈ freeClasses) :
    Whole InSpread (lexemesOf s) := by
  refine h.whole htrim hne hlast fun l ls _ hown => ?_
  obtain ⟨t, is, his, rfl, rfl⟩ := hown
  have ht := his.subset List.mem_cons_self
  refine ⟨hcomma t ht, fun hblank hfeed => ?_⟩
  have hblank' : t.cls = .blank := hblank
  have hfree := hline t ht hfeed
  rw [hblank'] at hfree
  exact absurd hfree (by decide)

end IsOrderly

/-! ## Contexts of a text -/

theorem Item.tokensAll_subset_of_mem {m : Mode} {sub items : List Item}
    (h : (m, sub) ∈ contextsAll items) : tokensAll sub ⊆ tokensAll items := by
  obtain ⟨k, before, behind, hinfix⟩ := exists_infix_leveledAll 0 items h
  intro t ht
  rw [← map_leveledAll 0, hinfix, List.map_append, List.map_append, map_leveledAll]
  exact List.mem_append_right _ (List.mem_append_left _ ht)

/-- A context of a text, read from `c` on: it is in order, and its tokens are sealed. -/
structure SealedContext (text : List Char) (m : Mode) (c : Cursor) (sub : List Item) : Prop where
  place : c.In text
  scans : ∃ back, Scans m c sub back
  sound : SoundItems m sub
  tokens : ∀ t ∈ Item.tokensAll sub, t.Sealed text

theorem exists_sealedContext {text : List Char} {m : Mode} {sub : List Item}
    (hsound : SoundItems .root (lex .root text)) (hsealed : IsSealed text)
    (h : (m, sub) ∈ Item.contextsAll (lex .root text)) : ∃ c, SealedContext text m c sub := by
  obtain ⟨stop, hscan, -⟩ := scans_lex isBottom_root text
  obtain ⟨c, back, hc, hsub⟩ := (hscan.located (Cursor.in_start text)).2 _ h
  refine ⟨c, hc, ⟨back, hsub⟩, hsound.of_context h, fun t ht => ?_⟩
  have hmem := Item.tokensAll_subset_of_mem h ht
  exact ⟨hsound.matched t hmem, hsealed t hmem⟩

/-- The expression of a context: it stands in the text, it is orderly, and no line comment ends it. -/
structure OrderlyIn (text : List Char) (c : Cursor) (items : List Item) (s : List Char) : Prop where
  express : ∃ p, Item.Express c items p s
  orderly : IsOrderly s
  trimmed : Trimmed s
  ne_nil : s ≠ []
  last : ∀ l : Lexeme, l ∈ (lexemesOf s).getLast? → l.isLineComment = false
  subset : s ⊆ text

namespace SealedContext

variable {text s : List Char} {m : Mode} {c : Cursor} {sub : List Item}

theorem orderlyIn (h : SealedContext text m c sub) (hm : m.isValue = true)
    (hclosed : m = .rawExpression → (Item.closedBy? ['\x7d'] sub).isSome = true)
    (hspell : Item.Spell (m.expressionItems sub) s) : OrderlyIn text c (m.expressionItems sub) s := by
  obtain ⟨back, hscan⟩ := h.scans
  obtain ⟨w, r, hexpress⟩ := hscan.expresses hm hclosed h.sound hspell
  obtain ⟨tail, hsplit, -⟩ := Mode.expressionItems_split hm hclosed
  have hlast := Item.getLast?_dropTrailing (m.expressionItems sub)
  -- The items without the white space in front, and with a comma behind them.
  obtain ⟨d, v, rfl⟩ := List.exists_cons_of_ne_nil hexpress.nonempty
  obtain ⟨front, own, hown, -, hpieces⟩ :=
    hexpress.pieces.behind_blanks rfl hexpress.blank (hexpress.trimmed.head d rfl)
  have hne : own ≠ [] := by
    rintro rfl
    cases hpieces.spellingAll_eq
  have hcomma : Pieces (c.pos + w.length) (d :: v) own [','] := by
    refine Pieces.comma (r := []) (hpieces.truncate rfl) (.inr fun i hi => hlast i ?_)
    rwa [hown, List.getLast?_append_of_ne_nil _ hne]
  have hbounds : Bounds [','] := by
    rintro c ⟨⟩
    decide
  have hsealed : ∀ t ∈ Item.tokensAll own, t.Sealed text := by
    intro t ht
    refine h.tokens t ?_
    rw [hsplit, hown, Item.tokensAll_append, Item.tokensAll_append]
    exact List.mem_append_left _ (List.mem_append_right _ ht)
  have hdrop : text.drop (c.pos + w.length) = d :: v ++ r := by
    rw [← List.drop_drop, h.place.drop_eq, hexpress.rest, List.drop_left]
  obtain ⟨ls, hls⟩ := hcomma.exists_lexemes hbounds hsealed ⟨r, hdrop.symm⟩ [] nofun
  rw [List.nil_append] at hls
  obtain ⟨horderly, hlexemes⟩ :=
    isOrderly_of_lexes hls.truncate (hexpress.pieces.soundTree hexpress.blank)
  refine ⟨⟨_, w, r, hexpress, rfl⟩, horderly, hexpress.trimmed, hexpress.nonempty, ?_, ?_⟩
  · rw [hlexemes]
    exact fun l hl => hls.last_not_comment (by decide) hl
  · intro x hx
    refine List.mem_of_mem_drop (i := c.pos + w.length) ?_
    rw [hdrop]
    exact List.mem_append_left _ hx

end SealedContext

/-- No token of the items of an expression is a comma, outside of brackets. -/
theorem OrderlyIn.ne_comma {text s : List Char} {m : Mode} {c : Cursor} {sub : List Item}
    (h : OrderlyIn text c (m.expressionItems sub) s)
    (hcontext : SealedContext text m c sub) (hm : m = .attribute ∨ m = .spread) :
    ∀ t, .token t ∈ lex .expression s → t.text ≠ [','] := by
  intro t ht htext
  obtain ⟨back, hscan⟩ := hcontext.scans
  obtain ⟨left, hformed, -⟩ := hscan.formed
  -- On its own the comma is ordinary text.
  have hcls : t.cls = .text := by
    have hmem := mem_lexemesOf.mpr ⟨t, Item.mem_tokensAll_of_mem ht, rfl⟩
    obtain ⟨u, hu⟩ := h.orderly.fit.exists_fits hmem
    exact hu.comma htext
  obtain ⟨p, w, r, hexpress, -⟩ := h.express
  have hmem : .token (t.moved (c.pos + w.length)) ∈ m.expressionItems sub :=
    Item.mem_of_mem_dropTrailing (hexpress.token_mem ht (by rw [hcls]; decide))
  have hsub : .token (t.moved (c.pos + w.length)) ∈ sub := by
    rcases hm with rfl | rfl
    · exact mem_of_mem_valueItems hmem
    · exact hmem
  rcases hformed.origin _ hsub with ⟨hstray, -⟩ | ⟨q, hmakes⟩
  · exact hcontext.sound.not_stray _ hsub hstray
  · obtain ⟨rest, hfirst⟩ := hmakes.first
    have heffect := hmakes.effect
    rw [Token.moved, htext] at hfirst
    rw [Token.moved, hcls] at heffect
    rcases hm with rfl | rfl
    · cases hfirst.symm.trans (Rule.first?_cons_some rfl)
      cases heffect
    · cases hfirst.symm.trans (Rule.first?_cons_some rfl)

/-! ## Lone strings -/

theorem eq_string_of_stands {l : Lexeme} {t b s : List Char} (h : Stands t l) (hcls : l.cls ≠ .stray)
    (hb : isQuotable b = true) (hs : l.text ++ s = quote b) : l = ⟨quote b, .string⟩ ∧ s = [] := by
  cases h with
  | fits h => exact h.eq_string hb hs
  | quote _ => exact absurd rfl hcls
  | comment _ | raw _ | hash _ => cases hs

/-- A string literal is one token. -/
theorem Pieces.of_quote {pos : Nat} {s r b : List Char} {is : List Item} (h : Pieces pos s is r)
    (hb : isQuotable b = true) (hs : s = quote b) : is = [.token ⟨pos, quote b, .string⟩] := by
  cases h with
  | nil => cases hs
  | @blank _ u s _ is hne hu _ =>
    obtain ⟨c, v, rfl⟩ := List.exists_cons_of_ne_nil hne
    obtain rfl : c = '"' := (List.cons.inj hs).1
    exact absurd (hu '"' List.mem_cons_self) (by decide)
  | @token _ l s _ is hl _ hstray _ h =>
    obtain ⟨rfl, rfl⟩ := eq_string_of_stands hl hstray hb hs
    by_cases hnil : is = []
    · rw [hnil]
    · exact absurd rfl (h.text_ne_nil hnil)
  | @group _ o _ _ _ _ _ _ ho hopen _ _ _ _ =>
    rcases (ho.opener hopen).2 with he | he | he <;> (rw [he] at hs; cases hs)

/-- Behind an expression, a line comment ends the line, if not a line feed in front of it. -/
theorem Pieces.exists_lineRest {pos : Nat} {s r : List Char} {is : List Item} (h : Pieces pos s is r) :
    (∀ i ∈ is, i.isTrailing = true) → (∃ i ∈ is, i.isBlank = false) →
      (s ++ r).getLast? = some '\n' → ∃ a, LineRest a (s ++ r) := by
  induction h with
  | nil =>
    rintro - ⟨i, hi, -⟩ _
    cases hi
  | @blank pos u s r is hne hu h ih =>
    rintro htrailing ⟨i, hi, hsolid⟩ hends
    rw [List.append_assoc] at hends ⊢
    by_cases hfeed : '\n' ∈ u
    · exact LineRest.of_feed hu hfeed
    · have hmem : i ∈ is := by
        rcases List.mem_cons.mp hi with rfl | hi
        · cases hsolid
        · exact hi
      have hs : s ++ r ≠ [] := List.append_ne_nil_of_left_ne_nil (h.text_ne_nil (List.ne_nil_of_mem hmem)) r
      rw [List.getLast?_append_of_ne_nil _ hs] at hends
      obtain ⟨a, ha⟩ := ih (List.forall_mem_cons.mp htrailing).2 ⟨i, hmem, hsolid⟩ hends
      exact ⟨u ++ a, ha.behind hu hfeed⟩
  | @token pos l s r is hl hblank hstray _ _ _ =>
    rintro htrailing - hends
    have hcomment : l.isLineComment = true := by
      have htrail : l.isTrailing = true := htrailing _ List.mem_cons_self
      rw [isTrailing, decide_eq_false hblank, Bool.false_or] at htrail
      exact htrail
    have hfits : l.Fits (s ++ r) := by
      generalize s ++ r = t at hl
      cases hl with
      | fits h => exact h
      | quote _ | comment _ | raw _ | hash _ => cases hcomment
    obtain ⟨v, hv, hfeed, -⟩ := hfits.inv_lineComment hcomment
    rw [List.append_assoc] at hends ⊢
    refine ⟨[], .of_comment hfits hcomment fun hnil => ?_⟩
    rw [hnil, List.append_nil, hv] at hends
    have hmem := List.mem_of_mem_getLast? hends
    simp [hfeed] at hmem
  | group _ _ _ _ _ _ _ _ =>
    rintro htrailing - _
    cases htrailing (.context _ _) (List.mem_cons_of_mem _ List.mem_cons_self)

/-- White space in front of an expression with its items. -/
theorem Item.isLoneString_of_blanks {front dropped : List Item} {t : Token}
    (hfront : ∀ i ∈ front, i.isBlank = true) (hdropped : ∀ i ∈ dropped, i.isBlank = true)
    (ht : t.cls = .string) : isLoneString (front ++ [.token t] ++ dropped) = true := by
  have hblank : ∀ {is : List Item}, (∀ i ∈ is, i.isBlank = true) →
      is.filter (fun i => !i.isBlank) = [] := by
    intro is his
    rw [List.filter_eq_nil_iff]
    intro i hi
    rw [his i hi]
    decide
  refine isLoneString_iff.mpr ⟨t, ?_, ht⟩
  rw [List.filter_append, List.filter_append, hblank hfront, hblank hdropped, List.nil_append,
    List.append_nil, List.filter_cons_of_pos (by simp [isBlank, ht]), List.filter_nil]

theorem startsWithToken_of_trailing {items : List Item} (h : ∀ i ∈ items, i.isTrailing = true) :
    StartsWithToken items := by
  rintro k sub rest rfl
  cases h (.context k sub) List.mem_cons_self

/-- A token stands among the tokens of a context once. -/
theorem Scans.not_last {m : Mode} {c back : Cursor} {front behind : List Item} {t : Token}
    (h : Scans m c (front ++ [.token t] ++ behind) back) (ht : t.text ≠ []) (hne : behind ≠ []) :
    ¬ ∃ init, front ++ [.token t] ++ behind = init ++ [.token t] := by
  rintro ⟨init, hinit⟩
  have hlast := congrArg List.getLast? hinit
  rw [List.getLast?_append_of_ne_nil _ hne, List.getLast?_concat] at hlast
  have hmem := Item.mem_tokensAll_of_mem (List.mem_of_getLast? hlast)
  have hsorted := h.ordered.sorted
  rw [Item.tokensAll_append, Item.tokensAll_append] at hsorted
  have hle := (List.pairwise_append.mp hsorted).2.2 t (List.mem_append_right _ List.mem_cons_self) t hmem
  rw [Token.stop] at hle
  have hpos := List.length_pos_iff.mpr ht
  omega

/-- A value that reads as a string literal is one. -/
theorem SealedContext.isLoneString {text b : List Char} {c : Cursor} {sub : List Item}
    (h : SealedContext text .attribute c sub) (hplain : Plain text) (hends : text.getLast? = some '\n')
    (hspell : Item.Spell (valueItems sub) (quote b)) (hb : isQuotable b = true) :
    Item.isLoneString (valueItems sub) = true := by
  obtain ⟨back, hscan⟩ := h.scans
  obtain ⟨w, r, hexpress⟩ := hscan.expresses (m := .attribute) rfl nofun h.sound hspell
  obtain ⟨front, own, hown, hfront, hpieces⟩ :=
    hexpress.pieces.behind_blanks rfl hexpress.blank (by decide)
  obtain rfl := hpieces.of_quote hb rfl
  obtain ⟨dropped, hitems, htrailing⟩ := Item.dropTrailing_append (valueItems sub)
  have hown' : Item.dropTrailing (valueItems sub) = front ++ [.token ⟨_, quote b, .string⟩] := hown
  have hvalue := hitems
  rw [hown'] at hvalue
  by_cases hblank : ∀ i ∈ dropped, i.isBlank = true
  · rw [hvalue]
    exact Item.isLoneString_of_blanks hfront hblank rfl
  -- There is a line comment behind the literal, so that it closes its line and ends the value.
  exfalso
  obtain ⟨i, hi, hsolid⟩ : ∃ i ∈ dropped, i.isBlank = false := by simpa using hblank
  obtain ⟨ending, hsub, htokens, hbounded⟩ :=
    @Mode.expressionItems_append .attribute sub rfl nofun
  obtain ⟨u, q, hrest, hall⟩ :=
    hscan.pieces rfl hsub (startsWithToken_of_forall htokens) h.sound hbounded
  obtain ⟨u, v, rfl, hfirst, hsecond⟩ := hall.split hitems (startsWithToken_of_trailing htrailing)
  obtain rfl : u = w ++ quote b :=
    Except.ok.inj (hfirst.spellingAll_eq.symm.trans hexpress.pieces.spellingAll_eq)
  have hdrop : text.drop (c.pos + w.length + (quote b).length) = v ++ q := by
    rw [Nat.add_assoc, ← List.length_append, ← List.drop_drop, h.place.drop_eq, hrest,
      List.append_assoc, List.drop_left]
  have hne : v ++ q ≠ [] :=
    List.append_ne_nil_of_left_ne_nil (hsecond.text_ne_nil (List.ne_nil_of_mem hi)) q
  have hfeed : (v ++ q).getLast? = some '\n' := by
    rw [← hdrop, List.getLast?_drop, hends, if_neg]
    rw [← List.drop_eq_nil_iff, hdrop]
    exact hne
  obtain ⟨a, ha⟩ := hsecond.exists_lineRest htrailing ⟨i, hi, hsolid⟩ hfeed
  have hsplit : sub = front ++ [.token ⟨c.pos + w.length, quote b, .string⟩] ++ (dropped ++ ending) := by
    rw [← List.append_assoc, ← hvalue]
    exact hsub
  have hmem : .token ⟨c.pos + w.length, quote b, .string⟩ ∈ sub := by
    rw [hsplit]
    simp
  rcases hscan.keepsLine rfl h.place _ hmem rfl with hlast | hkeeps
  · rw [hsplit] at hscan hlast
    exact hscan.not_last (List.cons_ne_nil _ _)
      (List.append_ne_nil_of_left_ne_nil (List.ne_nil_of_mem hi) _) hlast
  · rw [Token.stop, hdrop] at hkeeps
    obtain ⟨x, hx, hother⟩ := hkeeps a ha
    obtain ⟨y, z, hsplit', -⟩ := ha.ends
    have hxtext : x ∈ text := by
      refine List.mem_of_mem_drop (i := c.pos + w.length + (quote b).length) ?_
      rw [hdrop, hsplit']
      exact List.mem_append_left _ hx
    rw [hplain x hxtext] at hother
    cases hother

/-! ## Decorations -/

/-- A decoration of a text is one wherever it is written. -/
theorem SealedContext.isDecorationText {text s o : List Char} {c : Cursor} {sub : List Item}
    (h : SealedContext text .decoration c sub) (hclosed : (Item.closedBy? [']'] sub).isSome = true)
    (hs : Item.spellingAll sub = .ok s) (ho : o = ['#', '['] ∨ o = ['#', '!', '[']) :
    IsDecorationText (o ++ s) := by
  obtain ⟨back, hscan⟩ := h.scans
  obtain ⟨t, hsub, ht⟩ := Item.append_of_closedBy? hclosed
  have hstray : t.cls ≠ .stray := h.sound.not_stray t (by
    rw [hsub]
    exact List.mem_append_right _ List.mem_cons_self)
  have hend : Item.spellingAll [.token t] = .ok [']'] := by
    simp [Item.spellingAll, Item.spelling, hstray, ht]
  have hstart : StartsWithToken [.token t] := by
    rintro k sub rest ⟨⟩
  obtain ⟨u, r, hrest, hpieces⟩ := hscan.pieces rfl hsub hstart h.sound ⟨nofun, fun _ => List.cons_ne_nil _ _⟩
  have hspelling := Item.spellingAll_append hpieces.spellingAll_eq hend
  rw [← hsub, hs] at hspelling
  obtain rfl := Except.ok.inj hspelling
  -- The bracket that closes it stands behind what is in it.
  have hspans := (hscan.spans rfl).rest
  rw [Item.textAll_of_spellingAll sub hs, hrest, List.append_assoc] at hspans
  obtain rfl : r = ']' :: back.rest := List.append_cancel_left hspans
  have hbounds : Bounds (']' :: back.rest) := by
    rintro d ⟨⟩
    decide
  have htokens : ∀ t ∈ Item.tokensAll sub.dropLast, t.Sealed text := by
    intro t ht
    refine h.tokens t ?_
    rw [hsub, Item.tokensAll_append]
    exact List.mem_append_left _ ht
  have hdrop : u ++ ']' :: back.rest = text.drop c.pos := by rw [← hrest, h.place.drop_eq]
  obtain ⟨ls, hls⟩ := hpieces.exists_lexemes hbounds htokens ⟨_, hdrop⟩ [] nofun
  rw [List.nil_append] at hls
  have hdecoration := isDecorationText_of_nest ho hls.truncate.fit hls.nest
    fun l hl => hls.last_not_comment (by decide) hl
  rwa [hls.text] at hdecoration

/-! ## The heads of a document -/

/-- Values and spreads in one piece, and decorations that can be read back. -/
def Heads.whole : Heads where
  value h := (∃ ls, Whole InValue ls ∧ textOf ls = h) ∧ ∀ b, isQuotable b = true → h ≠ quote b
  spread h := ∃ ls, Whole InSpread ls ∧ textOf ls = h
  raw _ := True
  decoration := IsDecorationText

theorem Heads.whole_readable (f : Formatter) : Heads.whole.Readable f where
  value h hh depth := by
    obtain ⟨⟨ls, hls, rfl⟩, hlone⟩ := hh
    exact isValueText_hung_tidy hls hlone (f.blank_margin depth) (f.feed_not_mem_margin depth)
  spread h hh depth := by
    obtain ⟨ls, hls, rfl⟩ := hh
    exact isSpreadText_hung_tidy hls (f.blank_margin depth) (f.feed_not_mem_margin depth)
  decoration _ hs := hs

/-- The heads of an accepted text are whole. -/
theorem Heads.whole_hold {text : List Char} (hsound : SoundItems .root (lex .root text))
    (hsealed : IsSealed text) (hplain : Plain text) (hends : text.getLast? = some '\n') :
    Heads.whole.Hold (lex .root text) where
  value hmem hlone hspell := by
    obtain ⟨c, hcontext⟩ := exists_sealedContext hsound hsealed hmem
    obtain ⟨back, hscan⟩ := hcontext.scans
    have horderly := hcontext.orderlyIn rfl nofun hspell
    obtain ⟨p, hexpress⟩ := horderly.express
    have hstrings := stringsGoOn_of_express hscan hcontext.place hexpress
    refine ⟨⟨_, horderly.orderly.whole_inValue horderly.trimmed horderly.ne_nil horderly.last
      (horderly.ne_comma hcontext (.inl rfl)) fun t ht hcls => hstrings.of_plain ?_ ht hcls,
      horderly.orderly.text⟩, ?_⟩
    · exact fun x hx => hplain x (horderly.subset hx)
    · rintro b hb rfl
      rw [hcontext.isLoneString hplain hends hspell hb] at hlone
      cases hlone
  spread hmem hspell := by
    obtain ⟨c, hcontext⟩ := exists_sealedContext hsound hsealed hmem
    obtain ⟨back, hscan⟩ := hcontext.scans
    have horderly := hcontext.orderlyIn rfl nofun hspell
    obtain ⟨p, hexpress⟩ := horderly.express
    have hline := onLine_of_express hscan hexpress
    refine ⟨_, horderly.orderly.whole_inSpread horderly.trimmed horderly.ne_nil horderly.last
      (horderly.ne_comma hcontext (.inr rfl)) fun t ht => hline.of_plain ?_ ht, horderly.orderly.text⟩
    exact fun x hx => hplain x (horderly.subset hx)
  raw _ _ := trivial
  decoration hmem hclosed hs ho := by
    obtain ⟨c, hcontext⟩ := exists_sealedContext hsound hsealed hmem
    exact hcontext.isDecorationText hclosed hs ho

end BlockMarkup
