import BlockMarkup.Proofs.Expression.Layout
import BlockMarkup.Proofs.Expression.Lexing

/-!
# BlockMarkup.Proofs.Expression.Orderly

Expressions by their text alone. An orderly text is the same expression wherever it stands; one that
is canonical also stays as it is when it is laid out, at any depth.
-/

namespace BlockMarkup

open Text Lexeme

/-- Read on its own, the text is in order, it closes no bracket that it did not open, and no opening
mark waits for its closing mark. -/
structure IsOrderly (s : List Char) : Prop where
  sound : SoundTree .expression (lex .expression s)
  closer : Item.CloserFree (lex .expression s)
  loose : LooseFree (Item.lexemes (lex .expression s))

/-- The lexemes of a text that is read as an expression. -/
def lexemesOf (s : List Char) : List Lexeme := Item.lexemes (lex .expression s)

theorem mem_lexemesOf {s : List Char} {l : Lexeme} :
    l ∈ lexemesOf s ↔ ∃ t ∈ expressionTokens s, t.lexeme = l := List.mem_map

namespace IsOrderly

variable {s : List Char}

theorem lexed (h : IsOrderly s) : textOf (lexemesOf s) = s ∧ AllFit [] (lexemesOf s) ∧
    Nest (Item.Own (lex .expression s)) (lexemesOf s) := by
  obtain ⟨stop, hscan, hstop⟩ := scans_lex isBottom_expression s
  have hsound := (soundTree_iff_soundItems (by decide) (by decide)).mp h.sound
  have hlexed := hscan.lexed (.inl rfl) hsound (fun _ => h.closer) h.loose
  have htext := hlexed.text
  have hfit := hlexed.fit
  rw [hstop] at hfit htext
  rw [List.append_nil] at htext
  exact ⟨htext.symm, hfit, hlexed.nest rfl⟩

theorem text (h : IsOrderly s) : textOf (lexemesOf s) = s := h.lexed.1

theorem fit (h : IsOrderly s) : AllFit [] (lexemesOf s) := h.lexed.2.1

theorem own (h : IsOrderly s) : Nest (Item.Own (lex .expression s)) (lexemesOf s) := h.lexed.2.2

theorem nest (h : IsOrderly s) : Nest (fun _ _ => True) (lexemesOf s) :=
  h.own.mono fun _ _ _ => trivial

/-- Without white space around it or a line comment at its end, it is whole, whatever a mode asks of
its own tokens. -/
theorem whole (h : IsOrderly s) {A : Lexeme → List Lexeme → Prop} (htrim : Trimmed s) (hne : s ≠ [])
    (hlast : ∀ l : Lexeme, l ∈ (lexemesOf s).getLast? → l.isLineComment = false)
    (hA : ∀ l ls, (l :: ls) <:+ lexemesOf s → Item.Own (lex .expression s) l ls → A l ls) :
    Whole A (lexemesOf s) := by
  have htrim' : Trimmed (textOf (lexemesOf s)) := by rwa [h.text]
  refine ⟨h.fit, h.own.imp hA, htrim', ?_, fun l hl => ?_⟩
  · intro hnil
    have htext := h.text
    rw [hnil] at htext
    exact hne htext.symm
  · have hcomment := hlast l hl
    rw [isLineComment] at hcomment
    simp [isTrailing, last_not_blank h.fit htrim' hl, hcomment]

end IsOrderly

/-- The expression stands on one line, but for its literals, and holds no comma outside of
brackets. -/
structure IsCanonical (s : List Char) : Prop extends IsOrderly s where
  trimmed : Trimmed s
  ne_nil : s ≠ []
  comma : ∀ t, .token t ∈ lex .expression s → t.text ≠ [',']
  comment : ∀ t ∈ expressionTokens s, t.lexeme.isLineComment = false
  line : ∀ t ∈ expressionTokens s, '\n' ∈ t.text → t.cls.isLiteral = true

namespace IsCanonical

variable {s : List Char}

theorem comment_lexeme (h : IsCanonical s) {l : Lexeme} (hl : l ∈ lexemesOf s) :
    l.isLineComment = false := by
  obtain ⟨t, ht, rfl⟩ := mem_lexemesOf.mp hl
  exact h.comment t ht

theorem line_lexeme (h : IsCanonical s) {l : Lexeme} (hl : l ∈ lexemesOf s)
    (hline : '\n' ∈ l.text) : l.cls.isLiteral = true := by
  obtain ⟨t, ht, rfl⟩ := mem_lexemesOf.mp hl
  exact h.line t ht hline

theorem blank_lexeme (h : IsCanonical s) {l : Lexeme} (hl : l ∈ lexemesOf s)
    (hblank : l.cls = .blank) : '\n' ∉ l.text := by
  intro hline
  have hliteral := h.line_lexeme hl hline
  rw [hblank] at hliteral
  cases hliteral

/-- The line goes on behind any of the lexemes. -/
theorem goesOn (h : IsCanonical s) {ls : List Lexeme} (hls : ls <:+ lexemesOf s) :
    goesOn ls := by
  cases ls with
  | nil => trivial
  | cons l ls =>
    have hmem : ∀ k ∈ l :: ls, k ∈ lexemesOf s := fun k hk => hls.subset hk
    refine ⟨h.comment_lexeme (hmem l List.mem_cons_self), fun hblank => ⟨?_, fun k hk => ?_⟩⟩
    · exact h.blank_lexeme (hmem l List.mem_cons_self) hblank
    · exact h.comment_lexeme (hmem k (List.mem_cons_of_mem _ (List.mem_of_head? hk)))

/-- A canonical expression is whole, whatever a mode asks of its own tokens. -/
theorem whole (h : IsCanonical s) {A : Lexeme → List Lexeme → Prop}
    (hA : ∀ l ls, (l :: ls) <:+ lexemesOf s → l.text ≠ [','] → A l ls) :
    Whole A (lexemesOf s) := by
  refine h.toIsOrderly.whole h.trimmed h.ne_nil
    (fun l hl => h.comment_lexeme (List.mem_of_getLast? hl)) fun l ls hls hown => hA l ls hls ?_
  obtain ⟨t, is, his, rfl, -⟩ := hown
  exact h.comma t (his.subset List.mem_cons_self)

/-- It reads as a value, unless it is a string literal. -/
theorem isValueText (h : IsCanonical s) (hlone : ∀ b, isQuotable b = true → s ≠ quote b) :
    IsValueText s := by
  rw [← h.text]
  refine isValueText_of_whole (h.whole fun l ls hls hcomma => ⟨hcomma, fun _ => ?_⟩) ?_
  · exact h.goesOn ((List.suffix_cons l ls).trans hls)
  · rw [h.text]
    exact hlone

theorem isSpreadText (h : IsCanonical s) : IsSpreadText s := by
  rw [← h.text]
  exact isSpreadText_of_whole
    (h.whole fun l ls hls hcomma => ⟨hcomma, h.blank_lexeme (hls.subset List.mem_cons_self)⟩)

/-- It stays as it is, behind any margin. -/
theorem hung_tidy (h : IsCanonical s) (margin : List Char) : hung margin (tidy s) = s := by
  have hlines : literalLines s = List.range' 1 (s.count '\n') := by
    have hliteral := literalLines_textOf h.fit h.nest
    rw [literalFrom_eq_range' fun l hl => h.line_lexeme hl, h.text] at hliteral
    exact hliteral
  rw [tidy_eq_self h.trimmed hlines, hung_eq_self hlines]

end IsCanonical
end BlockMarkup
