import BlockMarkup.Expression.Tidy
import BlockMarkup.Proofs.Expression.Readable
import BlockMarkup.Proofs.Layout.Written

/-!
# BlockMarkup.Proofs.Expression.Layout

The layout of an expression by its lexemes. Where only literals go over several lines, there is
nothing to lay out: the text stays as it is, behind any margin.
-/

namespace BlockMarkup

open Text Lexeme

/-- Lexemes that fit and nest are the tokens of their text. -/
theorem expressionTokens_textOf {ls : List Lexeme} (hfit : AllFit [] ls)
    (hnest : Nest (fun _ _ => True) ls) : expressionTokens (textOf ls) = place 0 ls := by
  obtain ⟨items, hreads, hspelt⟩ := hnest.reads 0 rfl (readsEach_expression []) hfit
  have hstop : Scans .expression ⟨0 + (textOf ls).length, []⟩ [] _ :=
    Scans.stop (c := ⟨0 + (textOf ls).length, []⟩) rfl
  have hscans := hreads _ _ hstop
  rw [List.append_nil, List.append_nil] at hscans
  rw [expressionTokens, lex_eq_of_scans isBottom_expression hscans]
  exact hspelt.tokens nofun

namespace Lexeme

/-- The lines from `n` on that start inside a literal. -/
def literalFrom (n : Nat) : List Lexeme → List Nat
  | [] => []
  | l :: ls =>
    (if l.cls.isLiteral then List.range' (n + 1) (l.text.count '\n') else []) ++
      literalFrom (n + l.text.count '\n') ls

theorem literalLinesOf_place {b : List Char} {ls : List Lexeme} :
    (place b.length ls).flatMap (literalLinesOf (b ++ textOf ls)) =
      literalFrom (b.count '\n') ls := by
  induction ls generalizing b with
  | nil => rfl
  | cons l ls ih =>
    have hrest := ih (b := b ++ l.text)
    rw [List.length_append, List.count_append, List.append_assoc] at hrest
    rw [place, List.flatMap_cons, textOf_cons, hrest, literalFrom]
    congr 1
    simp [literalLinesOf]

theorem literalLines_textOf {ls : List Lexeme} (hfit : AllFit [] ls)
    (hnest : Nest (fun _ _ => True) ls) : literalLines (textOf ls) = literalFrom 0 ls := by
  rw [literalLines, expressionTokens_textOf hfit hnest]
  exact literalLinesOf_place (b := [])

/-- Where only literals go over several lines, every line but the first starts inside one. -/
theorem literalFrom_eq_range' {ls : List Lexeme}
    (h : ∀ l : Lexeme, l ∈ ls → '\n' ∈ l.text → l.cls.isLiteral = true) :
    ∀ n, literalFrom n ls = List.range' (n + 1) ((textOf ls).count '\n') := by
  induction ls with
  | nil => exact fun _ => rfl
  | cons l ls ih =>
    intro n
    rw [literalFrom, ih fun k hk => h k (List.mem_cons_of_mem _ hk), textOf_cons, List.count_append]
    by_cases hl : l.cls.isLiteral = true
    · rw [if_pos hl, ← List.range'_append_1]
      congr 2
      omega
    · have hcount : l.text.count '\n' = 0 := by
        rw [List.count_eq_zero]
        exact fun hmem => hl (h l List.mem_cons_self hmem)
      rw [if_neg hl, hcount, List.nil_append, Nat.add_zero, Nat.zero_add]

end Lexeme

/-! ## Texts whose lines all start inside literals -/

theorem length_lines (s : List Char) : (lines s).length = s.count '\n' + 1 := by
  induction s with
  | nil => rfl
  | cons c s ih =>
    rw [lines]
    split
    · rename_i hc
      subst hc
      simp [ih]
    · rename_i hc
      cases hl : lines s with
      | nil => exact absurd hl (lines_ne_nil s)
      | cons l ls =>
        rw [hl] at ih
        simpa [hc] using ih

theorem last_line_suffix {s l : List Char} (h : (lines s).getLast? = some l) : l <:+ s := by
  induction s with
  | nil =>
    cases h
    exact List.suffix_rfl
  | cons c s ih =>
    have hsuffix : s <:+ c :: s := List.suffix_cons c s
    rw [lines] at h
    cases hl : lines s with
    | nil => exact absurd hl (lines_ne_nil s)
    | cons k ks =>
      rw [hl] at h ih
      split at h
      · exact (ih (by rwa [List.getLast?_cons_cons] at h)).trans hsuffix
      · cases ks with
        | nil =>
          cases h
          have hs := unlines_lines s
          rw [hl] at hs
          rw [← hs]
          exact List.suffix_rfl
        | cons k' ks => exact (ih (by rwa [List.getLast?_cons_cons] at h ⊢)).trans hsuffix

/-- White space at the end of the last line is white space at the end of the text. -/
theorem stripEnd_last_line {s l : List Char} (hs : Trimmed s)
    (h : (lines s).getLast? = some l) : stripEnd l = l := by
  obtain ⟨before, rfl⟩ := last_line_suffix h
  cases l with
  | nil => rfl
  | cons c l =>
    refine stripEnd_of_last fun d hd => hs.last d ?_
    rwa [List.getLast?_append_of_ne_nil _ (List.cons_ne_nil c l)]

namespace Tidy

theorem map_text_trimmed {n : Nat} {ls : List (List Char)}
    (hlast : ∀ l ∈ ls.getLast?, stripEnd l = l) : ∀ i, i + ls.length = n + 1 →
      (trimmed (List.range' 1 n) i ls).map (·.text) = ls := by
  induction ls with
  | nil => exact fun _ _ => rfl
  | cons l ls ih =>
    intro i hi
    rw [List.length_cons] at hi
    rw [trimmed, List.map_cons]
    cases ls with
    | nil =>
      have hn : (List.range' 1 n).contains (i + 1) = false := by
        simp at hi ⊢
        omega
      simp only [hn, Bool.false_eq_true, if_false, hlast l rfl, trimmed, List.map_nil]
    | cons k ks =>
      have hn : (List.range' 1 n).contains (i + 1) = true := by
        simp at hi ⊢
        omega
      rw [ih (fun l hl => hlast l (by rw [List.getLast?_cons_cons]; exact hl)) (i + 1) (by omega)]
      simp only [hn, if_true]

theorem verbatim_trimmed {n : Nat} {ls : List (List Char)} : ∀ i, 1 ≤ i → i + ls.length = n + 1 →
    ∀ l ∈ trimmed (List.range' 1 n) i ls, l.verbatim = true := by
  induction ls with
  | nil => exact fun _ _ _ => nofun
  | cons l ls ih =>
    intro i h1 hi
    rw [List.length_cons] at hi
    rw [trimmed, List.forall_mem_cons]
    refine ⟨?_, ih (i + 1) (by omega) (by omega)⟩
    simp
    omega

theorem arranged_of_verbatim {ls : List Line} (h : ∀ l ∈ ls, l.verbatim = true) :
    arranged ls = ls := by
  have hkept : ls.filter isKept = ls :=
    List.filter_eq_self.mpr fun l hl => by rw [isKept, h l hl, Bool.true_or]
  rw [arranged, hkept]
  conv => rhs; rw [← List.map_id ls]
  refine List.map_congr_left fun l hl => ?_
  rw [dedent, if_pos (h l hl)]
  rfl

end Tidy

/-- A text is laid out already if all its further lines start inside a literal. -/
theorem tidy_eq_self {s : List Char} (hs : Trimmed s)
    (hl : literalLines s = List.range' 1 (s.count '\n')) : tidy s = s := by
  have hlength := length_lines s
  rw [tidy, strip_of_trimmed hs, Tidy.layout, hl]
  cases hlines : lines s with
  | nil => exact absurd hlines (lines_ne_nil s)
  | cons first rest =>
    rw [hlines, List.length_cons] at hlength
    have htexts := Tidy.map_text_trimmed (n := s.count '\n')
      (fun l h => stripEnd_last_line hs h) 0 (by rw [length_lines]; omega)
    rw [hlines, Tidy.trimmed, List.map_cons] at htexts
    have hverbatim : ∀ l ∈ Tidy.trimmed (List.range' 1 (s.count '\n')) 1 rest, l.verbatim = true :=
      Tidy.verbatim_trimmed 1 (Nat.le_refl 1) (by omega)
    rw [Tidy.trimmed]
    simp only [Tidy.arranged_of_verbatim hverbatim, List.map_cons]
    rw [htexts, ← hlines, unlines_lines]

theorem append_hungLines {margin first : List Char} {literal : List Nat}
    {ls : List (List Char)} : ∀ i, (∀ j, i ≤ j → j < i + ls.length → j ∈ literal) →
      first ++ hungLines margin literal i ls = unlines (first :: ls) := by
  induction ls generalizing first with
  | nil => exact fun _ _ => List.append_nil first
  | cons l ls ih =>
    intro i hi
    rw [List.length_cons] at hi
    have hmem : literal.contains i = true := by simpa using hi i (Nat.le_refl i) (by omega)
    rw [hungLines, if_pos hmem, List.nil_append, List.cons_append,
      ih (i + 1) fun j h1 h2 => hi j (by omega) (by omega)]
    rfl

/-- No margin is put in front of a line that starts inside a literal. -/
theorem hung_eq_self {margin s : List Char}
    (hl : literalLines s = List.range' 1 (s.count '\n')) : hung margin s = s := by
  have hlength := length_lines s
  unfold hung
  cases hlines : lines s with
  | nil => exact absurd hlines (lines_ne_nil s)
  | cons first rest =>
    rw [hlines, List.length_cons] at hlength
    simp only
    rw [append_hungLines 1, ← hlines, unlines_lines]
    intro j h1 hj
    rw [hl, List.mem_range'_1]
    omega

end BlockMarkup
