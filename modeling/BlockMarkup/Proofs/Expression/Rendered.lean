import BlockMarkup.Proofs.Expression.Carried
import BlockMarkup.Proofs.Expression.Layout
import BlockMarkup.Proofs.Text.Lines

/-!
# BlockMarkup.Proofs.Expression.Rendered

An expression means the same after it is laid out and indented. Both only change white space at line
feeds that stand in no literal (`relaid_tidy`, `relaid_hung`), and so what `Formatter.value` writes has
the tokens of the expression, white space and comments apart (`substance_value_expression`).
-/

namespace BlockMarkup

open Text

/-! ## What a text means, by its tokens -/

/-- The lexemes with the number of brackets around them, `d` around the first. -/
def Lexeme.levels : Nat → List Lexeme → List (Nat × Lexeme)
  | _, [] => []
  | d, l :: ls =>
    match l.move, d with
    | .stay, d => (d, l) :: levels d ls
    | .push _, d => (d, l) :: levels (d + 1) ls
    | .pop, 0 => (0, { l with cls := .text }) :: levels 0 ls
    | .pop, d + 1 => (d + 1, l) :: levels d ls

theorem move_of_comment {t : Token} (ht : t.cls = .comment) : t.lexeme.move = .stay := by
  by_contra hmove
  have hcls : t.cls = .bracket := Lexeme.cls_of_move hmove
  rw [ht] at hcls
  cases hcls

theorem levels_core (d : Nat) (ts : List Token) :
    (((levels d ts).filter fun p => p.2.cls ≠ .comment).map fun p => (p.1, p.2.lexeme)) =
      Lexeme.levels d (core ts) := by
  induction ts generalizing d with
  | nil => rfl
  | cons t ts ih =>
    by_cases ht : t.cls = .comment
    · rw [levels_stay d (move_of_comment ht), List.filter_cons_of_neg (by simp [ht]), ih, core_cons,
        if_pos ht]
    · rw [core_cons, if_neg ht]
      cases hmove : t.lexeme.move with
      | stay =>
        rw [levels_stay d hmove, List.filter_cons_of_pos (by simp [ht]), List.map_cons, ih]
        simp only [Lexeme.levels, hmove]
      | push m =>
        rw [levels_push d hmove, List.filter_cons_of_pos (by simp [ht]), List.map_cons, ih]
        simp only [Lexeme.levels, hmove]
      | pop =>
        cases d with
        | zero =>
          rw [levels_loose hmove, List.filter_cons_of_pos (by simp), List.map_cons, ih]
          simp only [Lexeme.levels, hmove]
          rfl
        | succ d =>
          rw [levels_pop d hmove, List.filter_cons_of_pos (by simp [ht]), List.map_cons, ih]
          simp only [Lexeme.levels, hmove]

/-- What a text means depends on its lexemes alone, and not on the comments. -/
theorem Cuts.substance_eq {s : List Char} {ts : List Token} (h : Cuts 0 s ts) :
    Item.substance (lex .expression s) = Lexeme.levels 0 (core ts) := by
  have hsolid := h.levels_eq
  rw [Item.solid] at hsolid
  rw [← levels_core, hsolid, List.filter_filter, Item.substance]
  congr 2
  funext p
  simp [Bool.and_comm]

/-! ## Lines that start inside a literal -/

section

variable {s : List Char} {ts : List Token} {t : Token}

/-- Brackets change no literal. -/
theorem mem_levels_iff (ht : t.cls.isLiteral = true) (d : Nat) :
    (∃ e, (e, t) ∈ levels d ts) ↔ t ∈ ts := by
  have htext : ∀ u : Token, t ≠ { u with cls := .text } := by
    rintro u rfl
    cases ht
  have hmove : ∀ u : Token, u.lexeme.move ≠ .stay → t ≠ u := by
    rintro u hmove rfl
    have hcls : t.cls = .bracket := Lexeme.cls_of_move hmove
    rw [hcls] at ht
    cases ht
  induction ts generalizing d with
  | nil => simp [levels]
  | cons u ts ih =>
    cases hu : u.lexeme.move with
    | stay => simp [levels_stay d hu, ← ih d, exists_or]
    | push m =>
      have hne := hmove u (by rw [hu]; rintro ⟨⟩)
      simp [levels_push d hu, ← ih (d + 1), hne]
    | pop =>
      have hne := hmove u (by rw [hu]; decide)
      cases d with
      | zero => simp [levels_loose hu, ← ih 0, hne, htext u]
      | succ d => simp [levels_pop d hu, ← ih d, hne]

theorem Cuts.mem_expressionTokens (h : Cuts 0 s ts) (ht : t.cls.isLiteral = true) :
    t ∈ expressionTokens s ↔ t ∈ ts := by
  have hblank : t.cls ≠ .blank := by
    intro hblank
    rw [hblank] at ht
    cases ht
  refine Iff.trans ?_ (mem_levels_iff ht 0)
  rw [h.levels_eq, expressionTokens, ← Item.map_leveledAll 0]
  simp [Item.solid, hblank]

theorem Cuts.mem_literalLines (h : Cuts 0 s ts) {k : Nat} : k ∈ literalLines s ↔
    ∃ t ∈ ts, t.cls.isLiteral = true ∧ (s.take t.pos).count '\n' < k ∧
      k ≤ (s.take t.pos).count '\n' + t.text.count '\n' := by
  rw [literalLines, List.mem_flatMap]
  constructor
  · rintro ⟨t, ht, hk⟩
    unfold literalLinesOf at hk
    split at hk
    · rename_i hliteral
      rw [List.mem_range'_1] at hk
      exact ⟨t, (h.mem_expressionTokens hliteral).mp ht, hliteral, by omega, by omega⟩
    · cases hk
  · rintro ⟨t, ht, hliteral, hlt, hle⟩
    refine ⟨t, (h.mem_expressionTokens hliteral).mpr ht, ?_⟩
    rw [literalLinesOf, if_pos hliteral, List.mem_range'_1]
    omega

theorem Cuts.literalLine_iff (h : Cuts 0 s ts) {k : Nat} :
    LiteralLine 0 0 s ts k ↔ k ∈ literalLines s := by
  rw [h.mem_literalLines]
  simp only [LiteralLine, Nat.zero_add, Nat.sub_zero]

/-- No text has more lines that start inside a literal than lines after the first. -/
theorem le_of_mem_literalLines {k : Nat} (hk : k ∈ literalLines s) : k ≤ s.count '\n' := by
  obtain ⟨ts, hcuts, -⟩ := cuts_lex s
  obtain ⟨t, ht, -, -, hle⟩ := hcuts.mem_literalLines.mp hk
  obtain ⟨a, b, rfl, hpos⟩ := hcuts.exists_split t ht
  rw [hpos, Nat.zero_add, List.take_left] at hle
  simp only [List.count_append]
  omega

/-- A blank line starts inside a literal if the next line does. -/
theorem mem_literalLines_of_succ {k : Nat} {l : List Char} (hline : (lines s)[k]? = some l)
    (hl : ∀ c ∈ l, isBlank c = true) (hk : k + 1 ∈ literalLines s) : k ∈ literalLines s := by
  obtain ⟨ts, hcuts, -⟩ := cuts_lex s
  obtain ⟨t, ht, hliteral, hlt, hle⟩ := hcuts.mem_literalLines.mp hk
  refine hcuts.mem_literalLines.mpr ⟨t, ht, hliteral, ?_, by omega⟩
  obtain ⟨a, b, rfl, hpos⟩ := hcuts.exists_split t ht
  obtain ⟨c, v, htext, hc⟩ := hcuts.exists_head t ht
  rw [hpos, Nat.zero_add, List.take_left] at hlt ⊢
  have hne : a.count '\n' ≠ k := by
    rintro rfl
    have hfeed : c ≠ '\n' := by
      rintro rfl
      exact absurd hc (by decide)
    rw [htext, List.cons_append] at hline
    rw [hl c (mem_line_of_split hfeed hline)] at hc
    cases hc
  omega

end

/-! ## The layout of the lines -/

namespace Relaid

variable {P : Relayout} {n : Nat} {s t : List Char}

theorem keeps {u : List Char} (hu : '\n' ∉ u) (h : Relaid P n s t) :
    Relaid P n (u ++ s) (u ++ t) := by
  induction u with
  | nil => exact h
  | cons c u ih =>
    rw [List.mem_cons, not_or] at hu
    exact .keep (Ne.symm hu.1) (ih hu.2)

/-- White space at the end is lost. -/
theorem cut {w : List Char} (hline : ∀ k, P.line (k + 1) = P.line k + 1)
    (hw : ∀ c ∈ w, isBlank c = true) (s : List Char) : Relaid P n (s ++ w) s := by
  induction s generalizing n with
  | nil => exact .done hw (.inl rfl)
  | cons c s ih =>
    by_cases hc : c = '\n'
    · subst hc
      exact .feed (hline n) ih
    · exact .keep hc ih

/-- A line that is lost goes into the white space behind it. -/
theorem absorb {w : List Char} (hw : ∀ c ∈ w, isBlank c = true) (hfeed : '\n' ∈ w)
    (hP : ∀ k, n < k → k ≤ n + w.count '\n' + 1 → ¬ P.firm k)
    (hline : P.line (n + w.count '\n') = P.line n) (ht : ∀ c ∈ t.head?, c = '\n')
    (h : Relaid P (n + w.count '\n') s t) : Relaid P n (w ++ s) t := by
  cases h with
  | done hs hv =>
    refine .done (fun c hc => ?_) hv
    exact (List.mem_append.mp hc).elim (hw c) (hs c)
  | keep hc _ => exact absurd (ht _ rfl) hc
  | @feed _ s t hnext h =>
    rw [List.append_cons]
    refine .soft (m := []) (fun c hc => ?_) (List.mem_append_left _ hfeed) ?_ nofun nofun ?_ ?_
    · rcases List.mem_append.mp hc with hc | hc
      · exact hw c hc
      · cases List.mem_singleton.mp hc
        decide
    · simpa [← Nat.add_assoc] using hP
    · rw [hline] at hnext
      simpa [← Nat.add_assoc] using hnext
    · simpa [← Nat.add_assoc] using h
  | @soft _ w' m s t hw' hfeed' hP' hm hmfeed hnext h =>
    rw [← List.append_assoc]
    refine .soft (fun c hc => (List.mem_append.mp hc).elim (hw c) (hw' c))
      (List.mem_append_left _ hfeed) (fun k hk hle => ?_) hm hmfeed ?_ ?_
    · rw [List.count_append] at hle
      by_cases hk' : k ≤ n + w.count '\n'
      · exact hP k hk (by omega)
      · exact hP' k (by omega) (by omega)
    · rw [List.count_append, ← Nat.add_assoc, hnext, hline]
    · rwa [List.count_append, ← Nat.add_assoc]

/-- The white space at the end of a line, with its line feed. -/
theorem exists_ending {a : List Char} (ha : '\n' ∉ a) : ∃ w, (∀ c ∈ w, isBlank c = true) ∧
    '\n' ∈ w ∧ w.count '\n' = 1 ∧ '\n' ∉ stripEnd a ∧
      ∀ s, a ++ '\n' :: s = stripEnd a ++ (w ++ s) := by
  obtain ⟨w, hw, hblank⟩ := stripEnd_split a
  rw [hw, List.mem_append, not_or] at ha
  refine ⟨w ++ ['\n'], fun c hc => ?_, by simp, ?_, ha.1, fun s => ?_⟩
  · rcases List.mem_append.mp hc with hc | hc
    · exact hblank c hc
    · cases List.mem_singleton.mp hc
      decide
  · rw [List.count_append, List.count_eq_zero_of_not_mem ha.2]
    rfl
  · conv => lhs; rw [hw]
    simp

/-- A line that starts in no literal may get another indent. -/
theorem indented {a p : List Char} (hn : ¬ P.firm (n + 1)) (hline : P.line (n + 1) = P.line n + 1)
    (ha : '\n' ∉ a)
    (hp : ∀ c ∈ p, isBlank c = true) (hpfeed : '\n' ∉ p) (h : Relaid P (n + 1) s t) :
    Relaid P n (a ++ '\n' :: (p ++ s)) (stripEnd a ++ '\n' :: t) := by
  obtain ⟨w, hw, hfeed, hcount, ha', hsplit⟩ := exists_ending ha
  have hcount' : (w ++ p).count '\n' = 1 := by
    rw [List.count_append, hcount, List.count_eq_zero_of_not_mem hpfeed]
  rw [hsplit, ← List.append_assoc w]
  refine .keeps ha' (.soft (m := []) (fun c hc => (List.mem_append.mp hc).elim (hw c) (hp c))
    (List.mem_append_left _ hfeed) (fun k hk hle => ?_) nofun nofun ?_ ?_)
  · rw [hcount'] at hle
    obtain rfl : k = n + 1 := by omega
    exact hn
  · rwa [hcount']
  · rwa [hcount']

/-- A line without a character may be left out, in no literal. -/
theorem dropped {a : List Char} (hn : ¬ P.firm (n + 1)) (hn' : ¬ P.firm (n + 2))
    (hline : P.line (n + 1) = P.line n) (ha : '\n' ∉ a) (ht : ∀ c ∈ t.head?, c = '\n')
    (h : Relaid P (n + 1) s t) : Relaid P n (a ++ '\n' :: s) (stripEnd a ++ t) := by
  obtain ⟨w, hw, hfeed, hcount, ha', hsplit⟩ := exists_ending ha
  rw [hsplit]
  refine .keeps ha' (.absorb hw hfeed (fun k hk hle => ?_) ?_ ht ?_)
  · rw [hcount] at hle
    obtain rfl | rfl : k = n + 1 ∨ k = n + 2 := by omega
    · exact hn
    · exact hn'
  · rwa [hcount]
  · rwa [hcount]

end Relaid

theorem head?_fed (ls : List (List Char)) : ∀ c ∈ (fed ls).head?, c = '\n' := by
  cases ls with
  | nil => exact nofun
  | cons l ls =>
    rintro c ⟨⟩
    rfl

/-- Lines behind a margin, but for those that start inside a literal. -/
theorem relaid_hungLines {literal : List Nat} {margin : List Char} {ls : List (List Char)}
    (hmargin : ∀ c ∈ margin, isBlank c = true) (hfeed : '\n' ∉ margin) (hls : ∀ l ∈ ls, '\n' ∉ l)
    {i : Nat} {a : List Char} (ha : '\n' ∉ a) : Relaid ⟨(· ∈ literal), id⟩ i (a ++ fed ls)
      (a ++ (hungLines margin literal (i + 1) ls ++ ['\n'])) := by
  induction ls generalizing i a with
  | nil => exact .keeps ha (.done nofun (.inr rfl))
  | cons l ls ih =>
    obtain ⟨hl, hls⟩ := List.forall_mem_cons.mp hls
    have hrest := ih hls (i := i + 1) hl
    refine .keeps ha ?_
    rw [fed_cons, hungLines]
    by_cases hmem : i + 1 ∈ literal
    · rw [if_pos (by simpa using hmem)]
      simpa using Relaid.feed rfl hrest
    · rw [if_neg (by simpa using hmem)]
      have hsoft := Relaid.soft blank_newline List.mem_cons_self
        (fun k hk hle => by
          obtain rfl : k = i + 1 := by
            rw [List.count_singleton_self] at hle
            omega
          exact hmem) hmargin hfeed rfl hrest
      simpa using hsoft

theorem relaid_hung {margin : List Char} (hmargin : ∀ c ∈ margin, isBlank c = true)
    (hfeed : '\n' ∉ margin) (s : List Char) :
    Relaid ⟨(· ∈ literalLines s), id⟩ 0 s (hung margin s ++ ['\n']) := by
  have hs := unlines_lines s
  have hall : ∀ l ∈ lines s, '\n' ∉ l := fun _ => not_mem_of_mem_lines
  unfold hung
  cases hl : lines s with
  | nil => exact absurd hl (lines_ne_nil s)
  | cons first rest =>
    rw [hl, unlines_cons] at hs
    rw [hl] at hall
    obtain ⟨hfirst, hrest⟩ := List.forall_mem_cons.mp hall
    have h : Relaid ⟨(· ∈ literalLines s), id⟩ 0 _ _ :=
      relaid_hungLines hmargin hfeed hrest hfirst
    rw [hs, ← List.append_assoc] at h
    exact h

namespace Tidy

/-- The common indent of lines is an indent of each of them. -/
theorem commonIndent_le {ls : List Line} {l : Line} (hl : l ∈ ls) (hverbatim : l.verbatim = false) :
    ∃ n, commonIndent ls = some n ∧ n ≤ leading l.text := by
  induction ls with
  | nil => cases hl
  | cons k ks ih =>
    rcases List.mem_cons.mp hl with rfl | hl
    · rw [commonIndent, if_neg (by simp [hverbatim])]
      cases commonIndent ks with
      | none => exact ⟨_, rfl, Nat.le_refl _⟩
      | some n => exact ⟨_, rfl, Nat.min_le_left _ _⟩
    · obtain ⟨n, hn, hle⟩ := ih hl
      rw [commonIndent, hn]
      split
      · exact ⟨n, rfl, hle⟩
      · exact ⟨_, rfl, Nat.le_trans (Nat.min_le_right _ _) hle⟩

/-- The lines `ls` from line `i` on: a blank line starts inside a literal if the next line does, and
no line behind the last does. -/
structure Settled (literal : List Nat) (i : Nat) (ls : List (List Char)) : Prop where
  line : ∀ k l, ls[k]? = some l → (∀ c ∈ l, isBlank c = true) → i + k + 1 ∈ literal →
    i + k ∈ literal
  stop : i + ls.length ∉ literal

theorem Settled.tail {literal : List Nat} {i : Nat} {l : List Char} {ls : List (List Char)}
    (h : Settled literal i (l :: ls)) : Settled literal (i + 1) ls := by
  refine ⟨fun k l hk hl hmem => ?_, ?_⟩
  · have hline := h.line (k + 1) l hk hl (by rwa [Nat.add_right_comm i 1, Nat.add_assoc i k] at hmem)
    rwa [Nat.add_right_comm, Nat.add_assoc]
  · have hstop := h.stop
    rwa [List.length_cons, Nat.add_comm ls.length, ← Nat.add_assoc] at hstop

/-- The lines of the layout from line `i` on, where `n` characters of indent are cut. -/
def rows (literal : List Nat) (n i : Nat) (ls : List (List Char)) : List (List Char) :=
  ((trimmed literal i ls).filter isKept).map fun l => (dedent n l).text

section

variable {literal : List Nat} {n i : Nat} {l : List Char} {ls : List (List Char)}

theorem rows_verbatim (h : i ∈ literal) : rows literal n i (l :: ls) =
    (if literal.contains (i + 1) then l else stripEnd l) :: rows literal n (i + 1) ls := by
  have hi : literal.contains i = true := by simpa using h
  rw [rows, trimmed, hi, List.filter_cons_of_pos rfl, List.map_cons]
  rfl

theorem rows_blank (h : i ∉ literal) (h' : i + 1 ∉ literal) (hl : stripEnd l = []) :
    rows literal n i (l :: ls) = rows literal n (i + 1) ls := by
  have hi : literal.contains i = false := by simpa using h
  rw [rows, trimmed, hi, if_neg (by simpa using h'), hl, List.filter_cons_of_neg (by simp [isKept])]
  rfl

theorem rows_kept (h : i ∉ literal)
    (hl : (if literal.contains (i + 1) then l else stripEnd l) ≠ []) :
    rows literal n i (l :: ls) =
      (if literal.contains (i + 1) then l else stripEnd l).drop n :: rows literal n (i + 1) ls := by
  have hi : literal.contains i = false := by simpa using h
  rw [rows, trimmed, hi, List.filter_cons_of_pos (by simpa [isKept] using hl), List.map_cons]
  rfl

end

/-- The lines `ls` behind line `i` are numbered by those of them that are kept. -/
def Numbered (line : Nat → Nat) (i : Nat) (ls : List Line) : Prop :=
  ∀ j ≤ ls.length, line (i + j) = line i + (ls.take j).countP isKept

theorem Numbered.cons {line : Nat → Nat} {i : Nat} {l : Line} {ls : List Line}
    (h : Numbered line i (l :: ls)) :
    line (i + 1) = line i + (if isKept l then 1 else 0) ∧ Numbered line (i + 1) ls := by
  have hfirst : line (i + 1) = line i + (if isKept l then 1 else 0) := by
    have h1 := h 1 (by simp)
    simpa [List.countP_cons] using h1
  refine ⟨hfirst, fun j hj => ?_⟩
  have hnext := h (j + 1) (by simpa using hj)
  rw [List.take_succ_cons, List.countP_cons] at hnext
  rw [Nat.add_right_comm i 1 j, Nat.add_assoc i j 1, hnext, hfirst]
  omega

/-- Less indent and less white space at the end, in any order. -/
theorem dedent_ending {b : Bool} {n : Nat} {l : List Char} (hne : (if b then l else stripEnd l) ≠ [])
    (hn : n ≤ leading (if b then l else stripEnd l)) : (∀ c ∈ l.take n, isBlank c = true) ∧
      (if b then l.drop n else stripEnd (l.drop n)) = (if b then l else stripEnd l).drop n := by
  cases b with
  | true => exact ⟨isBlank_of_mem_take hn, rfl⟩
  | false =>
    exact ⟨isBlank_of_mem_take (Nat.le_trans hn (leading_stripEnd_le l)), stripEnd_drop hne hn⟩

/-- The further lines of an expression as they are laid out, behind the first line `a`. -/
theorem relaid_rows {literal : List Nat} {line : Nat → Nat} {n : Nat} {ls : List (List Char)}
    (hls : ∀ l ∈ ls, '\n' ∉ l) {i : Nat} {a : List Char} (ha : '\n' ∉ a)
    (hsettled : Settled literal (i + 1) ls) (hline : Numbered line i (trimmed literal (i + 1) ls))
    (hn : ∀ l ∈ (trimmed literal (i + 1) ls).filter isKept, l.verbatim = false →
      n ≤ leading l.text) :
    Relaid ⟨(· ∈ literal), line⟩ i (a ++ fed ls)
      ((if literal.contains (i + 1) then a else stripEnd a) ++
        fed (rows literal n (i + 1) ls)) := by
  induction ls generalizing i a with
  | nil =>
    have hstop := hsettled.stop
    rw [if_neg (by simpa using hstop)]
    obtain ⟨w, hw, hblank⟩ := stripEnd_split a
    rw [hw, List.mem_append, not_or] at ha
    have hcut : Relaid ⟨(· ∈ literal), line⟩ i (stripEnd a ++ w) (stripEnd a ++ []) :=
      .keeps ha.1 (.done hblank (.inl rfl))
    rw [← hw] at hcut
    simpa [rows, trimmed, fed] using hcut
  | cons l ls ih =>
    obtain ⟨hl, hls⟩ := List.forall_mem_cons.mp hls
    have htail := hsettled.tail
    obtain ⟨hnumber, hline'⟩ : line (i + 1) = line i + (if isKept ⟨literal.contains (i + 1),
        if literal.contains (i + 2) then l else stripEnd l⟩ then 1 else 0) ∧ _ := hline.cons
    have hn' : ∀ l ∈ (trimmed literal (i + 2) ls).filter isKept, l.verbatim = false →
        n ≤ leading l.text := by
      intro k hk
      obtain ⟨hk, hkept⟩ := List.mem_filter.mp hk
      exact hn k (List.mem_filter.mpr ⟨List.mem_cons_of_mem _ hk, hkept⟩)
    rw [fed_cons]
    by_cases hmem : i + 1 ∈ literal
    · rw [rows_verbatim hmem, if_pos (by simpa using hmem), fed_cons]
      rw [isKept, show literal.contains (i + 1) = true by simpa using hmem] at hnumber
      exact .keeps ha (.feed hnumber (ih hls hl htail hline' hn'))
    rw [if_neg (by simpa using hmem)]
    rw [isKept, show literal.contains (i + 1) = false by simpa using hmem] at hnumber
    by_cases hempty : (if literal.contains (i + 2) then l else stripEnd l) = []
    · have hnext : i + 2 ∉ literal := by
        intro hnext
        rw [if_pos (by simpa using hnext)] at hempty
        exact hmem (hsettled.line 0 l rfl (by rw [hempty]; exact List.forall_mem_nil _) hnext)
      have hrest := ih hls hl htail hline' hn'
      have hsame : line (i + 1) = line i := by
        rw [hempty] at hnumber
        exact hnumber
      rw [if_neg (by simpa using hnext)] at hempty hrest
      rw [hempty, List.nil_append] at hrest
      rw [rows_blank hmem hnext hempty]
      exact .dropped hmem hnext hsame ha (head?_fed _) hrest
    · have hleading : n ≤ leading (if literal.contains (i + 2) then l else stripEnd l) := by
        refine hn ⟨literal.contains (i + 1), _⟩ (List.mem_filter.mpr ⟨List.mem_cons_self, ?_⟩) ?_
        · simpa [isKept] using .inr hempty
        · simpa using hmem
      obtain ⟨hindent, hdrop⟩ := dedent_ending hempty hleading
      have hrest := ih hls (i := i + 1) (a := l.drop n) (fun h => hl (List.mem_of_mem_drop h))
        htail hline' hn'
      have hnext : line (i + 1) = line i + 1 := by
        rw [List.isEmpty_eq_false_iff.mpr hempty] at hnumber
        exact hnumber
      rw [hdrop] at hrest
      have hline := hrest.indented hmem hnext ha hindent fun h => hl (List.mem_of_mem_take h)
      rw [← List.append_assoc (l.take n), List.take_append_drop] at hline
      rwa [rows_kept hmem hempty, fed_cons]

end Tidy

theorem Tidy.settled_literalLines {s first : List Char} {rest : List (List Char)}
    (hl : lines s = first :: rest) : Settled (literalLines s) 1 rest := by
  constructor
  · intro k l hk hblank hmem
    rw [Nat.add_comm 1 k] at hmem ⊢
    refine mem_literalLines_of_succ (l := l) ?_ hblank hmem
    rwa [hl, List.getElem?_cons_succ]
  · intro hmem
    have hle := le_of_mem_literalLines hmem
    have hlength := length_lines s
    rw [hl, List.length_cons] at hlength
    omega

namespace Tidy

/-- The lines of a text behind the first one, without white space at their ends. -/
def further (s : List Char) : List Line := (trimmed (literalLines s) 0 (lines s)).tail

/-- The number that a line has after layout, if it is kept. -/
def lineNumber (s : List Char) (i : Nat) : Nat := ((further s).take i).countP isKept

theorem lineNumber_zero (s : List Char) : lineNumber s 0 = 0 := rfl

theorem further_eq {s first : List Char} {rest : List (List Char)} (hl : lines s = first :: rest) :
    further s = trimmed (literalLines s) 1 rest := by
  rw [further, hl]
  rfl

theorem numbered_further (s : List Char) : Numbered (lineNumber s) 0 (further s) := by
  intro j _
  rw [lineNumber_zero, Nat.zero_add, Nat.zero_add]
  rfl

end Tidy

/-- Layout changes no line that starts inside a literal. -/
theorem relaid_tidy (s : List Char) :
    Relaid ⟨(· ∈ literalLines (strip s)), Tidy.lineNumber (strip s)⟩ 0 (strip s) (tidy s) := by
  have hs := unlines_lines (strip s)
  have hall : ∀ l ∈ lines (strip s), '\n' ∉ l := fun _ => not_mem_of_mem_lines
  rw [tidy, Tidy.layout]
  cases hl : lines (strip s) with
  | nil => exact absurd hl (lines_ne_nil _)
  | cons first rest =>
    rw [hl, unlines_cons] at hs
    rw [hl] at hall
    obtain ⟨hfirst, hrest⟩ := List.forall_mem_cons.mp hall
    have hnumbered := Tidy.numbered_further (strip s)
    rw [Tidy.further_eq hl] at hnumbered
    have hrows := Tidy.relaid_rows hrest (i := 0) hfirst (Tidy.settled_literalLines hl) hnumbered
      (n := (Tidy.commonIndent ((Tidy.trimmed (literalLines (strip s)) 1 rest).filter
        Tidy.isKept)).getD 0) (by
        intro l hmem hverbatim
        obtain ⟨n, hn, hle⟩ := Tidy.commonIndent_le hmem hverbatim
        rwa [hn])
    rw [hs] at hrows
    rw [Tidy.trimmed]
    simp only [Tidy.arranged, List.map_cons, List.map_map, unlines_cons]
    exact hrows

/-- A text means the same after its lines are laid out anew, white space around it apart. -/
theorem Relaid.exists_cuts {s t : List Char} {ts : List Token} {line : Nat → Nat}
    (hcuts : Cuts 0 s ts) (h : Relaid ⟨(· ∈ literalLines s), line⟩ 0 s t) (pos : Nat) :
    ∃ ts', Cuts pos t ts' ∧ core ts' = core ts := by
  obtain ⟨ts', hcuts', hcore, -⟩ := h.cuts hcuts (fun _ hk => hcuts.literalLine_iff.mp hk) pos
  exact ⟨ts', hcuts', hcore⟩

/-- The lines that start inside a literal do so after the lines are laid out anew, and only they. -/
theorem Relaid.mem_literalLines {s t : List Char} {line : Nat → Nat} (hline : line 0 = 0)
    (h : Relaid ⟨(· ∈ literalLines s), line⟩ 0 s t) (j : Nat) :
    j ∈ literalLines t ↔ ∃ k ∈ literalLines s, line k = j := by
  obtain ⟨ts, hcuts, -⟩ := cuts_lex s
  obtain ⟨ts', hcuts', -, hlines⟩ := h.cuts hcuts (fun _ hk => hcuts.literalLine_iff.mp hk) 0
  have hj := hlines j
  rw [show (Relayout.mk (· ∈ literalLines s) line).line 0 = 0 from hline, hcuts'.literalLine_iff] at hj
  rw [hj]
  simp only [hcuts.literalLine_iff]

/-- White space around a text means nothing. -/
theorem exists_cuts_strip (s : List Char) : ∃ ts, Cuts 0 (strip s) ts ∧
    Item.substance (lex .expression s) = Lexeme.levels 0 (core ts) := by
  obtain ⟨ts, hcuts, -⟩ := cuts_lex s
  rw [hcuts.substance_eq]
  obtain ⟨v, w, hs, hv, hw⟩ := strip_split s
  have hinner : Cuts v.length (strip s ++ w) ts := by
    rw [hs] at hcuts
    have h := hcuts.inv_blanks hv
    rwa [Nat.zero_add] at h
  have hcut : Relaid ⟨fun _ => True, id⟩ 0 (strip s ++ w) (strip s) :=
    .cut (fun _ => rfl) hw (strip s)
  obtain ⟨ts', hcuts', hcore, -⟩ := hcut.cuts hinner (fun _ _ => trivial) 0
  exact ⟨ts', hcuts', by rw [hcore]⟩

/-- Whatever an expression is, in order or not: what is written for it means the same. -/
theorem substance_value_expression (width start depth : Int) (x : List Char) :
    ∃ t, (Formatter.value ⟨width, start, .tidy⟩ depth [] [] (some (.textual .expression x))).result =
        .ok t ∧ Item.substance (lex .expression t) = Item.substance (lex .expression x) := by
  have hwrites := Formatter.value_writes_expression ⟨width, start, .tidy⟩ depth
    (v := .textual .expression x) rfl rfl rfl [] []
  refine ⟨_, hwrites.result, ?_⟩
  have hmargin := isBlank_of_mem_indent width depth
  obtain ⟨ts, hcuts, hmeans⟩ := exists_cuts_strip x
  obtain ⟨ts₁, hcuts₁, hcore₁⟩ := (relaid_tidy x).exists_cuts hcuts 0
  obtain ⟨ts₂, hcuts₂, hcore₂⟩ :=
    (relaid_hung hmargin (feed_not_mem_indent width depth) (tidy x)).exists_cuts hcuts₁
      (0 + (indent width depth).length)
  have hwritten : Cuts 0 (indent width depth ++
      ([] ++ hung (indent width depth) (tidy x)) ++ ([] ++ ['\n'])) ts₂ := by
    rw [List.nil_append, List.nil_append, List.append_assoc]
    exact hcuts₂.blanks hmargin
  rw [hmeans, ← hcore₁, ← hcore₂]
  exact hwritten.substance_eq

end BlockMarkup
