import BlockMarkup.Proofs.Expression.Rendered
import BlockMarkup.Expression.Renderer

/-!
# BlockMarkup.Proofs.Expression.Stable

A text that is laid out stays as it is (`tidy_tidy`). The kept lines that start inside a literal do so
again, and no others (`contains_literalLines_tidy`), and no line ends in white space outside of
literals (`Tidy.ended_layout`), so that a second layout finds the lines as the first one left them. It
keeps all of them, and as each further line lost the indent that they had in common, it finds none
(`Tidy.arranged_arranged`).
-/

namespace BlockMarkup

open Text

/-- A member of a list is found behind as many of the members that are kept as stand in front. -/
theorem getElem?_filter_iff {α : Type} {p : α → Bool} {l : List α} {j : Nat} {a : α} :
    (l.filter p)[j]? = some a ↔ ∃ i, l[i]? = some a ∧ p a = true ∧ (l.take i).countP p = j := by
  induction l generalizing j with
  | nil => simp
  | cons b l ih =>
    have hsplit : (∃ i, (b :: l)[i]? = some a ∧ p a = true ∧ ((b :: l).take i).countP p = j) ↔
        (b = a ∧ p a = true ∧ 0 = j) ∨ ∃ i, l[i]? = some a ∧ p a = true ∧
          (l.take i).countP p + (if p b then 1 else 0) = j := by
      constructor
      · rintro ⟨i, hi, ha, hj⟩
        cases i with
        | zero => exact .inl ⟨by simpa using hi, ha, by simpa using hj⟩
        | succ i => exact .inr ⟨i, by simpa using hi, ha, by simpa [List.countP_cons] using hj⟩
      · rintro (⟨rfl, ha, rfl⟩ | ⟨i, hi, ha, hj⟩)
        · exact ⟨0, rfl, ha, rfl⟩
        · exact ⟨i + 1, by simpa using hi, ha, by simpa [List.countP_cons] using hj⟩
    rw [hsplit]
    by_cases hb : p b = true
    · rw [List.filter_cons_of_pos hb, if_pos hb]
      cases j with
      | zero =>
        constructor
        · rintro ⟨rfl⟩
          exact .inl ⟨rfl, hb, rfl⟩
        · rintro (⟨rfl, -, -⟩ | ⟨i, -, -, hi⟩)
          · rfl
          · exact absurd hi (Nat.succ_ne_zero _)
      | succ j =>
        rw [List.getElem?_cons_succ, ih]
        simp
    · rw [List.filter_cons_of_neg hb, if_neg hb, ih]
      constructor
      · exact .inr
      · rintro (⟨rfl, ha, -⟩ | h)
        · exact absurd ha hb
        · exact h

/-- A text that ends in something else than white space ends in a line that is not empty. -/
theorem last_line_ne_nil {s l : List Char} (hs : Trimmed s) (hne : s ≠ [])
    (hl : (lines s).getLast? = some l) : l ≠ [] := by
  obtain ⟨a, c, rfl⟩ := (List.eq_nil_or_concat s).resolve_left hne
  rw [List.concat_eq_append] at hs hl
  have hfeed : c ≠ '\n' := by
    rintro rfl
    exact absurd (hs.last '\n' List.getLast?_concat) (by decide)
  have hcount : (lines (a ++ [c])).length - 1 = a.count '\n' := by
    rw [length_lines, List.count_append, List.count_singleton, if_neg (by simpa using hfeed)]
    rfl
  rw [List.getLast?_eq_getElem?, hcount] at hl
  exact List.ne_nil_of_mem (mem_line_of_split hfeed hl)

namespace Tidy

section

variable {literal : List Nat} {i n : Nat} {l : Line} {ls : List Line} {raw : List (List Char)}

theorem getElem?_trimmed (j : Nat) : (trimmed literal i raw)[j]? = (raw[j]?).map fun l =>
    ⟨literal.contains (i + j), if literal.contains (i + j + 1) then l else stripEnd l⟩ := by
  induction raw generalizing i j with
  | nil => rfl
  | cons l raw ih =>
    cases j with
    | zero => rfl
    | succ j =>
      rw [trimmed, List.getElem?_cons_succ, List.getElem?_cons_succ, ih, Nat.add_right_comm i 1 j,
        Nat.add_assoc i j 1]

/-! ## The ends of lines -/

/-- White space at the end of a line stays only if the next line starts inside a literal, and the last
line is not empty. -/
inductive Ended : List Line → Prop where
  | last {l : Line} : stripEnd l.text = l.text → l.text ≠ [] → Ended [l]
  | cons {l k : Line} {ls : List Line} : stripEnd l.text = l.text ∨ k.verbatim = true →
      Ended (k :: ls) → Ended (l :: k :: ls)

theorem Ended.getLast (h : Ended ls) :
    ∀ l ∈ ls.getLast?, stripEnd l.text = l.text ∧ l.text ≠ [] := by
  induction h with
  | last hend hne =>
    rintro _ ⟨⟩
    exact ⟨hend, hne⟩
  | cons _ _ ih => rwa [List.getLast?_cons_cons]

theorem ended_trimmed {first : List Char} (hstop : i + raw.length + 1 ∉ literal)
    (hlast : ∀ l ∈ (first :: raw).getLast?, stripEnd l = l ∧ l ≠ []) :
    Ended (trimmed literal i (first :: raw)) := by
  induction raw generalizing i first with
  | nil =>
    obtain ⟨hend, hne⟩ := hlast first rfl
    have hnext : literal.contains (i + 1) = false := by simpa using hstop
    simp only [trimmed, hnext, Bool.false_eq_true, if_false, hend]
    exact .last hend hne
  | cons l raw ih =>
    rw [List.length_cons, Nat.add_comm raw.length, ← Nat.add_assoc i] at hstop
    refine .cons ?_ (ih hstop (by rwa [List.getLast?_cons_cons] at hlast))
    by_cases hnext : literal.contains (i + 1) = true
    · exact .inr hnext
    · refine .inl ?_
      rw [if_neg hnext]
      exact stripEnd_of_last (getLast?_stripEnd first)

theorem Ended.filter (h : Ended (l :: ls)) : Ended (l :: ls.filter isKept) := by
  induction ls generalizing l with
  | nil => exact h
  | cons k ls ih =>
    cases h with
    | cons hl hrest =>
      by_cases hkept : isKept k = true
      · rw [List.filter_cons_of_pos hkept]
        exact .cons hl (ih hrest)
      · rw [List.filter_cons_of_neg hkept]
        simp only [isKept, Bool.or_eq_true, not_or, Bool.not_eq_true', Bool.not_eq_false,
          List.isEmpty_iff] at hkept
        cases hrest with
        | last _ hne => exact absurd hkept.2 hne
        | cons _ hrest => exact ih (.cons (.inl (hl.resolve_right hkept.1)) hrest)

/-- Lines keep their ends where no line behind the first is changed but at its start. -/
theorem Ended.map {g : Line → Line} (h : Ended (l :: ls))
    (hg : ∀ k ∈ ls, (g k).verbatim = k.verbatim ∧ (k.text ≠ [] → (g k).text ≠ []) ∧
      (stripEnd k.text = k.text → stripEnd (g k).text = (g k).text)) :
    Ended (l :: ls.map g) := by
  induction ls generalizing l with
  | nil => exact h
  | cons k ls ih =>
    obtain ⟨⟨hverbatim, hne, hend⟩, hls⟩ := List.forall_mem_cons.mp hg
    cases h with
    | cons hl hrest =>
      have hline : Ended (g k :: ls) := by
        cases hrest with
        | last hlast hlast' => exact .last (hend hlast) (hne hlast')
        | cons hlast hrest => exact .cons (hlast.imp_left hend) hrest
      exact .cons (hl.imp_right hverbatim.trans) (ih hline hls)

/-- Where the numbers of verbatim lines are known, the ends of lines are trimmed already. -/
theorem Ended.trimmed_map_text (h : Ended ls)
    (hliteral : ∀ j, literal.contains (i + j) = (ls[j]?).any (·.verbatim)) :
    trimmed literal i (ls.map (·.text)) = ls := by
  induction h generalizing i with
  | @last l hend _ =>
    have hfirst : literal.contains i = l.verbatim := hliteral 0
    have hnext : literal.contains (i + 1) = false := hliteral 1
    simp only [List.map_cons, List.map_nil, trimmed, hfirst, hnext, Bool.false_eq_true, if_false, hend]
  | @cons l k ls hend _ ih =>
    have hfirst : literal.contains i = l.verbatim := hliteral 0
    have hnext : literal.contains (i + 1) = k.verbatim := hliteral 1
    have hrest := ih (i := i + 1) fun j => by
      rw [Nat.add_right_comm i 1 j, Nat.add_assoc i j 1, hliteral, List.getElem?_cons_succ]
    rw [List.map_cons, trimmed, hrest, hfirst, hnext]
    rcases hend with hend | hend
    · rw [hend, ite_self]
    · rw [if_pos hend]

/-! ## The indent of lines -/

/-- A line that may lose `n` characters of indent, and something else than white space is left. -/
def Spare (n : Nat) (l : Line) : Prop :=
  l.verbatim = false → n ≤ leading l.text ∧ ∃ c ∈ l.text, isBlank c = false

theorem dedent_verbatim (n : Nat) (l : Line) : (dedent n l).verbatim = l.verbatim := by
  unfold dedent
  split <;> rfl

theorem Spare.exists_solid (h : Spare n l) (hl : l.verbatim = false) :
    ∃ c ∈ (dedent n l).text, isBlank c = false := by
  obtain ⟨hn, c, hc, hsolid⟩ := h hl
  rw [← List.take_append_drop n l.text, List.mem_append] at hc
  rcases hc with hc | hc
  · rw [isBlank_of_mem_take hn c hc] at hsolid
    cases hsolid
  · refine ⟨c, ?_, hsolid⟩
    rwa [dedent, if_neg (by simp [hl])]

theorem Spare.isKept (h : Spare n l) : isKept (dedent n l) = true := by
  rw [Tidy.isKept, dedent_verbatim]
  cases hl : l.verbatim with
  | true => rfl
  | false =>
    obtain ⟨c, hc, -⟩ := h.exists_solid hl
    rw [List.isEmpty_eq_false_iff.mpr (List.ne_nil_of_mem hc)]
    rfl

theorem Spare.text_ne_nil (h : Spare n l) (hl : l.text ≠ []) : (dedent n l).text ≠ [] := by
  cases hverbatim : l.verbatim with
  | true => rwa [dedent, if_pos hverbatim]
  | false =>
    obtain ⟨c, hc, -⟩ := h.exists_solid hverbatim
    exact List.ne_nil_of_mem hc

theorem Spare.stripEnd_dedent (h : Spare n l) (hl : stripEnd l.text = l.text) :
    stripEnd (dedent n l).text = (dedent n l).text := by
  cases hverbatim : l.verbatim with
  | true => rwa [dedent, if_pos hverbatim]
  | false =>
    obtain ⟨hn, c, hc, -⟩ := h hverbatim
    have hne : stripEnd l.text ≠ [] := by
      rw [hl]
      exact List.ne_nil_of_mem hc
    have hdrop := stripEnd_drop (n := n) hne (by rwa [hl])
    rw [hl] at hdrop
    rwa [dedent, if_neg (by simp [hverbatim])]

theorem Ended.dedent (h : Ended (l :: ls)) (hspare : ∀ k ∈ ls, Spare n k) :
    Ended (l :: ls.map (dedent n)) :=
  h.map fun k hk => ⟨dedent_verbatim n k, (hspare k hk).text_ne_nil, (hspare k hk).stripEnd_dedent⟩

theorem commonIndent_dedent (hspare : ∀ l ∈ ls, Spare n l) :
    commonIndent (ls.map (dedent n)) = (commonIndent ls).map (· - n) := by
  induction ls with
  | nil => rfl
  | cons l ls ih =>
    obtain ⟨hl, hls⟩ := List.forall_mem_cons.mp hspare
    rw [List.map_cons, commonIndent, commonIndent, dedent_verbatim, ih hls]
    cases hverbatim : l.verbatim with
    | true => rfl
    | false =>
      have hleading : leading (dedent n l).text = leading l.text - n := by
        rw [dedent, if_neg (by simp [hverbatim])]
        exact leading_drop (hl hverbatim).1
      cases commonIndent ls with
      | none => simp [hleading]
      | some m => simp [hleading, Nat.sub_min_sub_right]

/-- Lines that lost the indent that they had in common have none. -/
theorem commonIndent_arranged (hn : (commonIndent ls).getD 0 = n) (hspare : ∀ l ∈ ls, Spare n l) :
    (commonIndent (ls.map (dedent n))).getD 0 = 0 := by
  rw [commonIndent_dedent hspare]
  cases hls : commonIndent ls with
  | none => rfl
  | some m =>
    rw [hls] at hn
    rw [← hn]
    exact Nat.sub_self m

/-- Lines that lost the indent that they had in common stay as they are. -/
theorem arranged_dedent (hn : (commonIndent ls).getD 0 = n) (hspare : ∀ l ∈ ls, Spare n l) :
    arranged (ls.map (dedent n)) = ls.map (dedent n) := by
  have hkept : (ls.map (dedent n)).filter isKept = ls.map (dedent n) := by
    refine List.filter_eq_self.mpr fun l hl => ?_
    obtain ⟨k, hk, rfl⟩ := List.mem_map.mp hl
    exact (hspare k hk).isKept
  rw [arranged, hkept, commonIndent_arranged hn hspare]
  refine (List.map_congr_left fun l _ => ?_).trans (List.map_id _)
  unfold dedent
  split <;> rfl

end

/-! ## The lines of a text that is laid out -/

/-- A line that holds nothing but white space is kept in literals only. -/
theorem exists_solid_of_trimmed {literal : List Nat} {i : Nat} {raw : List (List Char)}
    (h : Settled literal i raw) : ∀ l ∈ trimmed literal i raw, isKept l = true →
      l.verbatim = false → ∃ c ∈ l.text, isBlank c = false := by
  intro l hl hkept hverbatim
  obtain ⟨j, hj⟩ := List.getElem?_of_mem hl
  rw [getElem?_trimmed, Option.map_eq_some_iff] at hj
  obtain ⟨k, hk, rfl⟩ := hj
  rw [isKept, hverbatim, Bool.false_or, Bool.not_eq_true', List.isEmpty_eq_false_iff] at hkept
  by_contra hblank
  have hall : ∀ c ∈ (if literal.contains (i + j + 1) then k else stripEnd k), isBlank c = true := by
    intro c hc
    by_contra hsolid
    exact hblank ⟨c, hc, by simpa using hsolid⟩
  by_cases hnext : i + j + 1 ∈ literal
  · rw [if_pos (by simpa using hnext)] at hall
    exact absurd (h.line j k hk hall hnext) (by simpa using hverbatim)
  · rw [if_neg (by simpa using hnext)] at hall hkept
    rw [← stripEnd_of_last (getLast?_stripEnd k)] at hkept
    exact hkept (stripEnd_eq_nil_iff.mpr hall)

theorem not_mem_of_mem_trimmed {literal : List Nat} {i : Nat} {raw : List (List Char)}
    (h : ∀ l ∈ raw, '\n' ∉ l) : ∀ l ∈ trimmed literal i raw, '\n' ∉ l.text := by
  intro l hl
  obtain ⟨j, hj⟩ := List.getElem?_of_mem hl
  rw [getElem?_trimmed, Option.map_eq_some_iff] at hj
  obtain ⟨k, hk, rfl⟩ := hj
  intro hmem
  refine h k (List.mem_of_getElem? hk) ?_
  obtain ⟨w, hw, -⟩ := stripEnd_split k
  split at hmem
  · exact hmem
  · rw [hw]
    exact List.mem_append_left _ hmem

variable (s : List Char)

/-- The lines behind the first one that are kept. -/
def kept : List Line := (further s).filter isKept

theorem getElem?_further (i : Nat) : (further s)[i]? = ((lines s)[i + 1]?).map fun l =>
    ⟨(literalLines s).contains (i + 1),
      if (literalLines s).contains (i + 2) then l else stripEnd l⟩ := by
  rw [further, List.getElem?_tail, getElem?_trimmed, Nat.zero_add]

theorem arranged_further :
    arranged (further s) = (kept s).map (dedent ((commonIndent (kept s)).getD 0)) := rfl

theorem spare_kept : ∀ l ∈ kept s, Spare ((commonIndent (kept s)).getD 0) l := by
  intro l hl hverbatim
  obtain ⟨first, rest, hlines⟩ := List.exists_cons_of_ne_nil (lines_ne_nil s)
  obtain ⟨n, hn, hle⟩ := commonIndent_le hl hverbatim
  obtain ⟨hfurther, hkept⟩ := List.mem_filter.mp hl
  rw [further_eq hlines] at hfurther
  rw [hn]
  exact ⟨hle, exists_solid_of_trimmed (settled_literalLines hlines) l hfurther hkept hverbatim⟩

/-- The second time there is nothing left to arrange. -/
theorem arranged_arranged : arranged (arranged (further s)) = arranged (further s) :=
  arranged_dedent rfl (spare_kept s)

/-- The first line of a text that is laid out. -/
def opening : Line := ⟨(literalLines s).contains 0,
  if (literalLines s).contains 1 then (lines s).headD [] else stripEnd ((lines s).headD [])⟩

theorem layout_eq : layout s = opening s :: arranged (further s) := by
  obtain ⟨first, rest, hlines⟩ := List.exists_cons_of_ne_nil (lines_ne_nil s)
  rw [layout, further_eq hlines, opening, hlines]
  rfl

theorem feed_not_mem_layout : ∀ l ∈ layout s, '\n' ∉ l.text := by
  obtain ⟨first, rest, hlines⟩ := List.exists_cons_of_ne_nil (lines_ne_nil s)
  have htrimmed : ∀ l ∈ trimmed (literalLines s) 0 (lines s), '\n' ∉ l.text :=
    not_mem_of_mem_trimmed fun _ => not_mem_of_mem_lines
  rw [hlines, trimmed, List.forall_mem_cons, ← further_eq hlines] at htrimmed
  rw [layout_eq, List.forall_mem_cons, opening, hlines]
  refine ⟨htrimmed.1, fun l hl hmem => ?_⟩
  obtain ⟨k, hk, rfl⟩ := List.mem_map.mp hl
  refine htrimmed.2 k (List.mem_of_mem_filter hk) ?_
  unfold dedent at hmem
  split at hmem
  · exact hmem
  · exact List.mem_of_mem_drop hmem

variable {s}

theorem ended_layout (hs : Trimmed s) (hne : s ≠ []) : Ended (layout s) := by
  obtain ⟨first, rest, hlines⟩ := List.exists_cons_of_ne_nil (lines_ne_nil s)
  have hstop : 0 + rest.length + 1 ∉ literalLines s := by
    intro hmem
    have hle := le_of_mem_literalLines hmem
    have hlength := length_lines s
    rw [hlines, List.length_cons] at hlength
    omega
  have hended : Ended (trimmed (literalLines s) 0 (first :: rest)) :=
    ended_trimmed hstop fun l hl => by
      rw [← hlines] at hl
      exact ⟨stripEnd_last_line hs hl, last_line_ne_nil hs hne hl⟩
  rw [trimmed, ← further_eq hlines] at hended
  rw [layout_eq, opening, hlines]
  exact hended.filter.dedent (spare_kept s)

theorem lineNumber_succ {i : Nat} {l : Line} (hl : (further s)[i]? = some l)
    (hkept : isKept l = true) : lineNumber s (i + 1) = lineNumber s i + 1 := by
  rw [lineNumber, List.take_add_one, hl, List.countP_append]
  simp [lineNumber, hkept]

/-- The lines that start inside a literal are found by their numbers among the kept ones. -/
theorem exists_lineNumber_iff {j : Nat} : (∃ k ∈ literalLines s, lineNumber s k = j + 1) ↔
    ∃ l, (kept s)[j]? = some l ∧ l.verbatim = true := by
  constructor
  · rintro ⟨k, hk, hnumber⟩
    cases k with
    | zero => cases hnumber
    | succ i =>
      have hlt : i + 1 < (lines s).length := by
        have hle := le_of_mem_literalLines hk
        rw [length_lines]
        omega
      have hl := getElem?_further s i
      rw [List.getElem?_eq_getElem hlt, Option.map_some] at hl
      have hverbatim : (literalLines s).contains (i + 1) = true := by simpa using hk
      have hkept : ∀ text, isKept ⟨(literalLines s).contains (i + 1), text⟩ = true := by
        intro text
        rw [isKept, hverbatim, Bool.true_or]
      rw [lineNumber_succ hl (hkept _), Nat.add_right_cancel_iff] at hnumber
      exact ⟨_, getElem?_filter_iff.mpr ⟨i, hl, hkept _, hnumber⟩, hverbatim⟩
  · rintro ⟨l, hl, hverbatim⟩
    obtain ⟨i, hi, hkept, hnumber⟩ := getElem?_filter_iff.mp hl
    refine ⟨i + 1, ?_, (lineNumber_succ hi hkept).trans (congrArg (· + 1) hnumber)⟩
    rw [getElem?_further, Option.map_eq_some_iff] at hi
    obtain ⟨raw, -, rfl⟩ := hi
    simpa using hverbatim

end Tidy

theorem zero_not_mem_literalLines (s : List Char) : 0 ∉ literalLines s := by
  obtain ⟨ts, hcuts, -⟩ := cuts_lex s
  intro hmem
  obtain ⟨t, -, -, hlt, -⟩ := hcuts.mem_literalLines.mp hmem
  exact absurd hlt (Nat.not_lt_zero _)

/-- After layout, the lines that start inside a literal are those that did so before. -/
theorem contains_literalLines_tidy (x : List Char) (j : Nat) :
    (literalLines (tidy x)).contains j = ((Tidy.layout (strip x))[j]?).any (·.verbatim) := by
  have hzero : ∀ s, (literalLines s).contains 0 = false := by
    simpa using zero_not_mem_literalLines
  rw [Tidy.layout_eq]
  cases j with
  | zero => rw [hzero, List.getElem?_cons_zero, Option.any_some, Tidy.opening, hzero]
  | succ j =>
    rw [List.getElem?_cons_succ, Tidy.arranged_further, List.getElem?_map, Option.any_map,
      Bool.eq_iff_iff, List.contains_iff_mem,
      (relaid_tidy x).mem_literalLines (Tidy.lineNumber_zero _), Tidy.exists_lineNumber_iff]
    simp [Tidy.dedent_verbatim, Option.any_eq_true]

/-! ## A second layout -/

theorem Tidy.lines_map_text {first : Line} {rest : List Line}
    (hfeed : ∀ l ∈ first :: rest, '\n' ∉ l.text) :
    lines (unlines ((first :: rest).map (·.text))) = (first :: rest).map (·.text) := by
  have htexts : ∀ l ∈ (first :: rest).map (·.text), '\n' ∉ l := List.forall_mem_map.mpr hfeed
  exact lines_unlines htexts

theorem lines_tidy (x : List Char) : lines (tidy x) = (Tidy.layout (strip x)).map (·.text) := by
  have hfeed := Tidy.feed_not_mem_layout (strip x)
  rw [tidy]
  rw [Tidy.layout_eq] at hfeed ⊢
  exact Tidy.lines_map_text hfeed

/-- The first line of a text starts with something else than white space if the text does. -/
theorem exists_first_line {s : List Char} (hs : Trimmed s) (hne : s ≠ []) :
    ∃ c l, (lines s).headD [] = c :: l ∧ isBlank c = false := by
  cases s with
  | nil => exact absurd rfl hne
  | cons c s =>
    have hc : isBlank c = false := hs.head c rfl
    have hfeed : c ≠ '\n' := by
      rintro rfl
      exact absurd hc (by decide)
    obtain ⟨l, ls, hl⟩ := List.exists_cons_of_ne_nil (lines_ne_nil s)
    rw [lines, if_neg hfeed, hl]
    exact ⟨c, l, rfl, hc⟩

theorem Tidy.opening_head {s : List Char} (hs : Trimmed s) (hne : s ≠ []) :
    ∃ c l, (opening s).text = c :: l ∧ isBlank c = false := by
  obtain ⟨c, l, hl, hc⟩ := exists_first_line hs hne
  rw [opening, hl]
  split
  · exact ⟨c, l, rfl, hc⟩
  · obtain ⟨l', hl'⟩ := stripEnd_cons hc l
    exact ⟨c, l', hl', hc⟩

/-- A further line of a text that is laid out is blank in literals only. -/
theorem exists_solid_of_line_tidy {x l : List Char} {k : Nat} (hl : (lines (tidy x))[k + 1]? = some l)
    (hk : k + 1 ∉ literalLines (tidy x)) : ∃ c ∈ l, isBlank c = false := by
  have hverbatim := contains_literalLines_tidy x (k + 1)
  rw [Tidy.layout_eq, List.getElem?_cons_succ] at hverbatim
  rw [lines_tidy, Tidy.layout_eq, List.map_cons, List.getElem?_cons_succ, List.getElem?_map,
    Option.map_eq_some_iff] at hl
  obtain ⟨m, hm, rfl⟩ := hl
  rw [hm, Option.any_some, show (literalLines (tidy x)).contains (k + 1) = false by simpa using hk]
    at hverbatim
  rw [Tidy.arranged_further, List.getElem?_map, Option.map_eq_some_iff] at hm
  obtain ⟨source, hsource, rfl⟩ := hm
  rw [Tidy.dedent_verbatim] at hverbatim
  exact (Tidy.spare_kept _ source (List.mem_of_getElem? hsource)).exists_solid hverbatim.symm

/-- Lines whose ends are trimmed make a text without white space around it, if it starts with
something else. -/
theorem Tidy.Ended.trimmed_unlines {first : Line} {rest : List Line} (h : Ended (first :: rest))
    (hfeed : ∀ l ∈ first :: rest, '\n' ∉ l.text)
    (hhead : ∃ c l, first.text = c :: l ∧ isBlank c = false) :
    Trimmed (unlines ((first :: rest).map (·.text))) := by
  constructor
  · obtain ⟨c, l, hfirst, hc⟩ := hhead
    rw [List.map_cons, unlines_cons, hfirst]
    rintro _ ⟨⟩
    exact hc
  · obtain ⟨l, hl⟩ : ∃ l, (first :: rest).getLast? = some l := ⟨_, List.getLast?_cons⟩
    obtain ⟨hend, hne⟩ := h.getLast l hl
    have hsuffix : l.text <:+ unlines ((first :: rest).map (·.text)) := by
      refine last_line_suffix ?_
      rw [Tidy.lines_map_text hfeed, List.getLast?_map, hl]
      rfl
    obtain ⟨before, hbefore⟩ := hsuffix
    rw [← hbefore, List.getLast?_append_of_ne_nil _ hne, ← hend]
    exact getLast?_stripEnd l.text

/-- In a text of such lines, where those that start inside a literal are known, only the further
lines are arranged. -/
theorem Tidy.Ended.tidy_unlines {first : Line} {rest : List Line} (h : Ended (first :: rest))
    (hfeed : ∀ l ∈ first :: rest, '\n' ∉ l.text)
    (hhead : ∃ c l, first.text = c :: l ∧ isBlank c = false)
    (hliteral : ∀ j, (literalLines (unlines ((first :: rest).map (·.text)))).contains j =
      ((first :: rest)[j]?).any (·.verbatim)) :
    tidy (unlines ((first :: rest).map (·.text))) =
      unlines ((first :: arranged rest).map (·.text)) := by
  have htrimmed := h.trimmed_map_text (i := 0) fun j => by rw [Nat.zero_add, hliteral]
  rw [tidy, strip_of_trimmed (h.trimmed_unlines hfeed hhead), Tidy.layout, Tidy.lines_map_text hfeed, htrimmed]

/-- A text that is laid out has the lines of its layout. -/
theorem tidy_eq_unlines (x : List Char) : tidy x = unlines
    ((Tidy.opening (strip x) :: Tidy.arranged (Tidy.further (strip x))).map (·.text)) := by
  rw [tidy, Tidy.layout_eq]

theorem trimmed_tidy (x : List Char) : Trimmed (tidy x) := by
  by_cases hne : strip x = []
  · rw [tidy, hne]
    exact .of_forall (List.forall_mem_nil _)
  · have hended := Tidy.ended_layout (trimmed_strip x) hne
    have hfeed := Tidy.feed_not_mem_layout (strip x)
    rw [Tidy.layout_eq] at hended hfeed
    rw [tidy_eq_unlines]
    exact hended.trimmed_unlines hfeed (Tidy.opening_head (trimmed_strip x) hne)

/-- A text that is laid out stays as it is. -/
theorem tidy_tidy (x : List Char) : tidy (tidy x) = tidy x := by
  by_cases hne : strip x = []
  · rw [tidy, tidy, hne]
    rfl
  · have hended := Tidy.ended_layout (trimmed_strip x) hne
    have hfeed := Tidy.feed_not_mem_layout (strip x)
    have hliteral := contains_literalLines_tidy x
    rw [Tidy.layout_eq] at hended hfeed hliteral
    rw [tidy_eq_unlines] at hliteral
    have hlaid := hended.tidy_unlines hfeed (Tidy.opening_head (trimmed_strip x) hne) hliteral
    rwa [Tidy.arranged_arranged, ← tidy_eq_unlines] at hlaid

/-- Every expression is rendered, and what was rendered is rendered as it stands. -/
theorem render_stable (x : List Char) : ∃ r,
    Renderer.tidy.render (.textual .expression x) = .ok r ∧
      Renderer.tidy.render (.textual .expression r) = .ok r :=
  ⟨tidy x, rfl, congrArg Except.ok (tidy_tidy x)⟩

end BlockMarkup
