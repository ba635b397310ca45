import BlockMarkup.Proofs.Expression.Stable

/-!
# BlockMarkup.Proofs.Expression.Hung

A margin in front of the lines of an expression is no part of it: where an expression that is laid out
stands behind a margin, another layout takes the margin away again (`tidy_hung`). No margin is put in
front of a line that starts inside a literal, and the other lines behind the first have it as the
indent that they have in common (`Tidy.arranged_inset`).
-/

namespace BlockMarkup

open Text

namespace Tidy

/-- A line behind a margin, unless it starts inside a literal. -/
def inset (margin : List Char) (l : Line) : Line :=
  if l.verbatim then l else { l with text := margin ++ l.text }

section

variable {margin : List Char} {l : Line} {ls : List Line}

theorem inset_verbatim (margin : List Char) (l : Line) :
    (inset margin l).verbatim = l.verbatim := by
  unfold inset
  split <;> rfl

theorem inset_of_verbatim (hl : l.verbatim = true) : inset margin l = l := if_pos hl

theorem inset_text (hl : l.verbatim = false) : (inset margin l).text = margin ++ l.text := by
  rw [inset, if_neg (by simp [hl])]

theorem dedent_inset (margin : List Char) (l : Line) :
    dedent margin.length (inset margin l) = l := by
  cases hl : l.verbatim with
  | true => rw [inset_of_verbatim hl, dedent, if_pos hl]
  | false =>
    rw [dedent, inset_verbatim, if_neg (by simp [hl]), inset_text hl, List.drop_left]

/-- The lines of a text behind a margin are its lines, each behind the margin. -/
theorem hungLines_eq_fed {literal : List Nat} {i : Nat}
    (hliteral : ∀ j, literal.contains (i + j) = (ls[j]?).any (·.verbatim)) :
    hungLines margin literal i (ls.map (·.text)) = fed ((ls.map (inset margin)).map (·.text)) := by
  induction ls generalizing i with
  | nil => rfl
  | cons l ls ih =>
    have hfirst : literal.contains i = l.verbatim := hliteral 0
    have hrest := ih (i := i + 1) fun j => by
      rw [Nat.add_right_comm i 1 j, Nat.add_assoc i j 1, hliteral, List.getElem?_cons_succ]
    have hline : (if l.verbatim then [] else margin) ++ l.text = (inset margin l).text := by
      unfold inset
      split <;> rfl
    rw [List.map_cons, hungLines, hfirst, hline, hrest, List.map_cons, List.map_cons, fed_cons,
      List.cons_append]

/-- A margin leaves the ends of lines as they are. -/
theorem Ended.inset (h : Ended (l :: ls))
    (hsolid : ∀ k ∈ ls, k.verbatim = false → ∃ c ∈ k.text, isBlank c = false) :
    Ended (l :: ls.map (inset margin)) := by
  refine h.map fun k hk => ⟨inset_verbatim margin k, fun hne => ?_, fun hend => ?_⟩
  · cases hverbatim : k.verbatim with
    | true => rwa [inset_of_verbatim hverbatim]
    | false =>
      rw [inset_text hverbatim]
      exact List.append_ne_nil_of_right_ne_nil margin hne
  · cases hverbatim : k.verbatim with
    | true => rwa [inset_of_verbatim hverbatim]
    | false =>
      obtain ⟨c, hc, -⟩ := hsolid k hk hverbatim
      have hne : stripEnd k.text ≠ [] := by
        rw [hend]
        exact List.ne_nil_of_mem hc
      rw [inset_text hverbatim, stripEnd_append_of_ne_nil hne, hend]

theorem leading_margin (hmargin : ∀ c ∈ margin, isBlank c = true) (s : List Char) :
    leading (margin ++ s) = margin.length + leading s := by
  rw [leading, List.takeWhile_append_of_pos hmargin, List.length_append, leading]

theorem commonIndent_inset (hmargin : ∀ c ∈ margin, isBlank c = true) (ls : List Line) :
    commonIndent (ls.map (Tidy.inset margin)) =
      (commonIndent ls).map (margin.length + ·) := by
  induction ls with
  | nil => rfl
  | cons l ls ih =>
    rw [List.map_cons, commonIndent, commonIndent, inset_verbatim, ih]
    cases hverbatim : l.verbatim with
    | true => rfl
    | false =>
      rw [inset_text hverbatim, leading_margin hmargin]
      cases commonIndent ls with
      | none => rfl
      | some n => simp [Nat.add_min_add_left]

/-- Lines without an indent in common lose the margin that they stand behind. -/
theorem arranged_inset (hmargin : ∀ c ∈ margin, isBlank c = true)
    (hsolid : ∀ k ∈ ls, k.verbatim = false → ∃ c ∈ k.text, isBlank c = false)
    (hindent : (commonIndent ls).getD 0 = 0) : arranged (ls.map (Tidy.inset margin)) = ls := by
  have hkept : (ls.map (Tidy.inset margin)).filter isKept = ls.map (Tidy.inset margin) := by
    refine List.filter_eq_self.mpr (List.forall_mem_map.mpr fun k hk => ?_)
    rw [isKept, inset_verbatim]
    cases hverbatim : k.verbatim with
    | true => rfl
    | false =>
      obtain ⟨c, hc, -⟩ := hsolid k hk hverbatim
      rw [inset_text hverbatim,
        List.isEmpty_eq_false_iff.mpr (List.ne_nil_of_mem (List.mem_append_right margin hc))]
      rfl
  rw [arranged, hkept, commonIndent_inset hmargin, List.map_map]
  refine (List.map_congr_left fun l hl => ?_).trans (List.map_id _)
  rw [Function.comp_apply, id]
  cases hls : commonIndent ls with
  | none =>
    have hverbatim : l.verbatim = true := by
      by_contra hverbatim
      obtain ⟨n, hn, -⟩ := commonIndent_le hl (by simpa using hverbatim)
      rw [hls] at hn
      cases hn
    rw [inset_of_verbatim hverbatim, dedent, if_pos hverbatim]
  | some n =>
    obtain rfl : n = 0 := by rwa [hls] at hindent
    exact dedent_inset margin l

end

variable (s : List Char)

theorem solid_arranged : ∀ l ∈ arranged (further s), l.verbatim = false →
    ∃ c ∈ l.text, isBlank c = false := by
  intro l hl hverbatim
  obtain ⟨k, hk, rfl⟩ := List.mem_map.mp hl
  rw [dedent_verbatim] at hverbatim
  exact (spare_kept s k hk).exists_solid hverbatim

end Tidy

/-- An expression that is laid out, line by line behind a margin. -/
theorem hung_tidy_eq_unlines (margin x : List Char) : hung margin (tidy x) = unlines
    ((Tidy.opening (strip x) ::
      (Tidy.arranged (Tidy.further (strip x))).map (Tidy.inset margin)).map (·.text)) := by
  have hliteral := contains_literalLines_tidy x
  rw [Tidy.layout_eq] at hliteral
  have hfurther : ∀ j, (literalLines (tidy x)).contains (1 + j) =
      ((Tidy.arranged (Tidy.further (strip x)))[j]?).any (·.verbatim) := fun j => by
    rw [Nat.add_comm, hliteral, List.getElem?_cons_succ]
  rw [hung, lines_tidy, Tidy.layout_eq, List.map_cons, List.map_cons, unlines_cons]
  exact congrArg _ (Tidy.hungLines_eq_fed hfurther)

/-- Behind a margin, the lines that start inside a literal are the same. -/
theorem mem_literalLines_hung {margin : List Char} (hmargin : ∀ c ∈ margin, isBlank c = true)
    (hfeed : '\n' ∉ margin) (s : List Char) (j : Nat) :
    j ∈ literalLines (hung margin s) ↔ j ∈ literalLines s := by
  have hcut : Relaid ⟨(· ∈ literalLines (hung margin s ++ ['\n'])), id⟩ 0
      (hung margin s ++ ['\n']) (hung margin s) := .cut (fun _ => rfl) blank_newline _
  rw [hcut.mem_literalLines rfl, ← exists_eq_right (p := (· ∈ literalLines s))]
  simp only [(relaid_hung hmargin hfeed s).mem_literalLines rfl]
  simp

/-- Another layout takes the margin away. -/
theorem tidy_hung {margin : List Char} (hmargin : ∀ c ∈ margin, isBlank c = true)
    (hfeed : '\n' ∉ margin) (x : List Char) : tidy (hung margin (tidy x)) = tidy x := by
  by_cases hne : strip x = []
  · have hnil : tidy x = [] := by rw [tidy, hne]; rfl
    rw [hnil]
    rfl
  · have hended := Tidy.ended_layout (trimmed_strip x) hne
    have hline := Tidy.feed_not_mem_layout (strip x)
    have hliteral := contains_literalLines_tidy x
    have hsolid := Tidy.solid_arranged (strip x)
    rw [Tidy.layout_eq] at hended hline hliteral
    have hline' : ∀ l ∈ Tidy.opening (strip x) ::
        (Tidy.arranged (Tidy.further (strip x))).map (Tidy.inset margin), '\n' ∉ l.text := by
      rw [List.forall_mem_cons] at hline ⊢
      refine ⟨hline.1, List.forall_mem_map.mpr fun l hl => ?_⟩
      cases hverbatim : l.verbatim with
      | true =>
        rw [Tidy.inset_of_verbatim hverbatim]
        exact hline.2 l hl
      | false =>
        rw [Tidy.inset_text hverbatim, List.mem_append, not_or]
        exact ⟨hfeed, hline.2 l hl⟩
    have hliteral' : ∀ j, (literalLines (hung margin (tidy x))).contains j =
        ((Tidy.opening (strip x) ::
          (Tidy.arranged (Tidy.further (strip x))).map (Tidy.inset margin))[j]?).any
            (·.verbatim) := by
      intro j
      rw [Bool.eq_iff_iff, List.contains_iff_mem, mem_literalLines_hung hmargin hfeed,
        ← List.contains_iff_mem, hliteral]
      cases j with
      | zero => rfl
      | succ j =>
        simp only [List.getElem?_cons_succ, List.getElem?_map, Option.any_map,
          Tidy.inset_verbatim]
    rw [hung_tidy_eq_unlines] at hliteral' ⊢
    rw [(hended.inset hsolid).tidy_unlines hline' (Tidy.opening_head (trimmed_strip x) hne) hliteral',
      Tidy.arranged_inset hmargin hsolid (Tidy.commonIndent_arranged rfl (Tidy.spare_kept _)),
      tidy_eq_unlines]

end BlockMarkup
