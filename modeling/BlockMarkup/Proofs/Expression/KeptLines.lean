import BlockMarkup.Proofs.Expression.Stable

/-!
# BlockMarkup.Proofs.Expression.KeptLines

What becomes of every line of an expression that is rendered. `Tidy.keptLines` are the lines that are
kept, with their numbers, and `Tidy.laid` says what each of them is after layout. All lines outside of
literals lose the same indent, and as much of it as they can (`lines_render`).
-/

namespace BlockMarkup

open Text

namespace Tidy

section

variable (s : List Char)

/-- The lines of a text that are kept, with their numbers: the first one, those that start inside a
literal, and those that hold more than white space. -/
def keptLines : List (List Char × Nat) :=
  (lines s).zipIdx.filter fun l =>
    l.2 = 0 || (literalLines s).contains l.2 || l.1.any fun c => !isBlank c

/-- A line after the first one that starts in no literal. -/
def IsFree (l : List Char × Nat) : Prop := l.2 ≠ 0 ∧ l.2 ∉ literalLines s

/-- A line after layout, where free lines lose `n` characters of indent. White space at the end stays
only if the next line starts inside a literal. -/
def laid (n : Nat) (l : List Char × Nat) : List Char :=
  let text := if l.2 = 0 ∨ l.2 ∈ literalLines s then l.1 else l.1.drop n
  if l.2 + 1 ∈ literalLines s then text else stripEnd text

/-- A line with its number, as layout looks at it. -/
def lineAt (l : List Char × Nat) : Line :=
  ⟨(literalLines s).contains l.2, if (literalLines s).contains (l.2 + 1) then l.1 else stripEnd l.1⟩

end

section

variable {s : List Char}

theorem trimmed_eq_map (i : Nat) (raw : List (List Char)) :
    trimmed (literalLines s) i raw = (raw.zipIdx i).map (lineAt s) := by
  induction raw generalizing i with
  | nil => rfl
  | cons l raw ih => rw [trimmed, ih, List.zipIdx_cons, List.map_cons, lineAt]

/-- Layout keeps a further line if it starts inside a literal or is not blank. White space that a
literal behind it follows does not count: then the line starts inside this literal. -/
theorem isKept_lineAt {l : List Char × Nat} (hl : l ∈ (lines s).zipIdx) :
    isKept (lineAt s l) = ((literalLines s).contains l.2 || l.1.any fun c => !isBlank c) := by
  rw [isKept, lineAt]
  cases hliteral : (literalLines s).contains l.2 with
  | true => rfl
  | false =>
    have hsolid : (l.1.any fun c => !isBlank c) = true ↔ ¬ ∀ c ∈ l.1, isBlank c = true := by simp
    rw [Bool.false_or, Bool.false_or, Bool.eq_iff_iff, hsolid, Bool.not_eq_true',
      List.isEmpty_eq_false_iff]
    by_cases hnext : l.2 + 1 ∈ literalLines s
    · have hline : ¬ ∀ c ∈ l.1, isBlank c = true := by
        intro hblank
        have hmem := mem_literalLines_of_succ (List.mem_zipIdx_iff_getElem?.mp hl) hblank hnext
        rw [List.contains_iff_mem.mpr hmem] at hliteral
        cases hliteral
      rw [if_pos (by simpa using hnext)]
      refine iff_of_true (fun hnil : l.1 = [] => hline ?_) hline
      rw [hnil]
      exact List.forall_mem_nil _
    · rw [if_neg (by simpa using hnext), ne_eq, stripEnd_eq_nil_iff]

/-- The kept lines after the first one are those that layout looks at. -/
theorem keptLines_eq : ∃ first rest, keptLines s = (first, 0) :: rest ∧
    (lines s).headD [] = first ∧ kept s = rest.map (lineAt s) ∧
      ∀ l ∈ rest, l.2 ≠ 0 ∧ l ∈ (lines s).zipIdx := by
  obtain ⟨first, raw, hlines⟩ := List.exists_cons_of_ne_nil (lines_ne_nil s)
  have hzip : (lines s).zipIdx = (first, 0) :: raw.zipIdx 1 := by rw [hlines, List.zipIdx_cons]
  have hrest : ∀ l ∈ raw.zipIdx 1, l.2 ≠ 0 ∧ l ∈ (lines s).zipIdx := by
    intro l hl
    refine ⟨?_, by rw [hzip]; exact List.mem_cons_of_mem _ hl⟩
    have hle := (List.mem_zipIdx hl).1
    omega
  have hfilter : (raw.zipIdx 1).filter (fun l =>
      l.2 = 0 || (literalLines s).contains l.2 || l.1.any fun c => !isBlank c) =
      (raw.zipIdx 1).filter (isKept ∘ lineAt s) := by
    refine List.filter_congr fun l hl => ?_
    obtain ⟨hne, hmem⟩ := hrest l hl
    rw [Function.comp_apply, isKept_lineAt hmem, decide_eq_false hne, Bool.false_or]
  refine ⟨first, (raw.zipIdx 1).filter (isKept ∘ lineAt s), ?_, by rw [hlines]; rfl, ?_, ?_⟩
  · rw [keptLines, hzip, List.filter_cons_of_pos rfl, hfilter]
  · rw [kept, further_eq hlines, trimmed_eq_map, List.filter_map]
  · exact fun l hl => hrest l (List.mem_of_mem_filter hl)

/-- Layout cuts the two ends of a line in another order. -/
theorem text_dedent_lineAt {n : Nat} {l : List Char × Nat} (hne : l.2 ≠ 0)
    (hspare : Spare n (lineAt s l)) : (dedent n (lineAt s l)).text = laid s n l := by
  by_cases hmem : l.2 ∈ literalLines s
  · simp [dedent, lineAt, laid, hmem]
  · have hverbatim : (lineAt s l).verbatim = false := by simpa [lineAt] using hmem
    obtain ⟨hle, c, hc, -⟩ := hspare hverbatim
    obtain ⟨-, hdrop⟩ := dedent_ending (List.ne_nil_of_mem hc) hle
    simpa [dedent, hverbatim, lineAt, laid, hne, hmem] using hdrop.symm

/-- A free line has the indent that it loses. -/
theorem indent_of_spare {n : Nat} {l : List Char × Nat} (hl : l.2 ∉ literalLines s)
    (hspare : Spare n (lineAt s l)) : n ≤ l.1.length ∧ ∀ c ∈ l.1.take n, isBlank c = true := by
  have hverbatim : (lineAt s l).verbatim = false := by simpa [lineAt] using hl
  have hle : n ≤ leading l.1 := by
    refine Nat.le_trans (hspare hverbatim).1 ?_
    rw [lineAt]
    dsimp only
    split
    · exact Nat.le_refl _
    · exact leading_stripEnd_le l.1
  exact ⟨Nat.le_trans hle (List.takeWhile_prefix isBlank).length_le, isBlank_of_mem_take hle⟩

end

/-- The common indent of lines is the whole indent of one of them. -/
theorem exists_commonIndent {ls : List Line} {n : Nat} (h : commonIndent ls = some n) :
    ∃ l ∈ ls, l.verbatim = false ∧ leading l.text = n := by
  induction ls generalizing n with
  | nil => cases h
  | cons l ls ih =>
    have hrest : commonIndent ls = some n → ∃ k ∈ l :: ls, k.verbatim = false ∧ leading k.text = n := by
      intro hn
      obtain ⟨k, hk, hleading⟩ := ih hn
      exact ⟨k, List.mem_cons_of_mem _ hk, hleading⟩
    cases hverbatim : l.verbatim with
    | true =>
      rw [commonIndent, if_pos hverbatim] at h
      exact hrest h
    | false =>
      rw [commonIndent, if_neg (by simp [hverbatim])] at h
      cases hls : commonIndent ls with
      | none =>
        rw [hls] at h
        exact ⟨l, List.mem_cons_self, hverbatim, Option.some.inj h⟩
      | some m =>
        rw [hls] at h
        rcases Nat.le_total (leading l.text) m with hle | hle
        · exact ⟨l, List.mem_cons_self, hverbatim, by simpa [Nat.min_eq_left hle] using h⟩
        · exact hrest (by simpa [Nat.min_eq_right hle, hls] using h)

/-- Without its whole indent, a line that is not blank starts with something else than white space. -/
theorem exists_head_drop_leading {t : List Char} (h : ∃ c ∈ t, isBlank c = false) :
    ∃ c u, t.drop (leading t) = c :: u ∧ isBlank c = false := by
  have hdrop : t.drop (leading t) = stripStart t := by
    rw [leading, drop_length_takeWhile]
    rfl
  rw [hdrop]
  cases hs : stripStart t with
  | nil =>
    obtain ⟨c, hc, hsolid⟩ := h
    rw [stripStart_eq_nil_iff.mp hs c hc] at hsolid
    cases hsolid
  | cons c u =>
    refine ⟨c, u, rfl, head?_stripStart t c ?_⟩
    rw [hs]
    rfl

end Tidy

/-- What the renderer makes of the lines of an expression. The first line is kept, and every further
line that starts inside a literal or holds more than white space. White space at the end of a line is
lost, unless the next line starts inside a literal. The free lines lose one indent in common, and one
of them has no more than that. -/
theorem lines_render (x : List Char) : ∃ r n,
    Renderer.tidy.render (.textual .expression x) = .ok r ∧
    lines r = (Tidy.keptLines (strip x)).map (Tidy.laid (strip x) n) ∧
    (∀ l ∈ Tidy.keptLines (strip x), Tidy.IsFree (strip x) l →
      n ≤ l.1.length ∧ ∀ c ∈ l.1.take n, isBlank c = true) ∧
    ((∃ l ∈ Tidy.keptLines (strip x), Tidy.IsFree (strip x) l) →
      ∃ l ∈ Tidy.keptLines (strip x), Tidy.IsFree (strip x) l ∧
        ∃ c t, Tidy.laid (strip x) n l = c :: t ∧ isBlank c = false) := by
  obtain ⟨first, rest, hkept, hfirst, hrest, hnumber⟩ := Tidy.keptLines_eq (s := strip x)
  obtain ⟨n, hn⟩ : ∃ n, n = (Tidy.commonIndent (Tidy.kept (strip x))).getD 0 := ⟨_, rfl⟩
  have hspare : ∀ l ∈ rest, Tidy.Spare n (Tidy.lineAt (strip x) l) := by
    have h := Tidy.spare_kept (strip x)
    rwa [← hn, hrest, List.forall_mem_map] at h
  have hfurther : ∀ l ∈ Tidy.keptLines (strip x), Tidy.IsFree (strip x) l → l ∈ rest := by
    intro l hl hfree
    rw [hkept] at hl
    refine (List.mem_cons.mp hl).resolve_left ?_
    rintro rfl
    exact hfree.1 rfl
  refine ⟨tidy x, n, rfl, ?_, fun l hl hfree => ?_, ?_⟩
  · rw [lines_tidy, Tidy.layout_eq, Tidy.arranged_further, ← hn, hkept, hrest, List.map_cons,
      List.map_cons, List.map_map, List.map_map]
    congr 1
    · rw [Tidy.opening, hfirst]
      simp [Tidy.laid]
    · exact List.map_congr_left fun l hl => Tidy.text_dedent_lineAt (hnumber l hl).1 (hspare l hl)
  · exact Tidy.indent_of_spare hfree.2 (hspare l (hfurther l hl hfree))
  · rintro ⟨l, hl, hfree⟩
    have hline : (Tidy.lineAt (strip x) l).verbatim = false := by simpa [Tidy.lineAt] using hfree.2
    obtain ⟨m, hm, -⟩ := Tidy.commonIndent_le (List.mem_map_of_mem (hfurther l hl hfree)) hline
    obtain ⟨k, hk, hverbatim, hleading⟩ := Tidy.exists_commonIndent hm
    obtain ⟨j, hj, rfl⟩ := List.mem_map.mp hk
    obtain rfl : n = m := by rw [hn, hrest, hm, Option.getD_some]
    refine ⟨j, by rw [hkept]; exact List.mem_cons_of_mem _ hj, ⟨(hnumber j hj).1, ?_⟩, ?_⟩
    · simpa [Tidy.lineAt] using hverbatim
    · obtain ⟨c, t, hdrop, hc⟩ := Tidy.exists_head_drop_leading (hspare j hj hverbatim).2
      refine ⟨c, t, ?_, hc⟩
      rw [← Tidy.text_dedent_lineAt (hnumber j hj).1 (hspare j hj), Tidy.dedent,
        if_neg (by simp [hverbatim]), ← hleading]
      exact hdrop

end BlockMarkup
