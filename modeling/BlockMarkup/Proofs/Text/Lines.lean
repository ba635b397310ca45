import BlockMarkup.Proofs.Text.Strip
import BlockMarkup.Text.Lines

/-!
# BlockMarkup.Proofs.Text.Lines

A text line by line: `lines` cuts it into texts without line feeds, and it is the first of them with
each further one behind a line feed (`unlines_cons`). What stands at some place of the text stands in
the line whose number is the count of line feeds in front (`mem_line_of_split`).
-/

namespace BlockMarkup
namespace Text

theorem not_mem_of_mem_lines {s l : List Char} (h : l ∈ lines s) : '\n' ∉ l := by
  induction s generalizing l with
  | nil =>
    rw [List.mem_singleton.mp h]
    exact List.not_mem_nil
  | cons c s ih =>
    rw [lines] at h
    split at h
    · rcases List.mem_cons.mp h with rfl | h
      · exact List.not_mem_nil
      · exact ih h
    · rename_i hc
      cases hl : lines s with
      | nil => exact absurd hl (lines_ne_nil s)
      | cons k ks =>
        rw [hl] at h ih
        rcases List.mem_cons.mp h with rfl | h
        · rw [List.mem_cons, not_or]
          exact ⟨Ne.symm hc, ih List.mem_cons_self⟩
        · exact ih (List.mem_cons_of_mem _ h)

/-- Lines behind a line feed each. -/
def fed (ls : List (List Char)) : List Char := ls.flatMap ('\n' :: ·)

theorem fed_cons (l : List Char) (ls : List (List Char)) : fed (l :: ls) = '\n' :: (l ++ fed ls) :=
  List.flatMap_cons

theorem unlines_cons (l : List Char) (ls : List (List Char)) : unlines (l :: ls) = l ++ fed ls := by
  induction ls generalizing l with
  | nil => exact (List.append_nil l).symm
  | cons k ks ih => rw [unlines, ih, fed_cons]; exact List.cons_ne_nil k ks

/-- A character that ends no line stands in the line whose number it has. -/
theorem mem_line_of_split {a b l : List Char} {c : Char} (hc : c ≠ '\n')
    (hl : (lines (a ++ c :: b))[a.count '\n']? = some l) : c ∈ l := by
  induction a generalizing l with
  | nil =>
    rw [List.nil_append, lines, if_neg hc] at hl
    cases hb : lines b with
    | nil => exact absurd hb (lines_ne_nil b)
    | cons k ks =>
      rw [hb] at hl
      cases hl
      exact List.mem_cons_self
  | cons d a ih =>
    rw [List.cons_append, lines] at hl
    split at hl
    · rename_i hd
      subst hd
      rw [List.count_cons_self, List.getElem?_cons_succ] at hl
      exact ih hl
    · rename_i hd
      rw [List.count_cons_of_ne hd] at hl
      cases hb : lines (a ++ c :: b) with
      | nil => exact absurd hb (lines_ne_nil _)
      | cons k ks =>
        rw [hb] at hl ih
        cases hn : a.count '\n' with
        | zero =>
          rw [hn] at hl ih
          cases hl
          exact List.mem_cons_of_mem d (ih rfl)
        | succ n =>
          rw [hn] at hl ih
          exact ih hl

theorem exists_split_of_mem_line {s l : List Char} {k : Nat} {c : Char}
    (hl : (lines s)[k]? = some l) (hc : c ∈ l) : ∃ a b, s = a ++ c :: b ∧ a.count '\n' = k := by
  induction s generalizing k l with
  | nil =>
    cases k with
    | zero =>
      cases hl
      cases hc
    | succ k => cases hl
  | cons d s ih =>
    rw [lines] at hl
    split at hl
    · rename_i hd
      subst hd
      cases k with
      | zero =>
        cases hl
        cases hc
      | succ k =>
        obtain ⟨a, b, rfl, hk⟩ := ih hl hc
        exact ⟨'\n' :: a, b, rfl, by rw [List.count_cons_self, hk]⟩
    · rename_i hd
      cases hs : lines s with
      | nil => exact absurd hs (lines_ne_nil s)
      | cons m ms =>
        rw [hs] at hl ih
        cases k with
        | zero =>
          cases hl
          rcases List.mem_cons.mp hc with rfl | hc
          · exact ⟨[], s, rfl, rfl⟩
          · obtain ⟨a, b, rfl, hk⟩ := ih (k := 0) rfl hc
            exact ⟨d :: a, b, rfl, by rw [List.count_cons_of_ne hd, hk]⟩
        | succ k =>
          obtain ⟨a, b, rfl, hk⟩ := ih (k := k + 1) hl hc
          exact ⟨d :: a, b, rfl, by rw [List.count_cons_of_ne hd, hk]⟩

theorem lines_of_not_mem {l : List Char} (hl : '\n' ∉ l) : lines l = [l] := by
  induction l with
  | nil => rfl
  | cons c l ih =>
    rw [List.mem_cons, not_or] at hl
    rw [lines, if_neg (Ne.symm hl.1), ih hl.2]

theorem lines_append_newline {l : List Char} (hl : '\n' ∉ l) (s : List Char) :
    lines (l ++ '\n' :: s) = l :: lines s := by
  induction l with
  | nil => rw [List.nil_append, lines, if_pos rfl]
  | cons c l ih =>
    rw [List.mem_cons, not_or] at hl
    rw [List.cons_append, lines, if_neg (Ne.symm hl.1), ih hl.2]

/-- Texts without line feeds are the lines of the text that they make up. -/
theorem lines_unlines {l : List Char} {ls : List (List Char)} (h : ∀ k ∈ l :: ls, '\n' ∉ k) :
    lines (unlines (l :: ls)) = l :: ls := by
  induction ls generalizing l with
  | nil => exact lines_of_not_mem (h l List.mem_cons_self)
  | cons k ks ih =>
    obtain ⟨hl, hks⟩ := List.forall_mem_cons.mp h
    rw [unlines, lines_append_newline hl, ih hks]
    exact List.cons_ne_nil k ks

end Text
end BlockMarkup
