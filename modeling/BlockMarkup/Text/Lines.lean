/-!
# BlockMarkup.Text.Lines

Lines of a text. Only a line feed ends a line, so `unlines` undoes `lines`.
-/

namespace BlockMarkup
namespace Text

/-- The pieces of a text between its line feeds; there is always at least one. -/
def lines : List Char → List (List Char)
  | [] => [[]]
  | c :: cs =>
    if c = '\n' then [] :: lines cs
    else
      match lines cs with
      | [] => [[c]]
      | l :: ls => (c :: l) :: ls

def unlines : List (List Char) → List Char
  | [] => []
  | [l] => l
  | l :: ls => l ++ '\n' :: unlines ls

theorem lines_ne_nil (s : List Char) : lines s ≠ [] := by
  cases s with
  | nil => simp [lines]
  | cons c cs =>
    simp only [lines]
    split
    · simp
    · split <;> simp

theorem unlines_lines (s : List Char) : unlines (lines s) = s := by
  induction s with
  | nil => rfl
  | cons c cs ih =>
    simp only [lines]
    split
    · rename_i hc
      cases hl : lines cs with
      | nil => exact absurd hl (lines_ne_nil cs)
      | cons l ls => rw [hl] at ih; simp [unlines, ih, hc]
    · cases hl : lines cs with
      | nil => exact absurd hl (lines_ne_nil cs)
      | cons l ls =>
        rw [hl] at ih
        cases ls with
        | nil => simp only [unlines] at ih ⊢; rw [ih]
        | cons l' ls' => simp only [unlines, List.cons_append] at ih ⊢; rw [ih]

end Text
end BlockMarkup
