/-!
# BlockMarkup.Text.Blank

White space, and the cutting of text at its ends: `isBlank`, `stripStart`, `stripEnd`, `strip`.
Text is a list of characters everywhere in the library, so a position counts characters.
-/

namespace BlockMarkup
namespace Text

/-- White space: the separators of Unicode, and the control characters that act as one. -/
def isBlank (c : Char) : Bool :=
  let n := c.toNat
  (9 ≤ n && n ≤ 13) || (0x1c ≤ n && n ≤ 0x20) || n == 0x85 || n == 0xa0 || n == 0x1680 ||
    (0x2000 ≤ n && n ≤ 0x200a) || n == 0x2028 || n == 0x2029 || n == 0x202f || n == 0x205f ||
    n == 0x3000

theorem isBlank_of_isWhitespace (c : Char) (h : c.isWhitespace = true) : isBlank c = true := by
  simp only [Char.isWhitespace, Bool.or_eq_true, decide_eq_true_eq] at h
  rcases h with ((h | h) | h) | h <;> subst h <;> decide

def stripStart (s : List Char) : List Char := s.dropWhile isBlank

def stripEnd (s : List Char) : List Char := (s.reverse.dropWhile isBlank).reverse

def strip (s : List Char) : List Char := stripEnd (stripStart s)

/-- How many characters of white space a text starts with. -/
def leading (s : List Char) : Nat := (s.takeWhile isBlank).length

end Text
end BlockMarkup
