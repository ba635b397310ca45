import BlockMarkup.Expression.Literal
import BlockMarkup.Text.Lines

/-!
# BlockMarkup.Expression.Tidy

The layout of an expression that is spread over lines. `tidy` removes white space at the ends of
lines, blank lines and the indent that the lines after the first have in common; lines that start
inside a literal stay as they are.
-/

namespace BlockMarkup
namespace Tidy

/-- A line, and whether it starts inside a literal. -/
structure Line where
  verbatim : Bool
  text : List Char
deriving DecidableEq, Repr

/-- The lines of a text from line `i` on, where `literal` are the lines that start inside a
literal. White space at the end of a line stays only if the literal goes on. -/
def trimmed (literal : List Nat) : Nat → List (List Char) → List Line
  | _, [] => []
  | i, l :: ls =>
    ⟨literal.contains i, if literal.contains (i + 1) then l else Text.stripEnd l⟩ ::
      trimmed literal (i + 1) ls

/-- Whether a line after the first one is kept. -/
def isKept (l : Line) : Bool := l.verbatim || !l.text.isEmpty

/-- The least number of characters of white space that a line starts with. -/
def commonIndent : List Line → Option Nat
  | [] => none
  | l :: ls =>
    if l.verbatim then commonIndent ls
    else
      match commonIndent ls with
      | none => some (Text.leading l.text)
      | some n => some (min (Text.leading l.text) n)

def dedent (n : Nat) (l : Line) : Line := if l.verbatim then l else { l with text := l.text.drop n }

/-- The lines after the first one, without the blank ones and without their common indent. -/
def arranged (ls : List Line) : List Line :=
  let kept := ls.filter isKept
  kept.map (dedent ((commonIndent kept).getD 0))

/-- The lines of a stripped text in their final form. -/
def layout (text : List Char) : List Line :=
  match trimmed (literalLines text) 0 (Text.lines text) with
  | [] => []
  | first :: rest => first :: arranged rest

end Tidy

def tidy (head : List Char) : List Char :=
  Text.unlines ((Tidy.layout (Text.strip head)).map (·.text))

end BlockMarkup
