import BlockMarkup.Node.Basic
import BlockMarkup.Text.Quoted

/-!
# BlockMarkup.Document.Flaw

What can be wrong with a text. A flaw takes the place of the node that could not be read, as an
invalid node whose head is `Flaw.message`.
-/

namespace BlockMarkup

inductive Flaw where
  | unexpected (text : List Char)
  /-- A context without a token that opens it. -/
  | unexpectedContext (mode : Mode)
  | missingBrace
  | missingBracket
  | missingClosingBracket
  | missingExpression
  | duplicateKey
  | secondSpread
deriving DecidableEq, Repr

namespace Flaw

def message : Flaw → List Char
  | .unexpected text => "unexpected ".toList ++ Text.quoted text
  | .unexpectedContext m => "unexpected ".toList ++ m.name.toList
  | .missingBrace => "missing '\x7d'".toList
  | .missingBracket => "missing ']'".toList
  | .missingClosingBracket => "missing closing bracket".toList
  | .missingExpression => "missing expression".toList
  | .duplicateKey => "duplicate key".toList
  | .secondSpread => "second spread".toList

end Flaw

/-- The node that stands for a flaw at a position. -/
def Node.invalid (f : Flaw) (pos : Option Nat) : Node :=
  .mk { cls := .of .invalid, head := some f.message, position := pos.map Int.ofNat } []

end BlockMarkup
