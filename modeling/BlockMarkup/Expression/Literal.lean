import BlockMarkup.Token.Lexer

/-!
# BlockMarkup.Expression.Literal

The lines of an expression that start inside a literal: `literalLines` counts them from 0.
-/

namespace BlockMarkup

/-- The tokens of a text that is read as an expression, with their nesting left out. -/
def expressionTokens (text : List Char) : List Token := Item.tokensAll (lex .expression text)

/-- The lines that start inside the token `t` of a text, if it is a literal. -/
def literalLinesOf (text : List Char) (t : Token) : List Nat :=
  if t.cls.isLiteral then
    List.range' ((text.take t.pos).count '\n' + 1) (t.text.count '\n')
  else []

def literalLines (text : List Char) : List Nat :=
  (expressionTokens text).flatMap (literalLinesOf text)

end BlockMarkup
