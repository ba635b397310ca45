/-!
# BlockMarkup.Token.Basic

Tokens, and the nesting that lexing gives them: an `Item` is a token or a context, the items that
one mode of the lexer found.
-/

namespace BlockMarkup

/-- What a token is, as far as the lexer can tell. -/
inductive TokenClass where
  | separator
  | bracket
  | operator
  | decorator
  | tag
  | path
  | name
  | blank
  | text
  /-- Text that no rule of the mode matched. -/
  | stray
  | comment
  | string
  | rawString
  | char
deriving DecidableEq, Repr

namespace TokenClass

/-- String, raw string and character literals. -/
def isLiteral : TokenClass → Bool
  | .string | .rawString | .char => true
  | _ => false

end TokenClass

/-- A stretch of the text; `pos` counts characters from its start. -/
structure Token where
  pos : Nat
  text : List Char
  cls : TokenClass
deriving DecidableEq, Repr

namespace Token

/-- The position after the last character. -/
def stop (t : Token) : Nat := t.pos + t.text.length

end Token

/-- What the lexer is inside of; it decides which rules apply. -/
inductive Mode where
  | root
  | element
  | component
  | attribute
  | spread
  | rawExpression
  | decoration
  | group
  /-- An expression that stands alone. -/
  | expression
deriving DecidableEq, Repr

namespace Mode

/-- The name of a mode in messages. -/
def name : Mode → String
  | .root => "root"
  | .element => "element"
  | .component => "component"
  | .attribute => "attribute"
  | .spread => "spread"
  | .rawExpression => "raw_expression"
  | .decoration => "meta"
  | .group => "expression_group"
  | .expression => "expression"

end Mode

inductive Item where
  | token (t : Token)
  | context (mode : Mode) (items : List Item)
deriving Repr

namespace Item

def token? : Item → Option Token
  | .token t => some t
  | .context _ _ => none

mutual

/-- All tokens of an item, in the order of the text. -/
def tokens : Item → List Token
  | .token t => [t]
  | .context _ items => tokensAll items

def tokensAll : List Item → List Token
  | [] => []
  | i :: is => tokens i ++ tokensAll is

end

/-- The last item, if it is the token `text`. -/
def closedBy? (text : List Char) (items : List Item) : Option Token :=
  match items.getLast? with
  | some (.token t) => if t.text = text then some t else none
  | _ => none

end Item
end BlockMarkup
