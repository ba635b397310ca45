import BlockMarkup.Document.Flaw
import BlockMarkup.Text.Blank

/-!
# BlockMarkup.Document.Value

Values of attributes, fields and spreads from the items of an expression. `spellingAll` is the text
of the items or the first flaw in them; `expressionNode` and `valueNode` make a node of it.
-/

namespace BlockMarkup

/-- A flaw and its position, if that is known. -/
structure Trouble where
  flaw : Flaw
  pos : Option Nat
deriving DecidableEq, Repr

namespace Item

/-- The position of the first item, if it is a token. -/
def start? (items : List Item) : Option Nat := (items.head?.bind token?).map (·.pos)

/-- Whether the last item is a closing bracket of any shape. -/
def isClosed (items : List Item) : Bool :=
  (closedBy? [')'] items).isSome || (closedBy? [']'] items).isSome ||
    (closedBy? ['\x7d'] items).isSome

mutual

/-- The text of an item of an expression. A group has to be closed. -/
def spelling : Item → Except Trouble (List Char)
  | .token t =>
    if t.cls = .stray then .error ⟨.unexpected t.text, some t.pos⟩ else .ok t.text
  | .context _ items =>
    match spellingAll items with
    | .error e => .error e
    | .ok s =>
      if isClosed items then .ok s else .error ⟨.missingClosingBracket, start? items⟩

def spellingAll : List Item → Except Trouble (List Char)
  | [] => .ok []
  | i :: is =>
    match spelling i with
    | .error e => .error e
    | .ok s =>
      match spellingAll is with
      | .error e => .error e
      | .ok s' => .ok (s ++ s')

end

/-- White space and line comments, which do not belong to an expression at its end. -/
def isTrailing : Item → Bool
  | .token t => t.cls = .blank || (t.cls = .comment && ['/', '/'].isPrefixOf t.text)
  | .context _ _ => false

def dropTrailing (items : List Item) : List Item := (items.reverse.dropWhile isTrailing).reverse

def isBlank : Item → Bool
  | .token t => t.cls = .blank
  | .context _ _ => false

/-- The tokens of an expression that are not inside brackets, without white space. -/
def ownTokens (items : List Item) : List Token :=
  (items.filter fun i => !isBlank i).filterMap token?

end Item

/-- A text without its first and last character, which are the quotes of a string. -/
def unquote (s : List Char) : List Char := (s.drop 1).dropLast

/-- The expression that the items spell, or an invalid node; `opener` is where an expression was
expected. -/
def expressionNode (items : List Item) (opener : Token) : Node :=
  let own := Item.dropTrailing items
  match Item.spellingAll own with
  | .error e => .invalid e.flaw e.pos
  | .ok s =>
    match Text.strip s with
    | [] => .invalid .missingExpression (some opener.pos)
    | text =>
      .mk { cls := .of .expression, head := some text, origin := some ⟨Item.ownTokens own, []⟩ } []

/-- The value that the items spell: a string where a plain string literal stands alone. -/
def valueNode (items : List Item) (opener : Token) : Node :=
  match items.filter fun i => !i.isBlank with
  | [.token t] =>
    if t.cls = .string then
      .mk { cls := .of .string, head := some (unquote t.text), origin := some ⟨[t], []⟩ } []
    else expressionNode items opener
  | _ => expressionNode items opener

end BlockMarkup
