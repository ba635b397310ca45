import BlockMarkup.Document.Value
import BlockMarkup.Node.Span

/-!
# BlockMarkup.Document.Body

The nodes of a body from its items. A token that opens something is directly followed by the
context it opened, unless that found nothing; `bodyNodes` makes one node of the two.
-/

namespace BlockMarkup

/-- The name in front of a colon. -/
def nameOf (t : Token) : List Char := Text.stripEnd t.text.dropLast

/-- The name in front of an opening brace. -/
def blockNameOf (t : Token) : List Char := Text.strip t.text.dropLast

def isHandlerName (name : List Char) : Bool := ['o', 'n'].isPrefixOf name

/-- The items of a value, without the comma that ends it. -/
def valueItems (items : List Item) : List Item :=
  match Item.closedBy? [','] items with
  | some _ => items.dropLast
  | none => items

/-- The kind of an attribute with a name and a value that is a string or not. -/
def attributeKind (name : List Char) (isString : Bool) : Kind :=
  match name.head? == some '"', isString with
  | true, true => .customTextAttribute
  | true, false => .customExpressionAttribute
  | false, true => .textAttribute
  | false, false => if isHandlerName name then .eventHandler else .expressionAttribute

/-- The attribute or the key of an element. -/
def attributeNode (t : Token) (items : List Item) : Node :=
  let value := valueNode (valueItems items) t
  let name := nameOf t
  let isString := value.kind = .string
  let origin := some ⟨[t], []⟩
  if name = "key".toList ∧ isString then
    .mk { cls := .of .key, head := value.head, origin } []
  else .mk { cls := .of (attributeKind name isString), head := some name, origin } [value]

/-- The kind of a field with a name and a value that is a string or not. -/
def fieldKind (name : List Char) (isString : Bool) : Kind :=
  if isString then .formattedField
  else if isHandlerName name then .handlerField
  else .expressionField

def fieldNode (t : Token) (items : List Item) : Node :=
  let value := valueNode (valueItems items) t
  let name := nameOf t
  .mk { cls := .of (fieldKind name (value.kind = .string)), head := some name,
        origin := some ⟨[t], []⟩ } [value]

def spreadNode (t : Token) (items : List Item) : Node :=
  .mk { cls := .of .spread, origin := some ⟨[t], []⟩ } [expressionNode items t]

def textNode (t : Token) : Node :=
  .mk { cls := .of .text, head := some (unquote t.text), origin := some ⟨[t], []⟩ } []

/-- An element or a component with the nodes inside its braces. -/
def blockNode (k : Kind) (t : Token) (items : List Item) (inner : List Node) : Node :=
  let closing := (Item.closedBy? ['\x7d'] items).toList
  let missing := if closing.isEmpty then [.invalid .missingBrace (some t.pos)] else []
  .mk { cls := .of k, head := some (blockNameOf t), origin := some ⟨[t], closing⟩ }
    (inner ++ missing)

def rawExpressionNode (t : Token) (items : List Item) : Node :=
  match Item.closedBy? ['\x7d'] items with
  | none => .invalid .missingBrace (some t.pos)
  | some closing =>
    .mk { cls := .of .rawExpression, origin := some ⟨[t], [closing]⟩ }
      [expressionNode items.dropLast t]

def decorationNode (t : Token) (items : List Item) : Node :=
  match Item.closedBy? [']'] items with
  | none => .invalid .missingBracket (some t.pos)
  | some closing =>
    match Item.spellingAll items with
    | .error e => .invalid e.flaw e.pos
    | .ok s =>
      .mk { cls := .of .decoration, head := some (t.text ++ s), origin := some ⟨[t], [closing]⟩ } []

/-- The node of a token in a body, if it makes one: `items` are those of the context it opened,
and `inner` the nodes in there. -/
def nodeOf? (m : Mode) (t : Token) (items : List Item) (inner : List Node) : Option Node :=
  match m, t.cls with
  | .element, .name => some (attributeNode t items)
  | .component, .name => some (fieldNode t items)
  | .component, .operator => some (spreadNode t items)
  | _, .separator => none
  | _, .string => some (textNode t)
  | _, .tag => some (blockNode .element t items inner)
  | _, .path => some (blockNode .component t items inner)
  | _, .bracket => some (rawExpressionNode t items)
  | _, .decorator => some (decorationNode t items)
  | _, _ => some (.invalid (.unexpected t.text) (some t.pos))

/-- Whether a token at the end of a block closes it and makes no node. -/
def closesBlock (m : Mode) (t : Token) : Bool :=
  (m = .element || m = .component) && t.text = ['\x7d']

/-- Only the first node of kind `k` stays; each further one becomes a flaw. -/
def onlyFirst (k : Kind) (f : Flaw) : List Node → List Node
  | [] => []
  | n :: ns =>
    if n.kind = k then
      n :: ns.map fun (m : Node) => if m.kind = k then .invalid f m.label.ownStart? else m
    else n :: onlyFirst k f ns

mutual

/-- The nodes inside the context that a token opened. -/
def innerNodes (opener : TokenClass) : Item → List Node
  | .token _ => []
  | .context _ items =>
    match opener with
    | .tag => onlyFirst .key .duplicateKey (bodyNodes .element items)
    | .path => onlyFirst .spread .secondSpread (bodyNodes .component items)
    | _ => []

/-- The nodes of a body that was read in mode `m`. -/
def bodyNodes (m : Mode) : List Item → List Node
  | [] => []
  | .context c _ :: is => .invalid (.unexpectedContext c) none :: bodyNodes m is
  | [.token t] => if closesBlock m t then [] else (nodeOf? m t [] []).toList
  | .token t :: .token u :: is => (nodeOf? m t [] []).toList ++ bodyNodes m (.token u :: is)
  | .token t :: .context c items :: is =>
    (nodeOf? m t items (innerNodes t.cls (.context c items))).toList ++ bodyNodes m is

end

end BlockMarkup
