/-!
# BlockMarkup.Node.Kind

The kinds of nodes and how they specialise one another. `NodeClass.isA` decides whether a class is
a kind or a specialisation of it; a class may also be derived from a kind outside the library.
-/

namespace BlockMarkup

inductive Kind where
  /-- Any tree node. -/
  | node
  /-- Any node of a document. -/
  | entity
  /-- An entity with a place in the source. -/
  | headed
  /-- An entity whose head is a text. -/
  | textual
  | source
  | document
  | invalid
  | string
  | expression
  /-- What may stand in a body; no node is only this. -/
  | bodyNode
  | block
  | element
  | component
  | text
  | rawExpression
  | decoration
  | key
  | nameValue
  | attribute
  | textAttribute
  | expressionAttribute
  | eventHandler
  | customTextAttribute
  | customExpressionAttribute
  | metaAttribute
  | field
  | expressionField
  | formattedField
  | handlerField
  | spread
deriving DecidableEq, Repr

namespace Kind

/-- The kinds that a kind specialises directly. -/
def bases : Kind → List Kind
  | .node | .bodyNode => []
  | .entity => [.node]
  | .headed | .source => [.entity]
  | .textual | .spread => [.headed]
  | .document => [.source]
  | .invalid | .string | .expression | .key | .nameValue => [.textual]
  | .block | .text | .decoration => [.bodyNode, .textual]
  | .rawExpression => [.bodyNode, .headed]
  | .element | .component => [.block]
  | .attribute | .field => [.nameValue]
  | .textAttribute | .expressionAttribute | .eventHandler | .customTextAttribute
  | .customExpressionAttribute | .metaAttribute => [.attribute]
  | .expressionField | .formattedField | .handlerField => [.field]

/-- How many steps of specialisation lead up from a kind at most. -/
def rank : Kind → Nat
  | .node | .bodyNode => 0
  | .entity => 1
  | .headed | .source => 2
  | .textual | .spread | .document | .rawExpression => 3
  | .invalid | .string | .expression | .key | .nameValue | .block | .text | .decoration => 4
  | .element | .component | .attribute | .field => 5
  | _ => 6

/-- The kind itself and the kinds above it, up to `n` steps. -/
def above : Nat → Kind → List Kind
  | 0, k => [k]
  | n + 1, k => k :: k.bases.flatMap (above n)

/-- Whether kind `k` is `super` or specialises it. -/
def isA (k super : Kind) : Bool := (above k.rank k).contains super

/-- The name that descriptions give a kind. -/
def name : Kind → String
  | .node => "Node"
  | .entity => "Element"
  | .headed => "HeadElement"
  | .textual => "TextElement"
  | .source => "Document"
  | .document => "Document"
  | .invalid => "Invalid"
  | .string => "String"
  | .expression => "Expression"
  | .bodyNode => "BodyNode"
  | .block => "Block"
  | .element => "Element"
  | .component => "Component"
  | .text => "Text"
  | .rawExpression => "RawExpression"
  | .decoration => "Meta"
  | .key => "Key"
  | .nameValue => "NameValue"
  | .attribute => "Attribute"
  | .textAttribute => "TextAttribute"
  | .expressionAttribute => "ExpressionAttribute"
  | .eventHandler => "EventHandler"
  | .customTextAttribute => "CustomTextAttribute"
  | .customExpressionAttribute => "CustomExpressionAttribute"
  | .metaAttribute => "MetaAttribute"
  | .field => "Field"
  | .expressionField => "ExpressionField"
  | .formattedField => "FormattedField"
  | .handlerField => "HandlerField"
  | .spread => "Spread"

/-- The family of a kind, which descriptions put in front of its name. -/
def scope : Kind → String
  | .node => "node"
  | .entity | .headed | .textual => "element"
  | .source | .invalid => "base"
  | _ => "rsx"

end Kind

/-- A class derived from a kind outside the library. -/
structure Derived where
  scope : String
  name : String
deriving DecidableEq, Repr

/-- The class of a node: a kind, and the derivations from it, the last one first. -/
structure NodeClass where
  kind : Kind
  derived : List Derived := []
deriving DecidableEq, Repr

namespace NodeClass

/-- The class of the nodes that are exactly of kind `k`. -/
def of (k : Kind) : NodeClass := ⟨k, []⟩

/-- Whether a class is `super` or derived from it. -/
def isClass (c super : NodeClass) : Bool :=
  match super.derived with
  | [] => c.kind.isA super.kind
  | _ :: _ => c.kind = super.kind && super.derived.isSuffixOf c.derived

/-- Whether a class is of kind `k` or of one that specialises `k`. -/
def isA (c : NodeClass) (k : Kind) : Bool := c.kind.isA k

def isAny (c : NodeClass) (ks : List Kind) : Bool := ks.any c.isA

def name (c : NodeClass) : List Char :=
  match c.derived with
  | [] => c.kind.name.toList
  | d :: _ => d.name.toList

def scope (c : NodeClass) : List Char :=
  match c.derived with
  | [] => c.kind.scope.toList
  | d :: _ => d.scope.toList

end NodeClass
end BlockMarkup
