import BlockMarkup.Node.Kind
import BlockMarkup.Token.Basic
import BlockMarkup.Tree

/-!
# BlockMarkup.Node.Basic

The nodes of a document: trees whose labels say what a node is, apart from its children. `equals`
compares two trees by class, head and children; `copy` keeps just these.
-/

namespace BlockMarkup

/-- The tokens that a node was read from: those it starts with, and those that close it. -/
structure Origin where
  opening : List Token
  closing : List Token := []
deriving DecidableEq, Repr

/-- What a node is, apart from its children. Only a textual node has a head, and it may have lost
it; only an invalid node has a position. -/
structure Label where
  cls : NodeClass
  head : Option (List Char) := none
  origin : Option Origin := none
  position : Option Int := none
deriving DecidableEq, Repr

abbrev Node := Tree Label

namespace Label

def isA (l : Label) (k : Kind) : Bool := l.cls.isA k

/-- Whether two labels mean the same: neither origin nor position counts. -/
def same (a b : Label) : Bool :=
  a.cls = b.cls && (!a.isA .textual || a.head = b.head)

/-- The label without what ties it to a source. -/
def detached (l : Label) : Label := { l with origin := none, position := none }

end Label

namespace Node

def cls (n : Node) : NodeClass := n.label.cls

def kind (n : Node) : Kind := n.label.cls.kind

def head (n : Node) : Option (List Char) := n.label.head

def isA (n : Node) (k : Kind) : Bool := n.label.isA k

def isAny (n : Node) (ks : List Kind) : Bool := n.label.cls.isAny ks

/-- A node of exactly the kind `k` with a head. -/
def textual (k : Kind) (head : List Char) (children : List Node := []) : Node :=
  .mk { cls := .of k, head := some head } children

/-- A node of exactly the kind `k` without a head. -/
def bare (k : Kind) (children : List Node := []) : Node := .mk { cls := .of k } children

/-- The children of kind `k`, in order. -/
def childrenOf (n : Node) (k : Kind) : List Node := n.children.filter fun (c : Node) => c.isA k

theorem mem_childrenOf {n c : Node} {k : Kind} :
    c ∈ n.childrenOf k ↔ c ∈ n.children ∧ c.isA k = true := List.mem_filter

/-- The first child of one of the kinds. -/
def child? (n : Node) (ks : List Kind) : Option Node :=
  n.children.find? fun (c : Node) => c.isAny ks

/-- The value of an attribute or a field. -/
def value? (n : Node) : Option Node := n.child? [.string, .expression]

/-- The expression of a spread or a raw expression. -/
def expression? (n : Node) : Option Node := n.child? [.expression]

mutual

/-- Structural equality. -/
def equals : Node → Node → Bool
  | .mk a as, .mk b bs => a.same b && equalsAll as bs

def equalsAll : List Node → List Node → Bool
  | [], [] => true
  | a :: as, b :: bs => equals a b && equalsAll as bs
  | _, _ => false

end

/-- The tree, or its root alone, without what ties it to a source. -/
def copy (n : Node) (withChildren : Bool := true) : Node :=
  if withChildren then n.map Label.detached else .mk n.label.detached []

/-- The tree without the tokens it was read from; positions of invalid nodes stay. -/
def forgetOrigin (n : Node) : Node := n.map fun l => { l with origin := none }

end Node
end BlockMarkup
