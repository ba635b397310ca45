import BlockMarkup.Node.Describe
import BlockMarkup.Text.Value

/-!
# BlockMarkup.Node.Make

Nodes by hand. `Node.build` makes a tree of specifications into nodes, children first; a textual
node needs a text as its head.
-/

namespace BlockMarkup

/-- What a node is to be made of, apart from its children. -/
structure NodeSpec where
  cls : NodeClass
  head : Option Text.Value := none
  /-- The position of an invalid node. -/
  position : Option Int := none

inductive MakeFault where
  /-- A textual node was given no head at all. -/
  | missingHead
  /-- The head of a textual node is no text. -/
  | badHead (cls : List Char) (shown : List Char)
  /-- A node without a head was given one, and cannot take it for a child. -/
  | notANode
deriving DecidableEq, Repr

namespace MakeFault

def message? : MakeFault → Option (List Char)
  | .badHead cls shown => some ("invalid head value for ".toList ++ cls ++ ": ".toList ++ shown)
  | _ => none

end MakeFault

namespace Node

/-- A node with the given children. Where a textual node is given no head, its first child stands
in the place of it. -/
def make (s : NodeSpec) (children : List Node) : Except MakeFault Node :=
  if s.cls.isA .textual then
    match s.head, children with
    | some (.text head), _ =>
      .ok (.mk { cls := s.cls, head := some head, position := s.position } children)
    | some v, _ => .error (.badHead s.cls.name v.shown)
    | none, c :: _ => .error (.badHead s.cls.name (Node.describe c))
    | none, [] => .error .missingHead
  else
    match s.head with
    | none => .ok (.mk { cls := s.cls } children)
    | some _ => .error .notANode

mutual

def build : Tree NodeSpec → Except MakeFault Node
  | .mk s ts =>
    match buildAll ts with
    | .error e => .error e
    | .ok ns => make s ns

def buildAll : List (Tree NodeSpec) → Except MakeFault (List Node)
  | [] => .ok []
  | t :: ts =>
    match build t with
    | .error e => .error e
    | .ok n =>
      match buildAll ts with
      | .error e => .error e
      | .ok ns => .ok (n :: ns)

end

end Node
end BlockMarkup
