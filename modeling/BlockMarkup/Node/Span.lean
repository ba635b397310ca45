import BlockMarkup.Node.Basic

/-!
# BlockMarkup.Node.Span

Where a node stands in the source: `start?` and `stop?`. A node without an origin of its own takes
both from the nodes below it.
-/

namespace BlockMarkup

namespace Label

/-- The start of the first token a node was read from. -/
def ownStart? (l : Label) : Option Nat := l.origin.bind fun o => o.opening.head?.map (·.pos)

/-- The end of the last of the tokens that close a node. -/
def closingStop? (l : Label) : Option Nat := l.origin.bind fun o => o.closing.getLast?.map (·.stop)

/-- The end of the last of the tokens a node starts with. -/
def openingStop? (l : Label) : Option Nat := l.origin.bind fun o => o.opening.getLast?.map (·.stop)

end Label

namespace Node

/-- The own start of a node, or the first one below it. -/
def start? (n : Node) : Option Nat := n.preorder.findSome? Label.ownStart?

/-- A node was asked for something that its class does not have. -/
inductive NotDefined where
  | notDefined
deriving DecidableEq, Repr

mutual

/-- The end of a node: of its closing tokens, or of its last child that has an end, or of its
opening tokens. Only document nodes have one. -/
def stop? : Node → Except NotDefined (Option Nat)
  | .mk l ts =>
    if l.isA .entity then
      match l.closingStop? with
      | some e => .ok (some e)
      | none =>
        match stopOfLast ts with
        | .error e => .error e
        | .ok (some e) => .ok (some e)
        | .ok none => .ok l.openingStop?
    else .error .notDefined

/-- The end of the last node that has one; the nodes after it are asked before it. -/
def stopOfLast : List Node → Except NotDefined (Option Nat)
  | [] => .ok none
  | t :: ts =>
    match stopOfLast ts with
    | .error e => .error e
    | .ok (some e) => .ok (some e)
    | .ok none => stop? t

end

end Node
end BlockMarkup
