import BlockMarkup.Node.Span
import BlockMarkup.Text.Quoted

/-!
# BlockMarkup.Node.Describe

One line about a node: its class, its head, the number of its children and where it was read.
-/

namespace BlockMarkup

/-- A number in decimal notation. -/
def Text.decimal (n : Int) : List Char := (toString n).toList

namespace Label

/-- The number of children in words. -/
def childCount (n : Nat) : List Char :=
  '(' :: (Text.decimal n ++ (if n = 1 then " child)" else " children)").toList)

/-- The place a node was read from, as `[start:stop]`. -/
def place? (l : Label) : Option (List Char) :=
  match l.ownStart?, l.openingStop? with
  | some a, some b =>
    let stop := l.closingStop?.getD b
    some ('[' :: (Text.decimal a ++ ':' :: (Text.decimal stop ++ [']'])))
  | _, _ => none

/-- The description of a node with this label and `n` children. -/
def describe (l : Label) (n : Nat) : List Char :=
  let parts :=
    if l.isA .entity then
      [some (l.cls.scope ++ '.' :: l.cls.name),
       if l.isA .textual then l.head.map Text.abridged else none,
       if n = 0 then none else some (childCount n),
       l.place?].filterMap id
    else [l.cls.name, childCount n]
  '<' :: ([' '].intercalate parts ++ ['>'])

end Label

namespace Node

def describe (n : Node) : List Char := n.label.describe n.children.length

end Node
end BlockMarkup
