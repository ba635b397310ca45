import BlockMarkup.Forest.Walk
import BlockMarkup.Node.Describe

/-!
# BlockMarkup.Forest.Outline

A tree drawn with lines, one node a line. The line of a node starts with one cell for each level,
found on the way up: `Forest.cellsUp`, and is closed by its description.
-/

namespace BlockMarkup

/-- The cells of a drawing, of three characters each. -/
structure OutlineStyle where
  bar : String
  gap : String
  branch : String
  corner : String
deriving DecidableEq, Repr

namespace OutlineStyle

def ascii : OutlineStyle := ⟨" | ", "   ", " |-", " `-"⟩

def round : OutlineStyle := ⟨" │ ", "   ", " ├╴", " ╰╴"⟩

/-- The styles by name. -/
def all : List (String × OutlineStyle) := [("ascii", ascii), ("round", round)]

def defaultName : String := "round"

/-- The style of a name; no name is the default. -/
def named? : Option String → Option OutlineStyle
  | none => all.lookup defaultName
  | some name => all.lookup (if name = "" then defaultName else name)

/-- The cell in front of a node. -/
def nodeCell (s : OutlineStyle) (isLast : Bool) : List Char :=
  (if isLast then s.corner else s.branch).toList

/-- The cell in front of what is below a node. -/
def levelCell (s : OutlineStyle) (isLast : Bool) : List Char :=
  (if isLast then s.gap else s.bar).toList

end OutlineStyle

namespace Forest

/-- The cells of what is below a node, for `n` levels from the node upwards. -/
def levelsUp (f : Forest) (s : OutlineStyle) : Nat → NodeId → Except WalkFault (List (List Char))
  | 0, _ => .ok []
  | n + 1, i =>
    match f.isLast i, f.parentOf i with
    | .error e, _ => .error e
    | .ok _, none => .error .noParent
    | .ok b, some p =>
      match f.levelsUp s n p with
      | .error e => .error e
      | .ok cs => .ok (s.levelCell b :: cs)

/-- The cells of the line of a node that is `depth` levels down, from the node upwards. -/
def cellsUp (f : Forest) (s : OutlineStyle) (depth : Nat) (i : NodeId) :
    Except WalkFault (List (List Char)) :=
  match depth with
  | 0 => .ok []
  | n + 1 =>
    match f.isLast i, f.parentOf i with
    | .error e, _ => .error e
    | .ok _, none => .error .noParent
    | .ok b, some p =>
      match f.levelsUp s n p with
      | .error e => .error e
      | .ok cs => .ok (s.nodeCell b :: cs)

/-- The description of a node. -/
def describe (f : Forest) (i : NodeId) : List Char :=
  (f.labelOf i).describe (f.childrenOf i).length

/-- The line of a node. -/
def outlineLine (f : Forest) (s : OutlineStyle) (depth : Nat) (i : NodeId) :
    Except WalkFault (List Char) :=
  match f.cellsUp s depth i with
  | .error e => .error e
  | .ok cs => .ok (cs.reverse.flatten ++ f.describe i)

/-- The lines of nodes that are given with their levels; `depth` levels are added to each. -/
def outlineLines (f : Forest) (s : OutlineStyle) (depth : Int) :
    List (Nat × NodeId) → Except WalkFault (List (List Char))
  | [] => .ok []
  | (level, i) :: rest =>
    match f.outlineLine s (depth + level).toNat i with
    | .error e => .error e
    | .ok l =>
      match f.outlineLines s depth rest with
      | .error e => .error e
      | .ok ls => .ok (l :: ls)

/-- The lines of a node and those below it, drawn as if the node were `depth` levels down; a line
above the first level has no cells. -/
def outline (f : Forest) (s : OutlineStyle) (depth : Int) (i : NodeId) :
    Except WalkFault (List (List Char)) :=
  match f.shape? i with
  | none => .error .endless
  | some t => f.outlineLines s depth (t.levels 0)

end Forest

/-- The lines of a tree that stands alone. -/
def Node.outline (s : OutlineStyle) (n : Node) : Except WalkFault (List (List Char)) :=
  let (f, i) := Forest.plant {} n
  f.outline s 0 i

end BlockMarkup
