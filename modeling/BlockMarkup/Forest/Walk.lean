import BlockMarkup.Forest.Basic

/-!
# BlockMarkup.Forest.Walk

Walks up and down a forest: `ancestors?` follows parents, `descendants?` and `select?` go through
the nodes below a node in document order. A `Tour` is what such a walk keeps in mind between two of
its turns.
-/

namespace BlockMarkup

/-- Why a question about a node has no answer. -/
inductive WalkFault where
  /-- The class of the node does not have what was asked for. -/
  | notDefined
  | noParent
  /-- The parent has no children. -/
  | noSibling
  /-- The walk would never end. -/
  | endless
deriving DecidableEq, Repr

/-- What is left to go through: of the list of children that a tour is in, and of the lists that it
has left for it, the innermost first. -/
structure Tour where
  ahead : List NodeId
  suspended : List (List NodeId) := []
deriving DecidableEq, Repr

/-- What one turn of a tour does. -/
inductive Turn where
  /-- All lists are at their end. -/
  | ended
  /-- The list is at its end, and the last one that was left is gone on with. -/
  | resume (t : Tour)
  | visit (i : NodeId) (t : Tour)
deriving DecidableEq, Repr

namespace Forest

/-- The nodes on the way up, at most `fuel` of them. -/
def climb (f : Forest) : Nat → NodeId → Option (List NodeId)
  | 0, i =>
    match f.parentOf i with
    | none => some []
    | some _ => none
  | fuel + 1, i =>
    match f.parentOf i with
    | none => some []
    | some p => (f.climb fuel p).map (p :: ·)

/-- The parent, its parent and so on; nothing, if the walk never ends. -/
def ancestors? (f : Forest) (i : NodeId) : Option (List NodeId) := f.climb f.cells.length i

/-- The last node on the way up. -/
def root? (f : Forest) (i : NodeId) : Option NodeId :=
  (f.ancestors? i).map fun as => (as.getLast?).getD i

def depth? (f : Forest) (i : NodeId) : Option Nat := (f.ancestors? i).map (·.length)

/-- One turn of a tour. A node is visited in front of its children; where there are none, the list
that it stands in is not left. -/
def turn (f : Forest) : Tour → Turn
  | ⟨[], []⟩ => .ended
  | ⟨[], is :: suspended⟩ => .resume ⟨is, suspended⟩
  | ⟨i :: is, suspended⟩ =>
    match f.childrenOf i with
    | [] => .visit i ⟨is, suspended⟩
    | cs => .visit i ⟨cs, is :: suspended⟩

/-- The nodes that a tour visits, if it is over within `fuel` turns. -/
def tour (f : Forest) : Nat → Tour → Option (List NodeId)
  | 0, _ => none
  | fuel + 1, t =>
    match f.turn t with
    | .ended => some []
    | .resume t' => f.tour fuel t'
    | .visit i t' => (f.tour fuel t').map (i :: ·)

/-- The nodes below a node, in document order; nothing, if the walk never ends. A tour of a tree
takes at most two turns for each node. -/
def descendants? (f : Forest) (i : NodeId) : Option (List NodeId) :=
  match f.shape? i with
  | none => none
  | some t => f.tour (2 * t.size) ⟨f.childrenOf i, []⟩

/-- Whether a node is the last child of its parent. -/
def isLast (f : Forest) (i : NodeId) : Except WalkFault Bool :=
  match f.parentOf i with
  | none => .error .noParent
  | some p =>
    match (f.childrenOf p).getLast? with
    | none => .error .noSibling
    | some c => .ok (c = i)

/-- Which nodes around a node a selection is made from. -/
inductive Reach where
  | children
  | descendants
  /-- The children that are of none of the classes. -/
  | otherChildren
deriving DecidableEq, Repr

/-- Whether a node is of one of the classes. -/
def isAnyClass (f : Forest) (classes : List NodeClass) (i : NodeId) : Bool :=
  classes.any (f.labelOf i).cls.isClass

/-- The nodes of some classes around a node. -/
def select? (f : Forest) (i : NodeId) (reach : Reach) (classes : List NodeClass) :
    Option (List NodeId) :=
  match reach with
  | .children => some ((f.childrenOf i).filter (f.isAnyClass classes))
  | .descendants => (f.descendants? i).map (·.filter (f.isAnyClass classes))
  | .otherChildren => some ((f.childrenOf i).filter fun c => !f.isAnyClass classes c)

end Forest
end BlockMarkup
