import BlockMarkup.Node.Basic

/-!
# BlockMarkup.Forest.Basic

Nodes that can be changed. A `Forest` holds cells; a cell lists its children and knows one parent,
and nothing keeps the two in step but the operations themselves. Nodes are numbered in the order in
which they are made: `plant` adds a whole tree, and `shape?` and `node?` read one back.
-/

namespace BlockMarkup

/-- The number of a node. -/
abbrev NodeId := Nat

structure Cell where
  label : Label
  children : List NodeId := []
  parent : Option NodeId := none
deriving DecidableEq, Repr

structure Forest where
  cells : List Cell := []
deriving DecidableEq, Repr

namespace Forest

def cell? (f : Forest) (i : NodeId) : Option Cell := f.cells[i]?

/-- The label of a node; a number that is no node has that of a plain one. -/
def labelOf (f : Forest) (i : NodeId) : Label :=
  match f.cell? i with
  | some c => c.label
  | none => { cls := .of .node }

def childrenOf (f : Forest) (i : NodeId) : List NodeId :=
  match f.cell? i with
  | some c => c.children
  | none => []

def parentOf (f : Forest) (i : NodeId) : Option NodeId :=
  match f.cell? i with
  | some c => c.parent
  | none => none

/-- The forest with one cell changed. -/
def modify (f : Forest) (i : NodeId) (change : Cell → Cell) : Forest := ⟨f.cells.modify i change⟩

def setParent (f : Forest) (i : NodeId) (p : Option NodeId) : Forest :=
  f.modify i fun c => { c with parent := p }

def setChildren (f : Forest) (i : NodeId) (ids : List NodeId) : Forest :=
  f.modify i fun c => { c with children := ids }

def setHead (f : Forest) (i : NodeId) (head : Option (List Char)) : Forest :=
  f.modify i fun c => { c with label := { c.label with head := head } }

/-- Makes `p` the parent of each of the nodes. -/
def adopt (f : Forest) (p : NodeId) : List NodeId → Forest
  | [] => f
  | i :: is => (f.setParent i (some p)).adopt p is

/-- The numbers of trees that are numbered in preorder from `next` on. -/
def rootsFrom (next : NodeId) : List Node → List NodeId
  | [] => []
  | t :: ts => next :: rootsFrom (next + t.size) ts

mutual

/-- The cells of a tree whose root is number `i`. -/
def cellsOf (i : NodeId) (parent : Option NodeId) : Node → List Cell
  | .mk l ts => ⟨l, rootsFrom (i + 1) ts, parent⟩ :: cellsOfAll (i + 1) i ts

def cellsOfAll (next parent : NodeId) : List Node → List Cell
  | [] => []
  | t :: ts => cellsOf next (some parent) t ++ cellsOfAll (next + t.size) parent ts

end

/-- Adds the nodes of a tree, and returns the number of its root. -/
def plant (f : Forest) (n : Node) : Forest × NodeId :=
  (⟨f.cells ++ cellsOf f.cells.length none n⟩, f.cells.length)

/-- The numbers of a node and those below it, down to a depth less than `fuel`. -/
def unfold (f : Forest) : Nat → NodeId → Option (Tree NodeId)
  | 0, _ => none
  | fuel + 1, i =>
    match (f.childrenOf i).mapM (f.unfold fuel) with
    | none => none
    | some ts => some (.mk i ts)

/-- The numbers of a node and those below it; there is no such tree if a node is below itself. -/
def shape? (f : Forest) (i : NodeId) : Option (Tree NodeId) := f.unfold f.cells.length i

/-- The tree of a node. -/
def node? (f : Forest) (i : NodeId) : Option Node := (f.shape? i).map (Tree.map f.labelOf)

/-! ## What the changes of a cell do to the links -/

theorem cell?_modify (f : Forest) (i j : NodeId) (change : Cell → Cell) :
    (f.modify i change).cell? j = if i = j then (f.cell? j).map change else f.cell? j := by
  simp only [cell?, modify, List.getElem?_modify]
  split <;> simp

theorem childrenOf_setParent (f : Forest) (i j : NodeId) (p : Option NodeId) :
    (f.setParent i p).childrenOf j = f.childrenOf j := by
  simp only [childrenOf, setParent, cell?_modify]
  by_cases h : i = j
  · rw [if_pos h]
    cases f.cell? j <;> rfl
  · rw [if_neg h]

theorem parentOf_setParent (f : Forest) (i j : NodeId) (p : Option NodeId) :
    (f.setParent i p).parentOf j =
      if i = j ∧ j < f.cells.length then p else f.parentOf j := by
  simp only [parentOf, setParent, cell?_modify]
  by_cases h : i = j
  · rw [if_pos h]
    by_cases hj : j < f.cells.length
    · rw [if_pos ⟨h, hj⟩, cell?, List.getElem?_eq_getElem hj]
      rfl
    · rw [if_neg fun hc => hj hc.2, cell?, List.getElem?_eq_none (Nat.le_of_not_lt hj)]
      rfl
  · rw [if_neg h, if_neg fun hc => h hc.1]

theorem parentOf_setChildren (f : Forest) (i j : NodeId) (cs : List NodeId) :
    (f.setChildren i cs).parentOf j = f.parentOf j := by
  simp only [parentOf, setChildren, cell?_modify]
  by_cases h : i = j
  · rw [if_pos h]
    cases f.cell? j <;> rfl
  · rw [if_neg h]

theorem childrenOf_setChildren (f : Forest) (i j : NodeId) (cs : List NodeId) :
    (f.setChildren i cs).childrenOf j =
      if i = j ∧ j < f.cells.length then cs else f.childrenOf j := by
  simp only [childrenOf, setChildren, cell?_modify]
  by_cases h : i = j
  · rw [if_pos h]
    by_cases hj : j < f.cells.length
    · rw [if_pos ⟨h, hj⟩, cell?, List.getElem?_eq_getElem hj]
      rfl
    · rw [if_neg fun hc => hj hc.2, cell?, List.getElem?_eq_none (Nat.le_of_not_lt hj)]
      rfl
  · rw [if_neg h, if_neg fun hc => h hc.1]

theorem length_modify (f : Forest) (i : NodeId) (change : Cell → Cell) :
    (f.modify i change).cells.length = f.cells.length := by
  simp only [modify, List.length_modify]

theorem length_adopt (f : Forest) (p : NodeId) (is : List NodeId) :
    (f.adopt p is).cells.length = f.cells.length := by
  induction is generalizing f with
  | nil => rfl
  | cons i is ih => rw [adopt, ih, setParent, length_modify]

theorem childrenOf_adopt (f : Forest) (p j : NodeId) (is : List NodeId) :
    (f.adopt p is).childrenOf j = f.childrenOf j := by
  induction is generalizing f with
  | nil => rfl
  | cons i is ih => rw [adopt, ih, childrenOf_setParent]

theorem parentOf_adopt (f : Forest) (p j : NodeId) (is : List NodeId) :
    (f.adopt p is).parentOf j =
      if j ∈ is ∧ j < f.cells.length then some p else f.parentOf j := by
  induction is generalizing f with
  | nil => simp [adopt]
  | cons i is ih =>
    rw [adopt, ih, setParent, length_modify, ← setParent, parentOf_setParent]
    by_cases hj : j < f.cells.length
    · by_cases hm : j ∈ is
      · simp [hm, hj]
      · by_cases hi : i = j
        · simp [hi, hj]
        · have hji : j ≠ i := fun h => hi h.symm
          simp [hm, hi, hji]
    · simp [hj]

end Forest
end BlockMarkup
