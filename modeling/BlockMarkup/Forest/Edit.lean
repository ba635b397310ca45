import BlockMarkup.Forest.Basic
import BlockMarkup.Forest.Place

/-!
# BlockMarkup.Forest.Edit

Changes of the children of a node. Adding a node makes the receiver its parent, and does so before
the place is looked at; removing a node leaves its parent as it is. `Forest.apply` makes a change.
-/

namespace BlockMarkup

inductive Edit where
  | append (node : NodeId)
  | extend (nodes : List NodeId)
  | insert (index : Int) (node : NodeId)
  | set (index : Int) (node : NodeId)
  | setSlice (slice : Slice) (nodes : List NodeId)
  | delete (index : Int)
  | remove (node : NodeId)
  | reverse
  | clear
deriving DecidableEq, Repr

/-- Why a change could not be made. -/
inductive EditFault where
  /-- There is no such place. -/
  | index
  /-- There is no such child, or the numbers of old and new children differ. -/
  | value
deriving DecidableEq, Repr

namespace Edit

/-- The nodes that a change adds. -/
def added : Edit → List NodeId
  | .append n => [n]
  | .extend ns => ns
  | .insert _ n => [n]
  | .set _ n => [n]
  | .setSlice _ ns => ns
  | _ => []

/-- The list of children after a change. -/
def children (cs : List NodeId) : Edit → Except EditFault (List NodeId)
  | .append n => .ok (cs ++ [n])
  | .extend ns => .ok (cs ++ ns)
  | .insert i n => .ok (cs.insertIdx (gap cs.length i) n)
  | .set i n =>
    match place? cs.length i with
    | some p => .ok (cs.set p n)
    | none => .error .index
  | .setSlice s ns =>
    match s.replace? ns cs with
    | some cs' => .ok cs'
    | none => .error .value
  | .delete i =>
    match place? cs.length i with
    | some p => .ok (cs.eraseIdx p)
    | none => .error .index
  | .remove n => if cs.contains n then .ok (cs.erase n) else .error .value
  | .reverse => .ok cs.reverse
  | .clear => .ok []

end Edit

namespace Forest

/-- Changes the children of `on`. A change that fails leaves the list of children, but the nodes it
was to add have a new parent. -/
def apply (f : Forest) (on : NodeId) (e : Edit) : Forest × Option EditFault :=
  let adopted := f.adopt on e.added
  match e.children (f.childrenOf on) with
  | .ok cs => (adopted.setChildren on cs, none)
  | .error fault => (adopted, some fault)

/-- The child at a place. -/
def childAt? (f : Forest) (i : NodeId) (index : Int) : Option NodeId :=
  match place? (f.childrenOf i).length index with
  | some p => (f.childrenOf i)[p]?
  | none => none

/-- The node that a path of places leads to. -/
def follow? (f : Forest) (i : NodeId) : List Int → Option NodeId
  | [] => some i
  | index :: path =>
    match f.childAt? i index with
    | some c => f.follow? c path
    | none => none

end Forest
end BlockMarkup
