/-!
# BlockMarkup.Tree

Ordered trees with a label at every node:

* `map` changes the labels.
* `preorder` lists the labels and `subtrees` the trees, each before those below it.
* `levels` is the preorder with the depth of every node, `size` its length.
-/

namespace BlockMarkup

inductive Tree (α : Type) where
  | mk (label : α) (children : List (Tree α))

namespace Tree

variable {α β : Type}

def label : Tree α → α
  | mk a _ => a

def children : Tree α → List (Tree α)
  | mk _ ts => ts

mutual

def map (f : α → β) : Tree α → Tree β
  | mk a ts => mk (f a) (mapAll f ts)

def mapAll (f : α → β) : List (Tree α) → List (Tree β)
  | [] => []
  | t :: ts => map f t :: mapAll f ts

end

mutual

/-- The labels of a tree, each before those below it. -/
def preorder : Tree α → List α
  | mk a ts => a :: preorderAll ts

def preorderAll : List (Tree α) → List α
  | [] => []
  | t :: ts => preorder t ++ preorderAll ts

end

mutual

/-- The tree itself and all trees below it, each before those below it. -/
def subtrees : Tree α → List (Tree α)
  | mk a ts => mk a ts :: subtreesAll ts

def subtreesAll : List (Tree α) → List (Tree α)
  | [] => []
  | t :: ts => subtrees t ++ subtreesAll ts

end

mutual

/-- The labels of a tree in preorder, with their depth below `depth`. -/
def levels (depth : Nat) : Tree α → List (Nat × α)
  | mk a ts => (depth, a) :: levelsAll (depth + 1) ts

def levelsAll (depth : Nat) : List (Tree α) → List (Nat × α)
  | [] => []
  | t :: ts => levels depth t ++ levelsAll depth ts

end

mutual

/-- The number of nodes of a tree. -/
def size : Tree α → Nat
  | mk _ ts => sizeAll ts + 1

def sizeAll : List (Tree α) → Nat
  | [] => 0
  | t :: ts => size t + sizeAll ts

end

mutual

theorem preorder_map (f : α → β) : (t : Tree α) → (t.map f).preorder = t.preorder.map f
  | mk a ts => by simp only [map, preorder, List.map_cons, preorderAll_mapAll f ts]

theorem preorderAll_mapAll (f : α → β) :
    (ts : List (Tree α)) → preorderAll (mapAll f ts) = (preorderAll ts).map f
  | [] => rfl
  | t :: ts => by
    simp only [mapAll, preorderAll, List.map_append, preorder_map f t, preorderAll_mapAll f ts]

end

mutual

theorem length_preorder : (t : Tree α) → t.preorder.length = t.size
  | mk a ts => by simp only [preorder, size, List.length_cons, length_preorderAll ts]

theorem length_preorderAll : (ts : List (Tree α)) → (preorderAll ts).length = sizeAll ts
  | [] => rfl
  | t :: ts => by
    simp only [preorderAll, sizeAll, List.length_append, length_preorder t, length_preorderAll ts]

end

mutual

/-- The levels of a tree are those of its preorder. -/
theorem levels_map_snd (d : Nat) : (t : Tree α) → (t.levels d).map (·.2) = t.preorder
  | mk a ts => by simp only [levels, preorder, List.map_cons, levelsAll_map_snd (d + 1) ts]

theorem levelsAll_map_snd (d : Nat) :
    (ts : List (Tree α)) → (levelsAll d ts).map (·.2) = preorderAll ts
  | [] => rfl
  | t :: ts => by
    simp only [levelsAll, preorderAll, List.map_append, levels_map_snd d t, levelsAll_map_snd d ts]

end

end Tree
end BlockMarkup
