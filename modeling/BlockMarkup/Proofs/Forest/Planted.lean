import BlockMarkup.Proofs.Forest.Ascent

/-!
# BlockMarkup.Proofs.Forest.Planted

The links of a tree that is planted. `RightAt p` says that the children of `p` are different nodes that
know `p`. All nodes of a planted tree are right, and each but its root has a parent with a smaller
number in the same tree (`grown_plant`). The nodes that were there stay as they were, and the tree can
be read back from its root (`node?_plant`): its nodes are `numbered` in preorder.
-/

namespace BlockMarkup

theorem Tree.size_pos {α : Type} (t : Tree α) : 0 < t.size := by
  cases t
  exact Nat.succ_pos _

namespace Forest

variable {f : Forest} {i j p : NodeId}

/-- The children of `p` are all different, and `p` is the parent of each. -/
structure RightAt (f : Forest) (p : NodeId) : Prop where
  nodup : (f.childrenOf p).Nodup
  parent : ∀ c ∈ f.childrenOf p, f.parentOf c = some p

/-- The cells stand in the forest from number `i` on. -/
def Holds (f : Forest) : NodeId → List Cell → Prop
  | _, [] => True
  | i, c :: cs => f.cell? i = some c ∧ f.Holds (i + 1) cs

theorem holds_append {as bs : List Cell} :
    f.Holds i (as ++ bs) ↔ f.Holds i as ∧ f.Holds (i + as.length) bs := by
  induction as generalizing i with
  | nil => simp [Holds]
  | cons c as ih =>
    rw [List.cons_append, Holds, Holds, ih, List.length_cons, and_assoc, Nat.add_assoc,
      Nat.add_comm 1]

theorem holds_embed (before cells : List Cell) : Holds ⟨before ++ cells⟩ before.length cells := by
  induction cells generalizing before with
  | nil => trivial
  | cons c cells ih =>
    refine ⟨by simp [cell?], ?_⟩
    have hrest := ih (before ++ [c])
    rwa [List.append_assoc, List.singleton_append, List.length_append] at hrest

theorem le_of_mem_rootsFrom {ts : List Node} {next : NodeId} (h : i ∈ rootsFrom next ts) :
    next ≤ i := by
  induction ts generalizing next with
  | nil => cases h
  | cons t ts ih =>
    rcases List.mem_cons.mp h with rfl | h
    · exact Nat.le_refl _
    · exact Nat.le_trans (Nat.le_add_right _ _) (ih h)

theorem nodup_rootsFrom (next : NodeId) (ts : List Node) : (rootsFrom next ts).Nodup := by
  induction ts generalizing next with
  | nil => exact .nil
  | cons t ts ih =>
    refine List.nodup_cons.mpr ⟨fun h => ?_, ih _⟩
    exact Nat.not_lt.mpr (le_of_mem_rootsFrom h) (Nat.lt_add_of_pos_right (Tree.size_pos t))

mutual

theorem length_cellsOf (i : NodeId) (parent : Option NodeId) :
    (t : Node) → (cellsOf i parent t).length = t.size
  | .mk l ts => by rw [cellsOf, List.length_cons, length_cellsOfAll, Tree.size]

theorem length_cellsOfAll (next parent : NodeId) :
    (ts : List Node) → (cellsOfAll next parent ts).length = Tree.sizeAll ts
  | [] => rfl
  | t :: ts => by
    rw [cellsOfAll, List.length_append, length_cellsOf, length_cellsOfAll, Tree.sizeAll]

end

/-- The links of a stretch of cells are right, and their parents come before them, from `low` on. -/
def Grown (f : Forest) (low i stop : NodeId) : Prop :=
  ∀ j, i ≤ j → j < stop → f.RightAt j ∧ ∀ q, f.parentOf j = some q → low ≤ q ∧ q < j

mutual

theorem grown_cellsOf {parent : Option NodeId} : (t : Node) → {i : NodeId} →
    f.Holds i (cellsOf i parent t) →
    f.parentOf i = parent ∧ f.RightAt i ∧ f.Grown i (i + 1) (i + t.size)
  | .mk l ts, i, h => by
    obtain ⟨hcell, hrest⟩ := h
    obtain ⟨hroots, hgrown⟩ := grown_cellsOfAll ts (Nat.lt_succ_self i) hrest
    have hchildren : f.childrenOf i = rootsFrom (i + 1) ts := by rw [childrenOf, hcell]
    refine ⟨by rw [parentOf, hcell], ⟨?_, ?_⟩, ?_⟩
    · rw [hchildren]
      exact nodup_rootsFrom _ _
    · rw [hchildren]
      exact hroots
    · rwa [Tree.size, ← Nat.add_assoc, Nat.add_right_comm]

theorem grown_cellsOfAll {parent : NodeId} : (ts : List Node) → {next : NodeId} → parent < next →
    f.Holds next (cellsOfAll next parent ts) →
    (∀ c ∈ rootsFrom next ts, f.parentOf c = some parent) ∧
      f.Grown parent next (next + Tree.sizeAll ts)
  | [], next, _, _ => ⟨nofun, fun j hj hlt => absurd hlt (Nat.not_lt.mpr hj)⟩
  | t :: ts, next, hlt, h => by
    obtain ⟨hfirst, hrest⟩ := holds_append.mp h
    rw [length_cellsOf] at hrest
    obtain ⟨hparent, hright, hgrown⟩ := grown_cellsOf t hfirst
    obtain ⟨hroots, hgrown'⟩ := grown_cellsOfAll ts (Nat.lt_add_right t.size hlt) hrest
    refine ⟨List.forall_mem_cons.mpr ⟨hparent, hroots⟩, fun j hj hstop => ?_⟩
    rw [Tree.sizeAll, ← Nat.add_assoc] at hstop
    by_cases hin : next + t.size ≤ j
    · exact hgrown' j hin hstop
    · rcases Nat.eq_or_lt_of_le hj with rfl | hj
      · refine ⟨hright, fun q hq => ?_⟩
        obtain rfl := Option.some.inj (hparent.symm.trans hq)
        exact ⟨Nat.le_refl _, hlt⟩
      · obtain ⟨hright, hbefore⟩ := hgrown j hj (Nat.not_le.mp hin)
        refine ⟨hright, fun q hq => ?_⟩
        obtain ⟨hle, hq⟩ := hbefore q hq
        exact ⟨Nat.le_trans (Nat.le_of_lt hlt) hle, hq⟩

end

/-! ## Planting -/

theorem cell?_plant (hi : i < f.cells.length) (t : Node) : (f.plant t).1.cell? i = f.cell? i :=
  List.getElem?_append_left hi

theorem length_plant (f : Forest) (t : Node) :
    (f.plant t).1.cells.length = f.cells.length + t.size := by
  rw [plant, List.length_append, length_cellsOf]

theorem childrenOf_plant (hi : i < f.cells.length) (t : Node) :
    (f.plant t).1.childrenOf i = f.childrenOf i := by
  rw [childrenOf, cell?_plant hi, childrenOf]

theorem parentOf_plant (hi : i < f.cells.length) (t : Node) :
    (f.plant t).1.parentOf i = f.parentOf i := by
  rw [parentOf, cell?_plant hi, parentOf]

/-- The new nodes are right, and but for the root each has a parent among them, before it. -/
theorem grown_plant (f : Forest) (t : Node) :
    (f.plant t).1.parentOf f.cells.length = none ∧ (f.plant t).1.RightAt f.cells.length ∧
      (f.plant t).1.Grown f.cells.length (f.cells.length + 1) (f.plant t).1.cells.length := by
  rw [length_plant]
  exact grown_cellsOf t (holds_embed _ _)

/-! ## Reading back -/

mutual

/-- The numbers of the nodes of a tree, in preorder from `i` on. -/
def numbered (i : NodeId) : Node → Tree NodeId
  | .mk _ ts => .mk i (numberedAll (i + 1) ts)

def numberedAll (next : NodeId) : List Node → List (Tree NodeId)
  | [] => []
  | t :: ts => numbered next t :: numberedAll (next + t.size) ts

end

mutual

theorem preorder_numbered (i : NodeId) :
    (t : Node) → (numbered i t).preorder = List.range' i t.size
  | .mk l ts => by
    rw [numbered, Tree.preorder, preorder_numberedAll, Tree.size, List.range'_succ]

theorem preorder_numberedAll (next : NodeId) :
    (ts : List Node) → Tree.preorderAll (numberedAll next ts) = List.range' next (Tree.sizeAll ts)
  | [] => rfl
  | t :: ts => by
    rw [numberedAll, Tree.preorderAll, preorder_numbered, preorder_numberedAll, Tree.sizeAll,
      List.range'_append_1]

end

theorem label_numbered (i : NodeId) (t : Node) : (numbered i t).label = i := by
  cases t
  rfl

theorem mem_numbered_iff {i j : NodeId} {t : Node} :
    j ∈ (numbered i t).preorder ↔ i ≤ j ∧ j < i + t.size := by
  rw [preorder_numbered, List.mem_range'_1]

mutual

/-- Where the cells of a tree stand, the walk down finds its nodes. -/
theorem unfold_cellsOf {parent : Option NodeId} : (t : Node) → {i : NodeId} → {fuel : Nat} →
    f.Holds i (cellsOf i parent t) → t.size ≤ fuel → f.unfold fuel i = some (numbered i t)
  | .mk l ts, i, 0, _, hfuel => absurd hfuel (Nat.not_succ_le_zero _)
  | .mk l ts, i, fuel + 1, h, hfuel => by
    obtain ⟨hcell, hrest⟩ := h
    have hchildren : f.childrenOf i = rootsFrom (i + 1) ts := by rw [childrenOf, hcell]
    rw [unfold, hchildren, unfold_cellsOfAll ts hrest (Nat.le_of_succ_le_succ hfuel), numbered]

theorem unfold_cellsOfAll {parent : NodeId} : (ts : List Node) → {next : NodeId} → {fuel : Nat} →
    f.Holds next (cellsOfAll next parent ts) → Tree.sizeAll ts ≤ fuel →
    (rootsFrom next ts).mapM (f.unfold fuel) = some (numberedAll next ts)
  | [], _, _, _, _ => rfl
  | t :: ts, next, fuel, h, hfuel => by
    obtain ⟨hfirst, hrest⟩ := holds_append.mp h
    rw [length_cellsOf] at hrest
    rw [Tree.sizeAll] at hfuel
    rw [rootsFrom, List.mapM_cons, unfold_cellsOf t hfirst (by omega),
      unfold_cellsOfAll ts hrest (by omega), numberedAll]
    rfl

end

mutual

theorem map_labelOf_numbered {parent : Option NodeId} : (t : Node) → {i : NodeId} →
    f.Holds i (cellsOf i parent t) → (numbered i t).map f.labelOf = t
  | .mk l ts, i, h => by
    obtain ⟨hcell, hrest⟩ := h
    rw [numbered, Tree.map, mapAll_labelOf_numberedAll ts hrest, labelOf, hcell]

theorem mapAll_labelOf_numberedAll {parent : NodeId} : (ts : List Node) → {next : NodeId} →
    f.Holds next (cellsOfAll next parent ts) → Tree.mapAll f.labelOf (numberedAll next ts) = ts
  | [], _, _ => rfl
  | t :: ts, next, h => by
    obtain ⟨hfirst, hrest⟩ := holds_append.mp h
    rw [length_cellsOf] at hrest
    rw [numberedAll, Tree.mapAll, map_labelOf_numbered t hfirst, mapAll_labelOf_numberedAll ts hrest]

end

theorem shape?_plant (f : Forest) (t : Node) :
    (f.plant t).1.shape? (f.plant t).2 = some (numbered f.cells.length t) := by
  refine unfold_cellsOf t (holds_embed _ _) ?_
  rw [length_plant]
  exact Nat.le_add_left _ _

/-- The tree of a planted root is the tree that was planted. -/
theorem node?_plant (f : Forest) (t : Node) : (f.plant t).1.node? (f.plant t).2 = some t := by
  rw [node?, shape?_plant, Option.map_some]
  exact congrArg some (map_labelOf_numbered t (holds_embed _ _))

end Forest
end BlockMarkup
