import BlockMarkup.Forest.Outline
import BlockMarkup.Proofs.Forest.Tour
import Mathlib.Data.List.Chain

/-!
# BlockMarkup.Proofs.Forest.Drawn

The cells of a drawing from the top down. A line finds its cells on the way up (`Forest.cellsUp`);
`cellsDown` reads them off the way down, from the node that is drawn to the one on the line. Where
children know their parent, both are the same (`outlineLines_levels`): one step down puts one more
cell behind those that are there, and what was the cell of a node becomes that of a level.
-/

namespace BlockMarkup

namespace Tree

variable {α : Type} {a : α} {t : Tree α} {ts : List (Tree α)} {w : List α × α}

mutual

/-- The nodes of a tree in preorder, each with the nodes that lead down to it from the root. -/
def ways : Tree α → List (List α × α)
  | mk a ts => ([], a) :: (waysAll ts).map fun w => (a :: w.1, w.2)

def waysAll : List (Tree α) → List (List α × α)
  | [] => []
  | t :: ts => ways t ++ waysAll ts

end

mutual

theorem ways_map_snd : (t : Tree α) → t.ways.map (·.2) = t.preorder
  | mk a ts => by
    rw [ways, preorder, List.map_cons, List.map_map, ← waysAll_map_snd ts]
    rfl

theorem waysAll_map_snd : (ts : List (Tree α)) → (waysAll ts).map (·.2) = preorderAll ts
  | [] => rfl
  | t :: ts => by rw [waysAll, preorderAll, List.map_append, ways_map_snd t, waysAll_map_snd ts]

end

theorem mem_waysAll : w ∈ waysAll ts ↔ ∃ t ∈ ts, w ∈ t.ways := by
  induction ts with
  | nil => simp [waysAll]
  | cons t ts ih => simp [waysAll, ih]

theorem mem_ways_mk : w ∈ (mk a ts).ways ↔
    w = ([], a) ∨ ∃ t ∈ ts, ∃ v ∈ t.ways, w = (a :: v.1, v.2) := by
  rw [ways, List.mem_cons, List.mem_map]
  refine or_congr_right ⟨?_, ?_⟩
  · rintro ⟨v, hv, rfl⟩
    obtain ⟨t, ht, hv⟩ := mem_waysAll.mp hv
    exact ⟨t, ht, v, hv, rfl⟩
  · rintro ⟨t, ht, v, hv, rfl⟩
    exact ⟨v, mem_waysAll.mpr ⟨t, ht, hv⟩, rfl⟩

theorem exists_mem_subtrees (ha : a ∈ t.preorder) : ∃ u ∈ t.subtrees, u.label = a := by
  induction t using induct with
  | mk b ts ih =>
    rcases List.mem_cons.mp ha with rfl | ha
    · exact ⟨_, mem_subtrees_self _, rfl⟩
    · obtain ⟨t, ht, ha⟩ := mem_preorderAll.mp ha
      obtain ⟨u, hu, hlabel⟩ := ih t ht ha
      exact ⟨u, List.mem_cons_of_mem _ (mem_subtreesAll.mpr ⟨t, ht, hu⟩), hlabel⟩

end Tree

namespace Forest

variable {f : Forest} {s : OutlineStyle} {p c i : NodeId} {n : Nat} {cs : List (List Char)}
  {t u : Tree NodeId} {w : List NodeId × NodeId}

/-- A way in a tree goes from the root down by child steps. -/
theorem Unfolded.isChain_of_mem_ways (h : f.Unfolded t) (hw : w ∈ t.ways) :
    (w.1 ++ [w.2]).head? = some t.label ∧ (w.1 ++ [w.2]).IsChain f.Down := by
  induction t using Tree.induct generalizing w with
  | mk i ts ih =>
    obtain ⟨hlabels, hbelow⟩ := mk_iff.mp h
    rcases Tree.mem_ways_mk.mp hw with rfl | ⟨t, ht, v, hv, rfl⟩
    · exact ⟨rfl, .singleton i⟩
    · obtain ⟨hhead, hchain⟩ := ih t ht (hbelow t ht) hv
      refine ⟨rfl, List.isChain_cons.mpr ⟨fun c hc => ?_, hchain⟩⟩
      obtain rfl := Option.some.inj (hhead.symm.trans hc)
      rw [Down, hlabels]
      exact List.mem_map_of_mem ht

/-! ## One step down -/

/-- Whether `i` is the last child of `p`. -/
def isLastOf (f : Forest) (p i : NodeId) : Bool := (f.childrenOf p).getLast? = some i

/-- The children of the nodes of the tree know their parent. -/
def ParentsKnown (f : Forest) (t : Tree NodeId) : Prop :=
  ∀ p ∈ t.preorder, ∀ c ∈ f.childrenOf p, f.parentOf c = some p

theorem isLast_of_parentOf (hc : c ∈ f.childrenOf p) (hp : f.parentOf c = some p) :
    f.isLast c = .ok (f.isLastOf p c) := by
  rw [isLast, hp, isLastOf]
  cases hlast : (f.childrenOf p).getLast? with
  | none =>
    rw [List.getLast?_eq_none_iff.mp hlast] at hc
    cases hc
  | some d => simp [hlast]

theorem levelsUp_child (hc : c ∈ f.childrenOf p) (hp : f.parentOf c = some p)
    (hcs : f.levelsUp s n p = .ok cs) :
    f.levelsUp s (n + 1) c = .ok (s.levelCell (f.isLastOf p c) :: cs) := by
  simp only [levelsUp, isLast_of_parentOf hc hp, hp, hcs]

theorem cellsUp_child (hc : c ∈ f.childrenOf p) (hp : f.parentOf c = some p)
    (hcs : f.levelsUp s n p = .ok cs) :
    f.cellsUp s (n + 1) c = .ok (s.nodeCell (f.isLastOf p c) :: cs) := by
  simp only [cellsUp, isLast_of_parentOf hc hp, hp, hcs]

/-! ## From the top down -/

/-- The cells of the line of a node that the given nodes lead down to: one for each level on the way,
and one in front of the node; none if the way starts at the node. -/
def cellsDown (f : Forest) (s : OutlineStyle) : List NodeId → NodeId → List (List Char)
  | [], _ => []
  | [p], i => [s.nodeCell (f.isLastOf p i)]
  | p :: c :: rest, i => s.levelCell (f.isLastOf p c) :: f.cellsDown s (c :: rest) i

/-- The line of the node at the end of a way. -/
def lineDown (f : Forest) (s : OutlineStyle) (w : List NodeId × NodeId) : List Char :=
  (f.cellsDown s w.1 w.2).flatten ++ f.describe w.2

theorem lineDown_cons_cons (p c : NodeId) (rest : List NodeId) (i : NodeId) :
    f.lineDown s (p :: c :: rest, i) =
      s.levelCell (f.isLastOf p c) ++ f.lineDown s (c :: rest, i) := by
  rw [lineDown, cellsDown, List.flatten_cons, List.append_assoc, lineDown]

theorem outlineLines_append {as bs : List (Nat × NodeId)} {ls ms : List (List Char)}
    (has : f.outlineLines s 0 as = .ok ls) (hbs : f.outlineLines s 0 bs = .ok ms) :
    f.outlineLines s 0 (as ++ bs) = .ok (ls ++ ms) := by
  induction as generalizing ls with
  | nil =>
    cases has
    exact hbs
  | cons a as ih =>
    rw [outlineLines] at has
    rw [List.cons_append, outlineLines]
    split at has
    · cases has
    · split at has
      · cases has
      · rename_i hrest
        cases has
        rw [ih hrest]
        rfl

theorem outlineLines_levelsAll {d : Nat} {ts : List (Tree NodeId)}
    {line : List NodeId × NodeId → List Char}
    (h : ∀ t ∈ ts, f.outlineLines s 0 (t.levels d) = .ok (t.ways.map line)) :
    f.outlineLines s 0 (Tree.levelsAll d ts) = .ok ((Tree.waysAll ts).map line) := by
  induction ts with
  | nil => rfl
  | cons t ts ih =>
    obtain ⟨hfirst, hrest⟩ := List.forall_mem_cons.mp h
    rw [Tree.levelsAll, Tree.waysAll, List.map_append]
    exact outlineLines_append hfirst (ih hrest)

/-- The lines of what stands below `p`, where `cs` are the cells that the lines below `p` have on the
way up from there. -/
theorem outlineLines_levels (h : f.Unfolded t) (hparents : f.ParentsKnown t)
    (hc : t.label ∈ f.childrenOf p) (hp : f.parentOf t.label = some p)
    (hcs : f.levelsUp s n p = .ok cs) :
    f.outlineLines s 0 (t.levels (n + 1)) =
      .ok (t.ways.map fun w => cs.reverse.flatten ++ f.lineDown s (p :: w.1, w.2)) := by
  induction t using Tree.induct generalizing p n cs with
  | mk c us ih =>
    obtain ⟨hlabels, hbelow⟩ := Unfolded.mk_iff.mp h
    rw [Tree.label] at hc hp
    have hline : f.outlineLine s (n + 1) c = .ok (cs.reverse.flatten ++ f.lineDown s ([p], c)) := by
      rw [outlineLine, cellsUp_child hc hp hcs, lineDown, cellsDown]
      simp only [List.reverse_cons, List.flatten_append, List.append_assoc]
    have hrest : f.outlineLines s 0 (Tree.levelsAll (n + 1 + 1) us) =
        .ok ((Tree.waysAll us).map fun w =>
          cs.reverse.flatten ++ f.lineDown s (p :: c :: w.1, w.2)) := by
      refine outlineLines_levelsAll fun u hu => ?_
      have hchild : u.label ∈ f.childrenOf c := by
        rw [hlabels]
        exact List.mem_map_of_mem hu
      rw [ih u hu (hbelow u hu) ?_ hchild (hparents c List.mem_cons_self _ hchild)
        (levelsUp_child hc hp hcs)]
      · simp only [lineDown_cons_cons, List.reverse_cons, List.flatten_append, List.flatten_singleton,
          List.append_assoc]
      · exact fun q hq => hparents q
          (List.mem_cons_of_mem _ (Tree.mem_preorderAll.mpr ⟨u, hu, hq⟩))
    rw [Tree.levels, Tree.ways, outlineLines, Int.zero_add, Int.toNat_natCast, hline, hrest]
    simp only [List.map_cons, List.map_map, Function.comp_def]

/-- The drawing of a node: only the links below it count. -/
theorem outline_of_shape? (h : f.shape? i = some t) (hparents : f.ParentsKnown t) :
    f.outline s 0 i = .ok (t.ways.map (f.lineDown s)) := by
  rw [outline, h]
  obtain ⟨rfl, hunfolded⟩ := unfolded_of_shape? h
  obtain ⟨i, ts⟩ := t
  obtain ⟨hlabels, hbelow⟩ := Unfolded.mk_iff.mp hunfolded
  have hnone : f.levelsUp s 0 i = .ok [] := rfl
  have hrest : f.outlineLines s 0 (Tree.levelsAll 1 ts) =
      .ok ((Tree.waysAll ts).map fun w => f.lineDown s (i :: w.1, w.2)) := by
    refine outlineLines_levelsAll fun t ht => ?_
    have hchild : t.label ∈ f.childrenOf i := by
      rw [hlabels]
      exact List.mem_map_of_mem ht
    refine outlineLines_levels (hbelow t ht) (fun q hq => hparents q ?_) hchild
      (hparents i List.mem_cons_self _ hchild) hnone
    exact List.mem_cons_of_mem _ (Tree.mem_preorderAll.mpr ⟨t, ht, hq⟩)
  show f.outlineLines s 0 ((0, i) :: Tree.levelsAll 1 ts) = _
  rw [Tree.ways, outlineLines, hrest, List.map_cons, List.map_map]
  rfl

/-- In a tree whose children know their parent, the drawing of each node has one line for it and one for
each node below it, in preorder. The cells of each line are those of the way down to its node from
the node that is drawn, whatever is above that one. -/
theorem outline_from_above {r : NodeId} (h : f.shape? r = some t) (hparents : f.ParentsKnown t) :
    ∀ x ∈ t.preorder, ∃ u below, f.shape? x = some u ∧ f.descendants? x = some below ∧
      u.ways.map (·.2) = x :: below ∧
      (∀ w ∈ u.ways, (w.1 ++ [w.2]).head? = some x ∧ (w.1 ++ [w.2]).IsChain f.Down) ∧
      ∀ s : OutlineStyle, f.outline s 0 x = .ok (u.ways.map (f.lineDown s)) := by
  intro x hx
  obtain ⟨u, hu, rfl⟩ := Tree.exists_mem_subtrees hx
  have hshape := shape?_of_mem_subtrees h hu
  refine ⟨u, _, hshape, descendants?_of_shape? hshape, ?_, fun w => ?_, fun s => ?_⟩
  · rw [Tree.ways_map_snd]
    cases u
    rfl
  · exact (unfolded_of_shape? hshape).2.isChain_of_mem_ways
  · exact outline_of_shape? hshape fun p hp =>
      hparents p (Tree.preorder_of_mem_subtrees hp t hu)

/-- A node below another one, in front of its sister, with nodes on two levels below it. -/
def sampleDrawn : Node :=
  .bare .element [.bare .element [.bare .element [.bare .element], .bare .element], .bare .element]

theorem outline_sampleDrawn : (plant {} sampleDrawn).1.outline .ascii 0 1 = .ok
    ["<rsx.Element (2 children)>".toList, " |-<rsx.Element (1 child)>".toList,
      " |  `-<rsx.Element>".toList, " `-<rsx.Element>".toList] := by
  have hparents : (plant {} sampleDrawn).1.ParentsKnown (numbered 0 sampleDrawn) := fun p _ =>
    (Linked.empty.plant sampleDrawn p).parent
  obtain ⟨u, -, hshape, -, -, -, hlines⟩ :=
    outline_from_above (shape?_plant {} sampleDrawn) hparents 1 (by decide)
  obtain rfl := Option.some.inj (hshape.symm.trans rfl)
  exact hlines .ascii

end Forest
end BlockMarkup
