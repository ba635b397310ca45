import BlockMarkup.Proofs.Forest.Unfolded

/-!
# BlockMarkup.Proofs.Forest.Tour

The walk through what is below a node. `Owes` says which nodes a tour has still to visit: those of the
trees that are ahead, and those of the trees in the lists that it has left. A turn visits the first of
them or goes back to a list (`Owes.turn`), so the whole tour visits them all in this order
(`Owes.tour`), and from the children of a node these are the nodes below it in preorder.
-/

namespace BlockMarkup
namespace Forest

open Relation

variable {f : Forest} {i : NodeId} {t : Tree NodeId} {w : Tour} {owed : List NodeId} {fuel : Nat}

/-- The nodes that a tour has still to visit: where it is, and then in each list that it has left,
it goes through the trees of the nodes that stand there. -/
inductive Owes (f : Forest) : Tour → List NodeId → Prop where
  | trees {ts : List (Tree NodeId)} {tss : List (List (Tree NodeId))} :
      (∀ t ∈ ts ++ tss.flatten, f.Unfolded t) →
      Owes f ⟨ts.map Tree.label, tss.map (List.map Tree.label)⟩ (Tree.preorderAll (ts ++ tss.flatten))

namespace Owes

theorem start (h : f.Unfolded t) : f.Owes ⟨f.childrenOf t.label, []⟩ (Tree.preorderAll t.children) := by
  obtain ⟨i, ts⟩ := t
  obtain ⟨hlabels, hbelow⟩ := Unfolded.mk_iff.mp h
  have howes : f.Owes _ _ := @trees f ts [] (by simpa using hbelow)
  rwa [List.flatten_nil, List.append_nil, ← hlabels] at howes

/-- One turn: a node that is visited was the next one, and at most one list is left for it; without a
visit one of the lists that were left is taken up, or nothing was owed. -/
theorem turn (h : f.Owes w owed) :
    match f.turn w with
    | .ended => owed = []
    | .resume w' => f.Owes w' owed ∧ w'.suspended.length + 1 = w.suspended.length
    | .visit i w' => ∃ owed', owed = i :: owed' ∧ f.Owes w' owed' ∧
        w'.suspended.length ≤ w.suspended.length + 1 := by
  obtain @⟨ts, tss, hunfolded⟩ := h
  cases ts with
  | nil =>
    cases tss with
    | nil => rfl
    | cons us tss => exact ⟨trees (by simpa using hunfolded), rfl⟩
  | cons first ts =>
    obtain ⟨i, us⟩ := first
    rw [List.cons_append, List.forall_mem_cons, Unfolded.mk_iff] at hunfolded
    obtain ⟨⟨hchildren, hus⟩, hrest⟩ := hunfolded
    have howed : Tree.preorderAll (.mk i us :: ts ++ tss.flatten) =
        i :: Tree.preorderAll (us ++ (ts :: tss).flatten) := by
      simp only [Tree.preorderAll_eq_flatMap, List.cons_append, List.flatMap_cons, Tree.preorder,
        List.flatten_cons, List.flatMap_append]
    simp only [Forest.turn, List.map_cons, Tree.label, hchildren]
    cases us with
    | nil => exact ⟨_, howed, trees hrest, Nat.le_succ _⟩
    | cons u us =>
      refine ⟨_, howed, @trees f (u :: us) (ts :: tss) ?_, Nat.le_of_eq (List.length_cons ..)⟩
      exact List.forall_mem_append.mpr ⟨hus, hrest⟩

/-- The whole tour. Taking up a list costs a turn, and a list is only left in a turn that visits a
node, so two turns for every node that is owed are enough, and one for every list. -/
theorem tour (h : f.Owes w owed)
    (hfuel : 2 * owed.length + w.suspended.length < fuel) : f.tour fuel w = some owed := by
  induction fuel generalizing w owed with
  | zero => cases hfuel
  | succ fuel ih =>
    have hturn := h.turn
    rw [Forest.tour]
    generalize f.turn w = next at hturn ⊢
    cases next with
    | ended => exact congrArg some hturn.symm
    | resume w' =>
      obtain ⟨howes, hlists⟩ := hturn
      exact ih howes (by omega)
    | visit i w' =>
      obtain ⟨owed, rfl, howes, hlists⟩ := hturn
      rw [List.length_cons] at hfuel
      show (f.tour fuel w').map _ = _
      rw [ih howes (by omega), Option.map_some]

end Owes

/-- A tour of a tree ends, with the nodes below the root in preorder. -/
theorem tour_of_shape? (h : f.shape? i = some t) (hfuel : 2 * t.size ≤ fuel) :
    f.tour fuel ⟨f.childrenOf i, []⟩ = some (Tree.preorderAll t.children) := by
  obtain ⟨rfl, hunfolded⟩ := unfolded_of_shape? h
  refine (Owes.start hunfolded).tour (Nat.lt_of_lt_of_le ?_ hfuel)
  obtain ⟨i, ts⟩ := t
  rw [Tree.children, Tree.length_preorderAll, Tree.size]
  exact Nat.lt_add_of_pos_right Nat.two_pos

theorem descendants?_of_shape? (h : f.shape? i = some t) :
    f.descendants? i = some (Tree.preorderAll t.children) := by
  rw [descendants?, h]
  exact tour_of_shape? h (Nat.le_refl _)

theorem select?_of_shape? (h : f.shape? i = some t) (classes : List NodeClass) :
    f.select? i .descendants classes =
      some ((Tree.preorderAll t.children).filter (f.isAnyClass classes)) := by
  rw [select?, descendants?_of_shape? h, Option.map_some]

/-- What a check reports is the first one of the invalid nodes that are selected. -/
theorem check_eq_of_shape? (h : f.shape? i = some t) :
    check (t.map f.labelOf) =
      match f.select? i .descendants [.of .invalid] with
      | some (j :: _) => .error ⟨(f.labelOf j).head, (f.labelOf j).position⟩
      | _ => .ok (t.map f.labelOf) := by
  obtain ⟨i, ts⟩ := t
  have hclass : f.isAnyClass [.of .invalid] = fun j => (f.labelOf j).isA .invalid := by
    funext j
    exact Bool.or_false _
  rw [select?_of_shape? h, hclass, check, firstInvalid?, Tree.map, Tree.children, Tree.children,
    Tree.preorderAll_mapAll, List.find?_map, Function.comp_def, ← List.head?_filter]
  cases (Tree.preorderAll ts).filter fun j => (f.labelOf j).isA .invalid <;> rfl

/-- In a tree no node of which has two places, the tour that starts with the children of the root ends
within two turns for each node. It visits every node below the root once, in preorder. So what is
selected for some classes is what is left of the preorder, and a check reports the first of
its invalid nodes. -/
theorem preorder_of_tour (h : f.shape? i = some t) (hapart : f.Apart t) :
    (∀ fuel, 2 * t.size ≤ fuel →
      f.tour fuel ⟨f.childrenOf i, []⟩ = some (Tree.preorderAll t.children)) ∧
    f.descendants? i = some (Tree.preorderAll t.children) ∧
    (Tree.preorderAll t.children).Nodup ∧
    (∀ j, j ∈ Tree.preorderAll t.children ↔ TransGen f.Down i j) ∧
    (∀ classes, f.select? i .descendants classes =
      some ((Tree.preorderAll t.children).filter (f.isAnyClass classes))) ∧
    f.node? i = some (t.map f.labelOf) ∧
    check (t.map f.labelOf) =
      match f.select? i .descendants [.of .invalid] with
      | some (j :: _) => .error ⟨(f.labelOf j).head, (f.labelOf j).position⟩
      | _ => .ok (t.map f.labelOf) := by
  obtain ⟨rfl, hunfolded⟩ := unfolded_of_shape? h
  have hnodup : (Tree.preorderAll t.children).Nodup := by
    have hnodup := hunfolded.nodup_preorder hapart
    cases t
    exact (List.nodup_cons.mp hnodup).2
  refine ⟨fun _ => tour_of_shape? h, descendants?_of_shape? h, hnodup,
    fun _ => hunfolded.mem_preorderAll_iff, select?_of_shape? h, ?_, check_eq_of_shape? h⟩
  rw [node?, h, Option.map_some]

/-- Two invalid nodes, of which the one that is deeper comes first. -/
def sampleFlawed : Node :=
  .bare .element [.bare .element [.invalid .missingExpression (some 4)], .invalid .secondSpread (some 9)]

/-- The tour leaves a list before its last node for the nodes below the one in front of it. -/
theorem preorder_sampleFlawed :
    (plant {} sampleFlawed).1.descendants? 0 = some [1, 2, 3] ∧
    check sampleFlawed = .error ⟨some Flaw.missingExpression.message, some 4⟩ := by
  have hapart := (Linked.empty.plant sampleFlawed).apart (numbered 0 sampleFlawed)
  obtain ⟨-, hall, -, -, hselect, -, hcheck⟩ :=
    preorder_of_tour (shape?_plant {} sampleFlawed) hapart
  rw [hselect] at hcheck
  exact ⟨hall, hcheck⟩

end Forest
end BlockMarkup
