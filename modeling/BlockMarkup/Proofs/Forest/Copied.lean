import BlockMarkup.Proofs.Forest.History
import BlockMarkup.Proofs.Forest.Planted
import BlockMarkup.Proofs.Forest.Unfolded
import BlockMarkup.Proofs.Layout.Alike

/-!
# BlockMarkup.Proofs.Forest.Copied

What copies keep. Two nodes are equal exactly if the same is left of them when their labels lose all
that does not count (`Node.equals_iff`). A copy is made of new nodes only, and the tree of these is
equal to the tree that was copied (`Closed.copies`). Since equal trees are formatted alike, a copy is
written as what it was copied from (`equals_respected`).
-/

namespace BlockMarkup

/-- The part of a label that equality looks at: the class, and the head where there can be one. -/
def Label.essence (l : Label) : Label :=
  { cls := l.cls, head := if l.isA .textual then l.head else none }

theorem Label.same_iff_essence {l k : Label} : l.same k = true ↔ l.essence = k.essence := by
  rw [same_iff, essence, essence, Label.mk.injEq]
  refine and_congr_right fun hcls => ?_
  have hisA : l.isA .textual = k.isA .textual := congrArg (fun c : NodeClass => c.isA .textual) hcls
  rw [hisA]
  cases k.isA .textual <;> simp

namespace Node

mutual

/-- Equal nodes have the same essence. -/
theorem equals_iff : (a b : Node) →
    (a.equals b = true ↔ a.map Label.essence = b.map Label.essence)
  | .mk l cs, .mk k ds => by
    rw [equals, Bool.and_eq_true, Label.same_iff_essence, equalsAll_iff cs ds, Tree.map, Tree.map,
      Tree.mk.injEq]

theorem equalsAll_iff : (as bs : List Node) →
    (equalsAll as bs = true ↔ Tree.mapAll Label.essence as = Tree.mapAll Label.essence bs)
  | [], [] => iff_of_true rfl rfl
  | [], _ :: _ => iff_of_false nofun nofun
  | _ :: _, [] => iff_of_false nofun nofun
  | a :: as, b :: bs => by
    rw [equalsAll, Bool.and_eq_true, equals_iff a b, equalsAll_iff as bs, Tree.mapAll, Tree.mapAll,
      List.cons.injEq]

end

theorem equals_equivalence : Equivalence fun a b : Node => a.equals b = true where
  refl a := (equals_iff a a).mpr rfl
  symm {a b} h := (equals_iff b a).mpr ((equals_iff a b).mp h).symm
  trans {a b c} h h' := (equals_iff a c).mpr (((equals_iff a b).mp h).trans ((equals_iff b c).mp h'))

/-- A copy equals what it was copied from. -/
theorem equals_copy (n : Node) : n.copy.equals n = true :=
  equals_equivalence.symm
    (same_map (g := Label.detached) (fun _ => Label.same_iff.mpr ⟨rfl, fun _ => rfl⟩) n)

end Node

/-! ## The nodes of a tree -/

namespace Forest

variable {f g : Forest} {i j on : NodeId} {e : Edit} {t : Tree NodeId}

/-- All children are nodes. -/
def Closed (f : Forest) : Prop := ∀ p, ∀ c ∈ f.childrenOf p, c < f.cells.length

namespace Closed

theorem empty : Closed {} := nofun

theorem plant (h : f.Closed) (n : Node) : (f.plant n).1.Closed := by
  intro p c hc
  obtain ⟨-, hroot, hgrown⟩ := grown_plant f n
  rcases Nat.lt_trichotomy p f.cells.length with hp | rfl | hp
  · rw [childrenOf_plant hp] at hc
    rw [length_plant]
    exact Nat.lt_add_right _ (h p c hc)
  · exact lt_of_parentOf (hroot.parent c hc)
  · exact lt_of_parentOf ((hgrown p hp (lt_of_mem_childrenOf hc)).1.parent c hc)

theorem setChildren (h : f.Closed) {cs : List NodeId} (hcs : ∀ c ∈ cs, c < f.cells.length) :
    (f.setChildren on cs).Closed := by
  intro p c hc
  have hlength : (f.setChildren on cs).cells.length = f.cells.length := length_modify _ _ _
  rw [hlength]
  rw [childrenOf_setChildren] at hc
  split at hc
  · exact hcs c hc
  · exact h p c hc

theorem adopt (h : f.Closed) (ns : List NodeId) : (f.adopt on ns).Closed := by
  intro p c hc
  rw [childrenOf_adopt] at hc
  rw [length_adopt]
  exact h p c hc

theorem apply (h : f.Closed) (hnodes : ∀ n ∈ e.added, n < f.cells.length) :
    (f.apply on e).1.Closed := by
  unfold Forest.apply
  dsimp only
  split
  · rename_i cs hcs
    refine (h.adopt _).setChildren fun c hc => ?_
    rw [length_adopt]
    exact (e.mem_of_children hcs hc).elim (h on c) (hnodes c)
  · exact h.adopt _

/-- What is below a node are nodes. -/
theorem lt_of_mem_preorder (h : f.Closed) {fuel : Nat} (ht : f.unfold fuel i = some t)
    (hi : i < f.cells.length) : ∀ j ∈ t.preorder, j < f.cells.length := by
  induction fuel generalizing i t with
  | zero => cases ht
  | succ fuel ih =>
    rw [unfold] at ht
    split at ht
    · cases ht
    · rename_i ts hts
      cases ht
      rw [Tree.preorder]
      refine List.forall_mem_cons.mpr ⟨hi, fun j hj => ?_⟩
      obtain ⟨u, hu, hj⟩ := Tree.mem_preorderAll.mp hj
      obtain ⟨c, hc, hcu⟩ := exists_of_mem_mapM hts hu
      exact ih hcu (h i c hc) j hj

end Closed

/-- All forests that come about are closed, whatever the calls. -/
theorem closed_of_history {allows : Forest → NodeId → Edit → Prop} (h : f.History allows) :
    f.Closed :=
  h.invariant .empty fun hclosed hstep => by
    cases hstep with
    | plant n => exact hclosed.plant n
    | apply _ hnodes _ => exact hclosed.apply hnodes
    | remove hcs => exact hclosed.setChildren fun c hc => hclosed _ c (hcs.subset hc)

/-! ## Copies -/

/-- The copy of the tree of a node, as a new tree beside the others. -/
def copy? (f : Forest) (i : NodeId) : Option (Forest × NodeId) :=
  (f.node? i).map fun n => f.plant n.copy

/-- The nodes of `t'` in `g` are a copy of those of `t` in `f`: their trees are equal and have no node
in common, the links below the new root are right and above it there are none, no new node knows where
it was read, and the nodes of `f` stay as they are. -/
structure Copies (f : Forest) (t : Tree NodeId) (g : Forest) (t' : Tree NodeId) : Prop where
  equal : Node.equals (t'.map g.labelOf) (t.map f.labelOf) = true
  apart : ∀ j ∈ t'.preorder, j ∉ t.preorder
  top : g.parentOf t'.label = none
  below : ∀ j ∈ t'.preorder, g.RightAt j
  detached : ∀ j ∈ t'.preorder, (g.labelOf j).origin = none ∧ (g.labelOf j).position = none
  kept : ∀ j < f.cells.length, g.cell? j = f.cell? j

/-- No label of a copy tells where it was read. -/
theorem detached_of_mem_copy {n : Node} {l : Label} (h : l ∈ n.copy.preorder) :
    l.origin = none ∧ l.position = none := by
  have hlabels : n.copy.preorder = n.preorder.map Label.detached := Tree.preorder_map _ n
  rw [hlabels] at h
  obtain ⟨k, -, rfl⟩ := List.mem_map.mp h
  exact ⟨rfl, rfl⟩

/-- The cells that are put behind the others make up the copy. -/
theorem copies_plant {n : Node} (hn : t.map f.labelOf = n)
    (ht : ∀ j ∈ t.preorder, j < f.cells.length) :
    f.Copies t (f.plant n.copy).1 (numbered f.cells.length n.copy) := by
  obtain ⟨htop, hroot, hgrown⟩ := grown_plant f n.copy
  have hread : (numbered f.cells.length n.copy).map (f.plant n.copy).1.labelOf = n.copy :=
    map_labelOf_numbered _ (holds_embed _ _)
  exact {
    equal := by
      rw [hread, hn]
      exact Node.equals_copy n
    apart := fun j hj hold => Nat.not_lt.mpr (mem_numbered_iff.mp hj).1 (ht j hold)
    top := by rwa [label_numbered]
    below := by
      intro j hj
      obtain ⟨hle, hlt⟩ := mem_numbered_iff.mp hj
      rcases Nat.eq_or_lt_of_le hle with rfl | hle
      · exact hroot
      · exact (hgrown j hle (by rwa [length_plant])).1
    detached := by
      intro j hj
      have hlabel := List.mem_map_of_mem (f := (f.plant n.copy).1.labelOf) hj
      rw [← Tree.preorder_map, hread] at hlabel
      exact detached_of_mem_copy hlabel
    kept := fun j hj => cell?_plant hj _ }

/-- The tree of a node can be copied. -/
theorem Closed.copies (h : f.Closed) (hi : i < f.cells.length) (ht : f.shape? i = some t) :
    ∃ g t', f.copy? i = some (g, t'.label) ∧ g.shape? t'.label = some t' ∧ f.Copies t g t' := by
  refine ⟨_, _, ?_, ?_, copies_plant rfl (h.lt_of_mem_preorder ht hi)⟩
  · rw [copy?, node?, ht, label_numbered]
    rfl
  · rw [label_numbered]
    exact shape?_plant f _

end Forest

/-- Equality is an equivalence that copies and layouts respect. The copy of a node is a tree of new
nodes that is equal to the tree of the node, with right links and nothing that tells where it was read.
Equal trees are written by the same texts, and the two runs end in the same way, whether they succeed
or not. -/
theorem equals_respected :
    Equivalence (fun a b : Node => a.equals b = true) ∧
    (∀ (f : Forest) (i : NodeId) (t : Tree NodeId), f.Closed → i < f.cells.length →
      f.shape? i = some t →
      ∃ g t', f.copy? i = some (g, t'.label) ∧ g.shape? t'.label = some t' ∧ f.Copies t g t') ∧
    ∀ a b : Node, a.equals b = true → ∀ width start : Int,
      (Formatter.nodes ⟨width, start, .tidy⟩ (Formatter.roots a)).Alike
        (Formatter.nodes ⟨width, start, .tidy⟩ (Formatter.roots b)) :=
  ⟨Node.equals_equivalence, fun _ _ _ hclosed hi ht => hclosed.copies hi ht, fun _ _ h width start =>
    Formatter.nodes_alike ⟨width, start, .tidy⟩ (Renderer.ofHead_respects _) (Formatter.roots_same h)⟩

/-- A component with a field that was read at a place, and whose expression has lost its head. -/
def sampleLost : Node :=
  let origin : Origin := { opening := [⟨2, "b:".toList, .name⟩] }
  Node.textual .component "A".toList
    [.mk { cls := .of .expressionField, head := some "b".toList, origin := some origin }
      [Node.bare .expression]]

/-- The component below a plain node. -/
def sampleHolder : Forest := (Forest.plant {} (.mk { cls := .of .node } [sampleLost])).1

theorem equals_respected_sampleLost :
    (sampleHolder.Closed ∧ ∃ g t', sampleHolder.copy? 1 = some (g, t'.label) ∧
      g.shape? t'.label = some t' ∧
      sampleHolder.Copies (.mk 1 [.mk 2 [.mk 3 []]]) g t') ∧
    sampleLost.equals sampleLost.copy = true ∧
    (Formatter.nodes ⟨2, 1, .tidy⟩ (Formatter.roots sampleLost)).Alike
      (Formatter.nodes ⟨2, 1, .tidy⟩ (Formatter.roots sampleLost.copy)) := by
  have hclosed : sampleHolder.Closed := Forest.Closed.empty.plant _
  have hequals : sampleLost.equals sampleLost.copy = true := by decide
  exact ⟨⟨hclosed, equals_respected.2.1 sampleHolder 1 _ hclosed (by decide) rfl⟩, hequals,
    equals_respected.2.2 _ _ hequals 2 1⟩

end BlockMarkup
