import BlockMarkup.Proofs.Forest.History
import BlockMarkup.Proofs.Forest.Planted

/-!
# BlockMarkup.Proofs.Forest.Linked

Children know their parent. `Linked` says that all nodes are right: their children are different
and have them as parent. A call keeps it if what it adds `Fits`: these nodes are different,
and nobody's children but those that the same assignment replaces. So the parents above a node are
the nodes that lead down to it (`parents_of_history`).
-/

namespace BlockMarkup
namespace Forest

variable {f : Forest} {i j p on : NodeId} {e : Edit}

/-- The added nodes are all different, and children of no node, except those that the same assignment
replaces. -/
def Fits (f : Forest) (on : NodeId) (e : Edit) : Prop :=
  e.added.Nodup ∧ ∀ n ∈ e.added, ∀ p < f.cells.length, n ∈ f.childrenOf p →
    p = on ∧ n ∈ e.replaced (f.childrenOf on)

instance (f : Forest) (on : NodeId) (e : Edit) : Decidable (f.Fits on e) :=
  inferInstanceAs (Decidable (_ ∧ _))

def Linked (f : Forest) : Prop := ∀ p, f.RightAt p

theorem rightAt_congr {g : Forest} (h : f.RightAt p) (hchildren : g.childrenOf p = f.childrenOf p)
    (hparent : ∀ c ∈ f.childrenOf p, g.parentOf c = f.parentOf c) : g.RightAt p where
  nodup := hchildren ▸ h.nodup
  parent c hc := by
    rw [hchildren] at hc
    rw [hparent c hc, h.parent c hc]

namespace Linked

theorem empty : Linked {} := fun _ => ⟨.nil, nofun⟩

theorem plant (h : f.Linked) (t : Node) : (f.plant t).1.Linked := by
  intro p
  obtain ⟨-, hroot, hgrown⟩ := grown_plant f t
  rcases Nat.lt_trichotomy p f.cells.length with hp | rfl | hp
  · refine rightAt_congr (h p) (childrenOf_plant hp t) fun c hc => ?_
    exact parentOf_plant (lt_of_parentOf ((h p).parent c hc)) t
  · exact hroot
  · by_cases hlt : p < (f.plant t).1.cells.length
    · exact (hgrown p hp hlt).1
    · have hnil : (f.plant t).1.childrenOf p = [] := by
        rw [childrenOf, cell?, List.getElem?_eq_none (Nat.not_lt.mp hlt)]
      refine ⟨by rw [hnil]; exact .nil, fun c hc => ?_⟩
      rw [hnil] at hc
      cases hc

/-- The children that were there stay right when the added nodes get their new parent. -/
theorem adopt (h : f.Linked) (hfits : f.Fits on e) : (f.adopt on e.added).Linked := by
  intro p
  refine rightAt_congr (h p) (childrenOf_adopt _ _ _ _) fun c hc => ?_
  rw [parentOf_adopt]
  split
  · rename_i hadded
    obtain ⟨rfl, -⟩ := hfits.2 c hadded.1 p (lt_of_mem_childrenOf hc) hc
    exact ((h p).parent c hc).symm
  · rfl

theorem setChildren (h : f.Linked) {cs : List NodeId} (hnodup : cs.Nodup)
    (hparent : ∀ c ∈ cs, f.parentOf c = some on) : (f.setChildren on cs).Linked := by
  intro p
  by_cases hp : on = p ∧ p < f.cells.length
  · have hchildren : (f.setChildren on cs).childrenOf p = cs := by
      rw [childrenOf_setChildren, if_pos hp]
    obtain ⟨rfl, -⟩ := hp
    refine ⟨by rwa [hchildren], fun c hc => ?_⟩
    rw [hchildren] at hc
    rw [parentOf_setChildren, hparent c hc]
  · refine rightAt_congr (h p) ?_ fun c _ => parentOf_setChildren _ _ _ _
    rw [childrenOf_setChildren, if_neg hp]

theorem remove (h : f.Linked) {cs : List NodeId} (hcs : cs.Sublist (f.childrenOf on)) :
    (f.setChildren on cs).Linked :=
  h.setChildren ((h on).nodup.sublist hcs) fun c hc => (h on).parent c (hcs.subset hc)

/-- A change keeps the links right, and so does one that fails. -/
theorem apply (h : f.Linked) (hon : on < f.cells.length)
    (hnodes : ∀ n ∈ e.added, n < f.cells.length) (hfits : f.Fits on e) :
    (f.apply on e).1.Linked := by
  have hadopt := h.adopt hfits
  unfold Forest.apply
  dsimp only
  split
  · rename_i cs hcs
    refine hadopt.setChildren ?_ fun c hc => ?_
    · exact e.nodup_children hcs (h on).nodup hfits.1 fun n hn hold => (hfits.2 n hn on hon hold).2
    · rcases e.mem_of_children hcs hc with hold | hadded
      · exact (hadopt on).parent c (by rwa [childrenOf_adopt])
      · rw [parentOf_adopt, if_pos ⟨hadded, hnodes c hadded⟩]
  · exact hadopt

end Linked

theorem linked_of_history (h : f.History Fits) : f.Linked :=
  h.invariant .empty fun hlinked hstep => by
    cases hstep with
    | plant t => exact hlinked.plant t
    | apply hon hnodes hfits => exact hlinked.apply hon hnodes hfits
    | remove hcs => exact hlinked.remove hcs

/-! ## The way down is the way up -/

/-- No node is in two places of the child lists. -/
theorem Linked.nodup_children (h : f.Linked) : (f.cells.flatMap Cell.children).Nodup := by
  have hchildren : ∀ i (hi : i < f.cells.length), f.cells[i].children = f.childrenOf i := by
    intro i hi
    rw [childrenOf, cell?, List.getElem?_eq_getElem hi]
  refine List.nodup_flatMap.mpr ⟨fun c hc => ?_, List.pairwise_iff_getElem.mpr ?_⟩
  · obtain ⟨i, hi, rfl⟩ := List.mem_iff_getElem.mp hc
    rw [hchildren]
    exact (h i).nodup
  · intro i j hi hj hij c hci hcj
    rw [hchildren] at hci hcj
    have hparents := ((h i).parent c hci).symm.trans ((h j).parent c hcj)
    exact Nat.ne_of_lt hij (Option.some.inj hparents)

/-- `x` is reached from `r` by child steps; the nodes on the way, `r` among them, are `up`, the last
one first. -/
inductive Descends (f : Forest) (r : NodeId) : List NodeId → NodeId → Prop where
  | here : Descends f r [] r
  | down {up : List NodeId} {p x : NodeId} : Descends f r up p → x ∈ f.childrenOf p →
      Descends f r (p :: up) x

theorem Descends.rises {r x : NodeId} {up : List NodeId} (h : f.Descends r up x) (hlinked : f.Linked)
    (hr : f.parentOf r = none) : f.Rises x up := by
  induction h with
  | here => exact .top hr
  | down _ hx ih => exact .step ((hlinked _).parent _ hx) ih

theorem Descends.getLast?_getD {r x : NodeId} {up : List NodeId} (h : f.Descends r up x) :
    up.getLast?.getD x = r := by
  induction h with
  | here => rfl
  | @down up p x _ _ ih =>
    cases up with
    | nil => exact ih
    | cons q up => rwa [List.getLast?_cons_cons]

/-- Parent links are right in every forest that comes about by calls that add different nodes which are
nobody's children, except those that the same assignment replaces: no node is in two places of the
child lists, every child has the node as parent whose list it is in, and from each node that
child steps lead to from a node without parent, the walk up goes the same way back. Whether an added
node is above the receiver does not matter. -/
theorem parents_of_history (h : f.History Fits) :
    (f.cells.flatMap Cell.children).Nodup ∧
    (∀ p, ∀ c ∈ f.childrenOf p, f.parentOf c = some p) ∧
    ∀ r up x, f.parentOf r = none → f.Descends r up x →
      f.depth? x = some up.length ∧ f.root? x = some r ∧ f.ancestors? x = some up := by
  have hlinked := linked_of_history h
  refine ⟨hlinked.nodup_children, fun p => (hlinked p).parent, fun r up x hr hdown => ?_⟩
  have hup := ancestors?_eq_some_iff.mpr (hdown.rises hlinked hr)
  exact ⟨by rw [depth?, hup]; rfl, by rw [root?, hup, Option.map_some, hdown.getLast?_getD], hup⟩

/-- A chain of three nodes under a new one, and one more that a failing assignment adopts before it
is inserted and changes places. -/
def sampleGrown : Forest :=
  let plain : Label := { cls := .of .node }
  let planted := (plant {} (.mk plain [.mk plain [.mk plain []]])).1
  let made := (planted.make plain [0]).1
  let spare := (made.plant (.mk plain [])).1
  let failed := (spare.apply 3 (.set 7 4)).1
  let inserted := (failed.apply 0 (.insert (-1) 4)).1
  (inserted.apply 0 (.setSlice { step := some (-1) } [4, 1])).1

theorem history_sampleGrown : sampleGrown.History Fits := by
  refine .step (.step (.step (.step (.make (.step .empty (.plant _)) ?_ ?_) (.plant _))
    (.apply ?_ ?_ ?_)) (.apply ?_ ?_ ?_)) (.apply ?_ ?_ ?_) <;> decide +kernel

theorem parents_sampleGrown : sampleGrown.depth? 2 = some 3 ∧ sampleGrown.root? 2 = some 3 ∧
    sampleGrown.ancestors? 2 = some [1, 0, 3] :=
  (parents_of_history history_sampleGrown).2.2 3 [1, 0, 3] 2 (by decide +kernel)
    (.down (.down (.down .here (by decide +kernel)) (by decide +kernel)) (by decide +kernel))

end Forest
end BlockMarkup
