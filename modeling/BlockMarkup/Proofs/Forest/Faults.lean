import BlockMarkup.Forest.Edit
import Mathlib.Data.List.Basic

/-!
# BlockMarkup.Proofs.Forest.Faults

Changes that fail. `Edit.Faulty` says which they are, by the places that they ask for
(`Edit.children_eq_error_iff`). A change that fails leaves all lists of children and all labels, and
changes the parent of those nodes only that it was to add, to the receiver (`frame_of_fault`). So it
changes nothing at all exactly where these nodes have the receiver as parent anyway
(`apply_eq_self_iff`).
-/

namespace BlockMarkup

/-- There is no place in front of the first element and none behind the last one. -/
theorem place?_eq_none_iff {n : Nat} {i : Int} : place? n i = none ↔ i < -n ∨ n ≤ i := by
  unfold place?
  dsimp only
  split <;> split <;> simp <;> omega

theorem Slice.replace?_eq_none_iff {α : Type} {s : Slice} {new xs : List α} :
    s.replace? new xs = none ↔ s.step.getD 1 ≠ 1 ∧
      (s.step.getD 1 = 0 ∨ (s.places xs.length (s.step.getD 1)).length ≠ new.length) := by
  unfold replace?
  dsimp only
  split
  · rename_i hone
    exact iff_of_false nofun fun h => h.1 hone
  · rename_i hone
    split
    · rename_i hzero
      exact iff_of_true rfl ⟨hone, .inl hzero⟩
    · rename_i hzero
      split
      · rename_i hlength
        exact iff_of_false nofun fun h => h.2.elim hzero fun hne => hne hlength
      · rename_i hlength
        exact iff_of_true rfl ⟨hone, .inr hlength⟩

namespace Edit

variable {cs : List NodeId} {e : Edit} {fault : EditFault}

/-- The changes of the list of children `cs` that fail: those at a place that the list does not have,
the removal of a node that is no child, and the assignment to a slice with a step other than one, if
the step is zero or the slice selects another number of places than there are nodes to put there. -/
inductive Faulty (cs : List NodeId) : Edit → EditFault → Prop where
  | set {i : Int} {n : NodeId} : i < -cs.length ∨ cs.length ≤ i → Faulty cs (.set i n) .index
  | setSlice {s : Slice} {ns : List NodeId} {step : Int} : s.step = some step → step ≠ 1 →
      step = 0 ∨ (s.places cs.length step).length ≠ ns.length → Faulty cs (.setSlice s ns) .value
  | delete {i : Int} : i < -cs.length ∨ cs.length ≤ i → Faulty cs (.delete i) .index
  | remove {n : NodeId} : n ∉ cs → Faulty cs (.remove n) .value

/-- A change fails exactly if it is faulty. -/
theorem children_eq_error_iff : e.children cs = .error fault ↔ Faulty cs e fault := by
  constructor
  · intro h
    cases e with
    | append | extend | insert | reverse | clear => cases h
    | set i n =>
      simp only [children] at h
      split at h
      · cases h
      · rename_i hplace
        cases h
        exact .set (place?_eq_none_iff.mp hplace)
    | setSlice s ns =>
      simp only [children] at h
      split at h
      · cases h
      · rename_i hreplace
        cases h
        obtain ⟨hone, hlength⟩ := Slice.replace?_eq_none_iff.mp hreplace
        cases hstep : s.step with
        | none => exact absurd (by rw [hstep]; rfl) hone
        | some step =>
          rw [hstep] at hone hlength
          exact .setSlice hstep hone hlength
    | delete i =>
      simp only [children] at h
      split at h
      · cases h
      · rename_i hplace
        cases h
        exact .delete (place?_eq_none_iff.mp hplace)
    | remove n =>
      simp only [children] at h
      split at h
      · cases h
      · rename_i hcontains
        cases h
        exact .remove fun hn => hcontains (List.contains_iff_mem.mpr hn)
  · intro h
    cases h with
    | set hi => simp only [children, place?_eq_none_iff.mpr hi]
    | @setSlice s ns step hstep hone hlength =>
      have hnone : s.replace? ns cs = none := by
        rw [Slice.replace?_eq_none_iff, hstep]
        exact ⟨hone, hlength⟩
      simp only [children, hnone]
    | delete hi => simp only [children, place?_eq_none_iff.mpr hi]
    | remove hn => rw [children, if_neg fun hc => hn (List.contains_iff_mem.mp hc)]

end Edit

namespace Forest

variable {f : Forest} {on : NodeId} {e : Edit} {fault : EditFault}

theorem labelOf_setParent (f : Forest) (i j : NodeId) (p : Option NodeId) :
    (f.setParent i p).labelOf j = f.labelOf j := by
  simp only [labelOf, setParent, cell?_modify]
  by_cases h : i = j
  · rw [if_pos h]
    cases f.cell? j <;> rfl
  · rw [if_neg h]

theorem labelOf_adopt (f : Forest) (p j : NodeId) (is : List NodeId) :
    (f.adopt p is).labelOf j = f.labelOf j := by
  induction is generalizing f with
  | nil => rfl
  | cons i is ih => rw [adopt, ih, labelOf_setParent]

/-- To be given the parent that it has changes nothing for a node. -/
theorem setParent_eq_self {i p : NodeId} (h : i < f.cells.length → f.parentOf i = some p) :
    f.setParent i (some p) = f := by
  obtain ⟨cells⟩ := f
  rw [setParent, modify, Forest.mk.injEq]
  refine List.ext_getElem (List.length_modify _ _ _) fun j _ hj => ?_
  rw [List.getElem_modify]
  split
  · rename_i hij
    subst hij
    have hparent := h hj
    rw [parentOf, cell?, List.getElem?_eq_getElem hj] at hparent
    generalize cells[i] = c at hparent
    cases c
    cases hparent
    rfl
  · rfl

/-- Adopting nodes changes nothing exactly if they are nodes of the parent already. -/
theorem adopt_eq_self_iff {p : NodeId} {is : List NodeId} :
    f.adopt p is = f ↔ ∀ i ∈ is, i < f.cells.length → f.parentOf i = some p := by
  constructor
  · intro h i hi hlt
    rw [← h, parentOf_adopt, if_pos ⟨hi, hlt⟩]
  · intro h
    induction is with
    | nil => rfl
    | cons i is ih =>
      obtain ⟨hi, his⟩ := List.forall_mem_cons.mp h
      rw [adopt, setParent_eq_self hi, ih his]

theorem apply_of_fault (h : (f.apply on e).2 = some fault) :
    (f.apply on e).1 = f.adopt on e.added ∧ e.Faulty (f.childrenOf on) fault := by
  unfold apply at h ⊢
  dsimp only at h ⊢
  split at h
  · cases h
  · rename_i hchildren
    cases h
    exact ⟨rfl, Edit.children_eq_error_iff.mp hchildren⟩

/-- A change fails exactly if it is faulty for the children of the receiver. -/
theorem fault_iff : (f.apply on e).2 = some fault ↔ e.Faulty (f.childrenOf on) fault := by
  refine ⟨fun h => (apply_of_fault h).2, fun h => ?_⟩
  rw [apply, Edit.children_eq_error_iff.mpr h]

/-- A change that fails leaves all children and labels, and of the parents those of all nodes but the
ones it was to add: their parent is the receiver. -/
theorem frame_of_fault (h : (f.apply on e).2 = some fault) (j : NodeId) :
    (f.apply on e).1.childrenOf j = f.childrenOf j ∧ (f.apply on e).1.labelOf j = f.labelOf j ∧
      (f.apply on e).1.parentOf j =
        if j ∈ e.added ∧ j < f.cells.length then some on else f.parentOf j := by
  rw [(apply_of_fault h).1]
  exact ⟨childrenOf_adopt _ _ _ _, labelOf_adopt _ _ _ _, parentOf_adopt _ _ _ _⟩

/-- A change that fails changes nothing exactly if the receiver was the parent of all nodes that it was
to add. -/
theorem apply_eq_self_iff (h : (f.apply on e).2 = some fault) :
    (f.apply on e).1 = f ↔ ∀ n ∈ e.added, n < f.cells.length → f.parentOf n = some on := by
  rw [(apply_of_fault h).1, adopt_eq_self_iff]

/-- A node that is put at a place behind the last child has a new parent, although it is nobody's
child. -/
example :
    let plain : Node := .mk { cls := .of .node } []
    let f := ((plant {} plain).1.plant plain).1
    (f.apply 0 (.set 0 1)).2 = some .index ∧ (f.apply 0 (.set 0 1)).1.childrenOf 0 = [] ∧
      f.parentOf 1 = none ∧ (f.apply 0 (.set 0 1)).1.parentOf 1 = some 0 := by decide

end Forest
end BlockMarkup
