import BlockMarkup.Proofs.Forest.Children
import Mathlib.Logic.Relation

/-!
# BlockMarkup.Proofs.Forest.History

The forests that come about. `Step` is one call: a new tree, a change of the children of a node that
`allows` permits, successful or not, or the removal of any of them. `History allows f` says that such
calls lead from the empty forest to `f`; `History.invariant` is the induction on them. A node that is
made of nodes that are there is a new node that is extended (`History.make`).
-/

namespace BlockMarkup
namespace Forest

/-- Makes a node of nodes that are there, as the constructor does. -/
def make (f : Forest) (l : Label) (children : List NodeId) : Forest × NodeId :=
  let (planted, i) := f.plant (.mk l [])
  ((planted.apply i (.extend children)).1, i)

/-- One call, with a condition on the nodes that it adds. -/
inductive Step (allows : Forest → NodeId → Edit → Prop) : Forest → Forest → Prop where
  | plant {f : Forest} (t : Node) : Step allows f (f.plant t).1
  | apply {f : Forest} {on : NodeId} {e : Edit} : on < f.cells.length →
      (∀ n ∈ e.added, n < f.cells.length) → allows f on e → Step allows f (f.apply on e).1
  | remove {f : Forest} {on : NodeId} {cs : List NodeId} : cs.Sublist (f.childrenOf on) →
      Step allows f (f.setChildren on cs)

/-- The forest is what some calls make of the empty one. -/
def History (allows : Forest → NodeId → Edit → Prop) (f : Forest) : Prop :=
  Relation.ReflTransGen (Step allows) {} f

namespace History

variable {allows : Forest → NodeId → Edit → Prop} {f g : Forest}

theorem empty : History allows {} := .refl

theorem step (h : History allows f) (hstep : Step allows f g) : History allows g := .tail h hstep

/-- What holds at first and is kept by every call holds always. -/
theorem invariant {P : Forest → Prop} (h : History allows f) (hempty : P {})
    (hstep : ∀ {f g : Forest}, P f → Step allows f g → P g) : P f := by
  induction h with
  | refl => exact hempty
  | tail _ hlast ih => exact hstep ih hlast

/-- Making a node of nodes that are there is two calls. -/
theorem make (h : History allows f) {l : Label} {cs : List NodeId} (hcs : ∀ c ∈ cs, c < f.cells.length)
    (hallows : allows (f.plant (.mk l [])).1 f.cells.length (.extend cs)) :
    History allows (f.make l cs).1 := by
  have hlength : (f.plant (.mk l [])).1.cells.length = f.cells.length + 1 := List.length_append
  refine (h.step (.plant _)).step (.apply ?_ (fun n hn => ?_) hallows)
  · rw [hlength]
    exact Nat.lt_succ_self _
  · rw [hlength]
    exact Nat.lt_succ_of_lt (hcs n hn)

end History
end Forest
end BlockMarkup
