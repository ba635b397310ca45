import BlockMarkup.Proofs.Forest.Linked

/-!
# BlockMarkup.Proofs.Forest.Loops

When walking up ends. A removed node keeps its parent, so the links up can hold more than the child
lists: a root that is put below a node once taken from it is above itself then
(`not_walksEnd_looped`). A change keeps all walks finite exactly where no added node is on the way
up from the receiver (`rooted_apply_iff`), and so do calls that see to this (`walksEnd_of_history`).
Below a root without parent, the child lists are enough to see to it (`KeepsForest.keepsBelow`).
-/

namespace BlockMarkup
namespace Forest

variable {f g : Forest} {i on : NodeId} {e : Edit} {ps : List NodeId}

/-- Every walk up ends: no node is above itself, and the questions that need the way up are answered. -/
structure WalksEnd (f : Forest) : Prop where
  not_return : ∀ i, ¬ Relation.TransGen f.Up i i
  ancestors : ∀ i, (f.ancestors? i).isSome
  root : ∀ i, (f.root? i).isSome
  depth : ∀ i, (f.depth? i).isSome

/-- Parents are nodes, and from every node the way up ends. -/
structure Rooted (f : Forest) : Prop where
  nodes : ∀ i p, f.parentOf i = some p → p < f.cells.length
  ends : ∀ i, ∃ ps, f.Rises i ps

theorem Rooted.lt_of_mem (h : f.Rooted) (hps : f.Rises i ps) : ∀ j ∈ ps, j < f.cells.length := by
  induction hps with
  | top _ => exact nofun
  | step hup _ ih => exact List.forall_mem_cons.mpr ⟨h.nodes _ _ hup, ih⟩

theorem Rooted.walksEnd (h : f.Rooted) : f.WalksEnd := by
  have hancestors : ∀ i, ∃ ps, f.ancestors? i = some ps := fun i =>
    (h.ends i).imp fun _ => ancestors?_eq_some_iff.mpr
  refine ⟨fun i => ?_, fun i => ?_, fun i => ?_, fun i => ?_⟩
  · obtain ⟨ps, hps⟩ := h.ends i
    exact hps.not_return
  all_goals obtain ⟨ps, hps⟩ := hancestors i
  · rw [hps]
    rfl
  · rw [root?, hps]
    rfl
  · rw [depth?, hps]
    rfl

/-! ## What one call does -/

/-- A way up on which no parent is changed stays. -/
theorem Rises.congr (h : f.Rises i ps) (hsame : ∀ j ∈ i :: ps, g.parentOf j = f.parentOf j) :
    g.Rises i ps := by
  induction h with
  | top hnone => exact .top ((hsame _ List.mem_cons_self).trans hnone)
  | step hup _ ih =>
    exact .step ((hsame _ List.mem_cons_self).trans hup)
      (ih fun j hj => hsame j (List.mem_cons_of_mem _ hj))

theorem rooted_congr (hlength : g.cells.length = f.cells.length)
    (hparent : ∀ j, g.parentOf j = f.parentOf j) (h : f.Rooted) : g.Rooted where
  nodes i p hp := by
    rw [hlength]
    exact h.nodes i p ((hparent i).symm.trans hp)
  ends i := (h.ends i).imp fun _ hps => hps.congr fun j _ => hparent j

theorem parentOf_apply (f : Forest) (on : NodeId) (e : Edit) (j : NodeId) :
    (f.apply on e).1.parentOf j = (f.adopt on e.added).parentOf j := by
  unfold apply
  dsimp only
  split
  · exact parentOf_setChildren _ _ _ _
  · rfl

theorem length_apply (f : Forest) (on : NodeId) (e : Edit) :
    (f.apply on e).1.cells.length = f.cells.length := by
  unfold apply
  dsimp only
  split
  · rw [setChildren, length_modify, length_adopt]
  · exact length_adopt _ _ _

/-- No added node is the receiver or above it by the links up. -/
def KeepsBelow (f : Forest) (on : NodeId) (e : Edit) : Prop :=
  ∀ n ∈ e.added, ¬ Relation.ReflTransGen f.Up on n

/-- Where the receiver has an answer to what is above it, that is what counts. -/
theorem keepsBelow_iff (h : f.ancestors? on = some ps) :
    f.KeepsBelow on e ↔ ∀ n ∈ e.added, n ∉ on :: ps := by
  have hrises := ancestors?_eq_some_iff.mp h
  refine forall₂_congr fun n _ => not_congr ?_
  rw [Relation.reflTransGen_iff_eq_or_transGen, List.mem_cons, hrises.mem_iff]

namespace Rooted

theorem empty : Rooted {} := ⟨nofun, fun _ => ⟨[], .top rfl⟩⟩

theorem plant (h : f.Rooted) (t : Node) : (f.plant t).1.Rooted := by
  obtain ⟨hroot, -, hgrown⟩ := grown_plant f t
  have hnew : ∀ i p, f.cells.length ≤ i → (f.plant t).1.parentOf i = some p →
      f.cells.length ≤ p ∧ p < i := by
    intro i p hi hp
    rcases Nat.eq_or_lt_of_le hi with rfl | hi
    · rw [hroot] at hp
      cases hp
    · exact (hgrown i hi (lt_of_parentOf hp)).2 p hp
  refine ⟨fun i p hp => ?_, fun i => ?_⟩
  · rcases Nat.lt_or_ge i f.cells.length with hi | hi
    · rw [parentOf_plant hi] at hp
      rw [length_plant]
      exact Nat.lt_add_right _ (h.nodes i p hp)
    · exact Nat.lt_trans (hnew i p hi hp).2 (lt_of_parentOf hp)
  · rcases Nat.lt_or_ge i f.cells.length with hi | hi
    · obtain ⟨ps, hps⟩ := h.ends i
      refine ⟨ps, hps.congr (List.forall_mem_cons.mpr ⟨parentOf_plant hi t, fun j hj => ?_⟩)⟩
      exact parentOf_plant (h.lt_of_mem hps j hj) t
    · -- In the new tree the numbers get smaller on the way up.
      induction i using Nat.strongRecOn with
      | ind i ih =>
        cases hp : (f.plant t).1.parentOf i with
        | none => exact ⟨[], .top hp⟩
        | some p =>
          obtain ⟨hle, hlt⟩ := hnew i p hi hp
          obtain ⟨ps, hps⟩ := ih p hlt hle
          exact ⟨p :: ps, .step hp hps⟩

theorem adopt {ns : List NodeId} (h : f.Rooted) (hon : on < f.cells.length)
    (hbelow : ∀ n ∈ ns, ¬ Relation.ReflTransGen f.Up on n) : (f.adopt on ns).Rooted := by
  have hparent := fun j => parentOf_adopt f on j ns
  obtain ⟨ps, hps⟩ := h.ends on
  have hreceiver : (f.adopt on ns).Rises on ps := by
    refine hps.congr fun j hj => ?_
    rw [hparent, if_neg fun hadded => hbelow j hadded.1 ?_]
    rcases List.mem_cons.mp hj with rfl | hj
    · exact .refl
    · exact (hps.mem_iff.mp hj).to_reflTransGen
  refine ⟨fun i p hp => ?_, fun i => ?_⟩
  · rw [length_adopt]
    rw [hparent] at hp
    split at hp
    · cases hp
      exact hon
    · exact h.nodes i p hp
  · obtain ⟨qs, hqs⟩ := h.ends i
    have hadded : ∀ {i : NodeId}, i ∈ ns ∧ i < f.cells.length →
        ∃ qs, (f.adopt on ns).Rises i qs := fun hi =>
      ⟨on :: ps, .step ((hparent _).trans (if_pos hi)) hreceiver⟩
    induction hqs with
    | @top i hnone =>
      by_cases hi : i ∈ ns ∧ i < f.cells.length
      · exact hadded hi
      · exact ⟨[], .top (by rw [hparent, if_neg hi, hnone])⟩
    | @step i p qs hup _ ih =>
      by_cases hi : i ∈ ns ∧ i < f.cells.length
      · exact hadded hi
      · obtain ⟨rs, hrs⟩ := ih
        exact ⟨p :: rs, .step ((hparent i).trans ((if_neg hi).trans hup)) hrs⟩

theorem apply (h : f.Rooted) (hon : on < f.cells.length) (hbelow : f.KeepsBelow on e) :
    (f.apply on e).1.Rooted :=
  rooted_congr ((length_apply f on e).trans (length_adopt _ _ _).symm) (parentOf_apply f on e)
    (h.adopt hon hbelow)

end Rooted

/-- On the way up from `on`, the first node that `on` adopts leads back to it. -/
theorem exists_adopted_above {ns : List NodeId} {n : NodeId} (hn : n ∈ ns)
    (hup : Relation.ReflTransGen f.Up on n) :
    ∃ m ∈ ns, Relation.ReflTransGen (f.adopt on ns).Up on m := by
  have hway : ∀ {j : NodeId}, Relation.ReflTransGen f.Up on j →
      (∃ m ∈ ns, Relation.ReflTransGen (f.adopt on ns).Up on m) ∨
        Relation.ReflTransGen (f.adopt on ns).Up on j := by
    intro j hj
    induction hj with
    | refl => exact .inr .refl
    | @tail j k _ hjk ih =>
      rcases ih with hm | hj
      · exact .inl hm
      · by_cases hmem : j ∈ ns
        · exact .inl ⟨j, hmem, hj⟩
        · refine .inr (hj.tail ?_)
          rw [Up, parentOf_adopt, if_neg fun hadded => hmem hadded.1, hjk]
  exact (hway hup).elim id fun hj => ⟨n, hn, hj⟩

/-- A change, even one that fails, keeps all walks up finite exactly where no node that it adds is the
receiver or above it. -/
theorem rooted_apply_iff (h : f.Rooted) (hon : on < f.cells.length)
    (hnodes : ∀ n ∈ e.added, n < f.cells.length) :
    (f.apply on e).1.Rooted ↔ f.KeepsBelow on e := by
  refine ⟨fun happly n hn hup => ?_, h.apply hon⟩
  have hadopt : (f.adopt on e.added).Rooted := rooted_congr
    ((length_adopt _ _ _).trans (length_apply f on e).symm) (fun j => (parentOf_apply f on e j).symm)
    happly
  obtain ⟨m, hm, hup⟩ := exists_adopted_above hn hup
  obtain ⟨ps, hps⟩ := hadopt.ends on
  have hback : (f.adopt on e.added).Up m on := by
    rw [Up, parentOf_adopt, if_pos ⟨hm, hnodes m hm⟩]
  exact hps.not_return (.tail' hup hback)

theorem Rooted.remove (h : f.Rooted) (cs : List NodeId) : (f.setChildren on cs).Rooted :=
  rooted_congr (length_modify _ _ _) (fun _ => parentOf_setChildren _ _ _ _) h

theorem rooted_of_history (h : f.History KeepsBelow) : f.Rooted :=
  h.invariant .empty fun hrooted hstep => by
    cases hstep with
    | plant t => exact hrooted.plant t
    | apply hon _ hbelow => exact hrooted.apply hon hbelow
    | remove _ => exact hrooted.remove _

/-- Where no call adds a node that is the receiver or above it by the links up, every walk up ends. -/
theorem walksEnd_of_history (h : f.History KeepsBelow) : f.WalksEnd := (rooted_of_history h).walksEnd

/-- Three nodes below one another, of which the lower two change places. -/
def sampleTurned : Forest :=
  let plain : Label := { cls := .of .node }
  let planted := (plant {} (.mk plain [.mk plain [.mk plain []]])).1
  let taken := (planted.apply 1 (.delete 0)).1
  let put := (taken.apply 0 (.append 2)).1
  let taken := (put.apply 0 (.remove 1)).1
  (taken.apply 2 (.append 1)).1

theorem history_sampleTurned : sampleTurned.History KeepsBelow := by
  have hkeeps : ∀ {f : Forest} {on : NodeId} {e : Edit} (ps : List NodeId),
      f.ancestors? on = some ps → (∀ n ∈ e.added, n ∉ on :: ps) → f.KeepsBelow on e :=
    fun _ h => (keepsBelow_iff h).mpr
  refine .step (.step (.step (.step (.step .empty (.plant _)) (.apply ?_ ?_ (hkeeps [0] ?_ ?_)))
    (.apply ?_ ?_ (hkeeps [] ?_ ?_))) (.apply ?_ ?_ (hkeeps [] ?_ ?_)))
    (.apply ?_ ?_ (hkeeps [0] ?_ ?_)) <;> decide +kernel

theorem walksEnd_sampleTurned : sampleTurned.WalksEnd := walksEnd_of_history history_sampleTurned

/-! ## A removed node keeps its parent -/

/-- In the child lists, `c` is below `p`. -/
def Down (f : Forest) (p c : NodeId) : Prop := c ∈ f.childrenOf p

/-- No added node is a child, or is the receiver, or is above it by the child lists. -/
def KeepsForest (f : Forest) (on : NodeId) (e : Edit) : Prop :=
  ∀ n ∈ e.added, (∀ p, n ∉ f.childrenOf p) ∧ ¬ Relation.ReflTransGen f.Down n on

theorem Descends.down_of_mem {r x n : NodeId} {up : List NodeId} (h : f.Descends r up x)
    (hn : n ∈ up) : Relation.ReflTransGen f.Down n x := by
  induction h with
  | here => cases hn
  | down _ hx ih =>
    rcases List.mem_cons.mp hn with rfl | hn
    · exact .single hx
    · exact (ih hn).tail hx

/-- Where the root above the receiver has no parent, what is above is above by the child lists. -/
theorem KeepsForest.keepsBelow {r : NodeId} {up : List NodeId} (hkeeps : f.KeepsForest on e)
    (hlinked : f.Linked) (hdown : f.Descends r up on) (hr : f.parentOf r = none) :
    f.KeepsBelow on e := by
  intro n hn hup
  refine (hkeeps n hn).2 ?_
  rcases Relation.reflTransGen_iff_eq_or_transGen.mp hup with rfl | hup
  · exact .refl
  · exact hdown.down_of_mem ((hdown.rises hlinked hr).mem_iff.mpr hup)

/-- A node whose only child was removed. -/
def parted : Forest :=
  let plain : Label := { cls := .of .node }
  ((plant {} (.mk plain [.mk plain []])).1.apply 0 (.delete 0)).1

/-- The node is put below the child that it had. -/
def looped : Forest := (parted.apply 1 (.append 0)).1

theorem childrenOf_parted (p : NodeId) : parted.childrenOf p = [] := by
  rcases Nat.lt_or_ge p 2 with hp | hp
  · have hboth : ∀ p < 2, parted.childrenOf p = [] := by decide +kernel
    exact hboth p hp
  · exact List.eq_nil_iff_forall_not_mem.mpr fun c hc =>
      absurd (lt_of_mem_childrenOf hc) (Nat.not_lt.mpr hp)

theorem history_parted : parted.History KeepsForest := by
  refine .step (.step .empty (.plant _)) (.apply ?_ ?_ fun n hn => ?_)
  · decide +kernel
  · exact List.forall_mem_nil _
  · exact absurd hn List.not_mem_nil

/-- No call on the way adds a child or a node that is above the receiver in the child lists, but in the
end each of the two nodes is above the other. -/
theorem not_walksEnd_looped : looped.History KeepsForest ∧
    Relation.TransGen looped.Up 0 0 ∧ looped.ancestors? 0 = none := by
  have hkeeps : parted.KeepsForest 1 (.append 0) := by
    intro n hn
    obtain rfl := List.mem_singleton.mp hn
    refine ⟨fun p => childrenOf_parted p ▸ List.not_mem_nil, fun hdown => ?_⟩
    rcases hdown.cases_head with heq | ⟨c, hc, -⟩
    · cases heq
    · rw [Down, childrenOf_parted] at hc
      cases hc
  have hup : looped.Up 0 1 ∧ looped.Up 1 0 := by
    unfold Up
    decide +kernel
  refine ⟨?_, .tail (.single hup.1) hup.2, by decide +kernel⟩
  exact .step history_parted (.apply (by decide +kernel) (by decide +kernel) hkeeps)

end Forest
end BlockMarkup
