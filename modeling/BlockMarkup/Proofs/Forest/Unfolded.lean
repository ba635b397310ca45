import BlockMarkup.Proofs.Document.Flawless
import BlockMarkup.Proofs.Forest.Loops

/-!
# BlockMarkup.Proofs.Forest.Unfolded

The tree of a node and the child lists. `Unfolded t` says that the tree `t` follows the child lists;
`shape?` gives such trees (`unfolded_of_shape?`), for the node and for all nodes below it
(`shape?_of_mem_subtrees`). The nodes of such a tree are those that child steps lead to, and where no
node has two places in the child lists of the tree, none is in it twice (`Unfolded.nodup_preorder`).
-/

namespace BlockMarkup

open Relation

namespace Tree

variable {α : Type}

mutual

/-- What holds of a tree where it holds of the trees below its root holds of all trees. -/
@[elab_as_elim]
theorem induct {P : Tree α → Prop} (mk : ∀ a ts, (∀ t ∈ ts, P t) → P (.mk a ts)) : ∀ t, P t
  | .mk a ts => mk a ts (inductAll mk ts)

theorem inductAll {P : Tree α → Prop} (mk : ∀ a ts, (∀ t ∈ ts, P t) → P (.mk a ts)) :
    ∀ ts : List (Tree α), ∀ t ∈ ts, P t
  | [] => nofun
  | t :: ts => List.forall_mem_cons.mpr ⟨induct mk t, inductAll mk ts⟩

end

theorem preorderAll_eq_flatMap (ts : List (Tree α)) : preorderAll ts = ts.flatMap preorder := by
  induction ts with
  | nil => rfl
  | cons t ts ih => rw [preorderAll, ih, List.flatMap_cons]

end Tree

theorem mapM_eq_some_iff {α β : Type} {g : α → Option β} {as : List α} {bs : List β} :
    as.mapM g = some bs ↔ List.Forall₂ (fun a b => g a = some b) as bs := by
  induction as generalizing bs with
  | nil => simp [eq_comm]
  | cons a as ih =>
    simp only [List.mapM_cons, Option.bind_eq_bind, Option.bind_eq_some_iff, Option.pure_def,
      Option.some.injEq, List.forall₂_cons_left_iff, ih]
    constructor
    · rintro ⟨b, hb, bs, hbs, rfl⟩
      exact ⟨b, bs, hb, hbs, rfl⟩
    · rintro ⟨b, bs, hb, hbs, rfl⟩
      exact ⟨b, hb, bs, hbs, rfl⟩

theorem exists_of_mem_mapM {α β : Type} {g : α → Option β} {as : List α} {bs : List β} {b : β}
    (h : as.mapM g = some bs) (hb : b ∈ bs) : ∃ a ∈ as, g a = some b := by
  induction mapM_eq_some_iff.mp h with
  | nil => cases hb
  | @cons a c as bs hc hcs ih =>
    rcases List.mem_cons.mp hb with rfl | hb
    · exact ⟨a, List.mem_cons_self, hc⟩
    · obtain ⟨a', ha', hb'⟩ := ih (mapM_eq_some_iff.mpr hcs) hb
      exact ⟨a', List.mem_cons_of_mem _ ha', hb'⟩

namespace Forest

variable {f : Forest} {i j : NodeId} {t u : Tree NodeId} {ts : List (Tree NodeId)} {fuel : Nat}

/-- The children of every node of the tree are the roots of the trees below it. -/
def Unfolded (f : Forest) (t : Tree NodeId) : Prop :=
  ∀ u ∈ t.subtrees, f.childrenOf u.label = u.children.map Tree.label

namespace Unfolded

theorem mk_iff : f.Unfolded (.mk i ts) ↔
    f.childrenOf i = ts.map Tree.label ∧ ∀ t ∈ ts, f.Unfolded t := by
  simp only [Unfolded, Tree.subtrees, List.forall_mem_cons, Tree.mem_subtreesAll,
    forall_exists_index, and_imp]
  exact and_congr_right fun _ => ⟨fun h t ht u hu => h u t ht hu, fun h u t ht hu => h t ht u hu⟩

theorem of_mem_subtrees (h : f.Unfolded t) (hu : u ∈ t.subtrees) : f.Unfolded u :=
  fun v hv => h v (Tree.subtrees_trans hv t hu)

end Unfolded

/-! ## Reading a tree -/

theorem unfolded_of_unfold (h : f.unfold fuel i = some t) : t.label = i ∧ f.Unfolded t := by
  induction fuel generalizing i t with
  | zero => cases h
  | succ fuel ih =>
    rw [unfold] at h
    split at h
    · cases h
    · rename_i ts hts
      cases h
      rw [Unfolded.mk_iff]
      generalize f.childrenOf i = cs at hts
      refine ⟨rfl, ?_⟩
      induction mapM_eq_some_iff.mp hts with
      | nil => exact ⟨rfl, List.forall_mem_nil _⟩
      | cons hc hcs ihs =>
        obtain ⟨rfl, hfirst⟩ := ih hc
        obtain ⟨hlabels, hrest⟩ := ihs (mapM_eq_some_iff.mpr hcs)
        exact ⟨by rw [List.map_cons, hlabels], List.forall_mem_cons.mpr ⟨hfirst, hrest⟩⟩

theorem unfolded_of_shape? (h : f.shape? i = some t) : t.label = i ∧ f.Unfolded t :=
  unfolded_of_unfold h

/-- More depth does not change the tree. -/
theorem unfold_succ (h : f.unfold fuel i = some t) : f.unfold (fuel + 1) i = some t := by
  induction fuel generalizing i t with
  | zero => cases h
  | succ fuel ih =>
    rw [unfold] at h ⊢
    split at h
    · cases h
    · rename_i ts hts
      rw [mapM_eq_some_iff.mpr ((mapM_eq_some_iff.mp hts).imp fun _ _ => ih)]
      exact h

/-- The trees below a node are those of the nodes below it. -/
theorem unfold_of_mem_subtrees (h : f.unfold fuel i = some t) (hu : u ∈ t.subtrees) :
    f.unfold fuel u.label = some u := by
  induction fuel generalizing i t with
  | zero => cases h
  | succ fuel ih =>
    have hlabel := (unfolded_of_unfold h).1
    rw [unfold] at h
    split at h
    · cases h
    · rename_i ts hts
      cases h
      rw [Tree.subtrees, List.mem_cons] at hu
      rcases hu with rfl | hu
      · rw [Tree.label, unfold, hts]
      · obtain ⟨t, ht, hu⟩ := Tree.mem_subtreesAll.mp hu
        obtain ⟨c, -, hc⟩ := exists_of_mem_mapM hts ht
        exact unfold_succ (ih hc hu)

theorem shape?_of_mem_subtrees (h : f.shape? i = some t) (hu : u ∈ t.subtrees) :
    f.shape? u.label = some u :=
  unfold_of_mem_subtrees h hu

/-! ## What is in a tree -/

namespace Unfolded

theorem mem_preorder_iff (h : f.Unfolded t) : j ∈ t.preorder ↔ ReflTransGen f.Down t.label j := by
  induction t using Tree.induct with
  | mk i ts ih =>
    obtain ⟨hlabels, hbelow⟩ := mk_iff.mp h
    rw [Tree.preorder, List.mem_cons, Tree.mem_preorderAll, ReflTransGen.cases_head_iff, Tree.label]
    simp only [Down, hlabels, List.mem_map, exists_exists_and_eq_and]
    exact or_congr eq_comm (exists_congr fun t => and_congr_right fun ht =>
      ih t ht (hbelow t ht))

theorem mem_preorderAll_iff (h : f.Unfolded t) :
    j ∈ Tree.preorderAll t.children ↔ TransGen f.Down t.label j := by
  obtain ⟨i, ts⟩ := t
  obtain ⟨hlabels, hbelow⟩ := mk_iff.mp h
  rw [Tree.children, Tree.mem_preorderAll, TransGen.head'_iff, Tree.label]
  simp only [Down, hlabels, List.mem_map, exists_exists_and_eq_and]
  exact exists_congr fun t => and_congr_right fun ht => (hbelow t ht).mem_preorder_iff

/-- No node of a tree is below itself. -/
theorem not_return (h : f.Unfolded t) : ¬ TransGen f.Down t.label t.label := by
  induction t using Tree.induct with
  | mk i ts ih =>
    obtain ⟨hlabels, hbelow⟩ := mk_iff.mp h
    intro hloop
    obtain ⟨c, hc, hback⟩ := TransGen.head'_iff.mp hloop
    rw [Down, Tree.label, hlabels] at hc
    obtain ⟨t, ht, rfl⟩ := List.mem_map.mp hc
    refine ih t ht (hbelow t ht) (TransGen.tail' hback ?_)
    rw [Down, Tree.label, hlabels]
    exact List.mem_map_of_mem ht

end Unfolded

/-- No node has two places in the child lists of the nodes of the tree. -/
structure Apart (f : Forest) (t : Tree NodeId) : Prop where
  nodup : ∀ p ∈ t.preorder, (f.childrenOf p).Nodup
  unique : ∀ p ∈ t.preorder, ∀ q ∈ t.preorder, ∀ c ∈ f.childrenOf p, c ∈ f.childrenOf q → p = q

theorem Apart.of_mem_subtrees (h : f.Apart t) (hu : u ∈ t.subtrees) : f.Apart u where
  nodup p hp := h.nodup p (Tree.preorder_of_mem_subtrees hp t hu)
  unique p hp q hq := h.unique p (Tree.preorder_of_mem_subtrees hp t hu) q
    (Tree.preorder_of_mem_subtrees hq t hu)

/-- Where children know their parent, no node has two places. -/
theorem Linked.apart (h : f.Linked) (t : Tree NodeId) : f.Apart t where
  nodup p _ := (h p).nodup
  unique p _ q _ c hp hq :=
    Option.some.inj (((h p).parent c hp).symm.trans ((h q).parent c hq))

/-- Of two nodes above a third one, one is above the other. -/
theorem Apart.above_or_above (hapart : f.Apart t) (h : f.Unfolded t) {a b : NodeId}
    (ha : a ∈ t.preorder) (hb : b ∈ t.preorder) (haj : ReflTransGen f.Down a j)
    (hbj : ReflTransGen f.Down b j) :
    ReflTransGen f.Down a b ∨ ReflTransGen f.Down b a := by
  induction haj with
  | refl => exact .inr hbj
  | @tail p c hap hpc ih =>
    rcases hbj.cases_tail with rfl | ⟨q, hbq, hqc⟩
    · exact .inl (hap.tail hpc)
    · have hmem : ∀ {a p : NodeId}, a ∈ t.preorder → ReflTransGen f.Down a p → p ∈ t.preorder :=
        fun ha hap => h.mem_preorder_iff.mpr ((h.mem_preorder_iff.mp ha).trans hap)
      obtain rfl := hapart.unique p (hmem ha hap) q (hmem hb hbq) c hpc hqc
      exact ih hbq

/-- A tree in which no node has two places lists each of its nodes once. -/
theorem Unfolded.nodup_preorder (h : f.Unfolded t) (hapart : f.Apart t) : t.preorder.Nodup := by
  induction t using Tree.induct with
  | mk i ts ih =>
    obtain ⟨hlabels, hbelow⟩ := mk_iff.mp h
    have hdown : ∀ t ∈ ts, f.Down i t.label := fun t ht => by
      rw [Down, hlabels]
      exact List.mem_map_of_mem ht
    have hmem : ∀ t ∈ ts, t.label ∈ (Tree.mk i ts).preorder := fun t ht =>
      h.mem_preorder_iff.mpr (.single (hdown t ht))
    -- One child below another one would have that child's way to it as a second place.
    have hchild : ∀ t ∈ ts, ∀ u ∈ ts, ReflTransGen f.Down t.label u.label → t.label = u.label := by
      intro t ht u hu hway
      by_contra hne
      obtain heq | ⟨q, hq, hlast⟩ := hway.cases_tail
      · exact hne heq.symm
      · have hqmem := h.mem_preorder_iff.mpr (.head (hdown t ht) hq)
        obtain rfl := hapart.unique q hqmem i List.mem_cons_self u.label hlast (hdown u hu)
        exact h.not_return (.head' (hdown t ht) hq)
    rw [Tree.preorder, Tree.preorderAll_eq_flatMap, List.nodup_cons, ← Tree.preorderAll_eq_flatMap]
    refine ⟨fun hi => h.not_return (h.mem_preorderAll_iff.mp hi), ?_⟩
    rw [Tree.preorderAll_eq_flatMap, List.nodup_flatMap]
    refine ⟨fun t ht => ih t ht (hbelow t ht) (hapart.of_mem_subtrees ?_), ?_⟩
    · exact Tree.mem_subtrees_of_mem_children ht
    · have hnodup := hapart.nodup i List.mem_cons_self
      rw [hlabels, List.Nodup, List.pairwise_map] at hnodup
      refine hnodup.imp_of_mem fun {t u} ht hu hne j hjt hju => hne ?_
      have hways := hapart.above_or_above h (hmem t ht) (hmem u hu)
        ((hbelow t ht).mem_preorder_iff.mp hjt) ((hbelow u hu).mem_preorder_iff.mp hju)
      exact hways.elim (hchild t ht u hu) fun hway => (hchild u hu t ht hway).symm

end Forest
end BlockMarkup
