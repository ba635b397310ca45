import BlockMarkup.Proofs.Layout.Grammar

/-!
# BlockMarkup.Proofs.Layout.Culprit

What is told of a tree that has no written form. `Node.Fault` refines `Node.Violates`: it says what is
wrong, and with which node. A run that ends for want of a written form tells a fault that the tree has
(`fault_of_write`). Each fault has a culprit in the tree, but for a value that is not there: then none is
told, neither the attribute, the field or the spread that lacks it (`Fault.culprit`). So in a tree where
nothing lacks its value a culprit is always told (`culprit_of_write`).
-/

namespace BlockMarkup

namespace Node

/-- What is wrong with an attribute. -/
inductive AttributeFault (a : Node) : Unsupported → Prop where
  | foreign : a.cls ∉ .of .metaAttribute :: valuedAttributes → AttributeFault a (.node a)
  | quotedName : a.cls = .of .customTextAttribute ∨ a.cls = .of .customExpressionAttribute →
      AttributeFault a (.quotedName a)
  | noValue : a.cls ∈ valuedAttributes → ¬ a.HasChild [.string, .expression] →
      AttributeFault a .noValue

/-- What is wrong with a field. -/
inductive FieldFault (a : Node) : Unsupported → Prop where
  | foreign : a.cls ∉ fieldClasses → FieldFault a (.node a)
  | noValue : a.cls ∈ fieldClasses → ¬ a.HasChild [.string, .expression] → FieldFault a .noValue

/-- What is wrong with a node, or with one in a body below it. -/
inductive Fault : Node → Unsupported → Prop where
  | body {n : Node} : n.cls ∉ bodyClasses → Fault n (.node n)
  | inElement {n c : Node} : n.cls = .of .element → c ∈ n.children →
      c.isAny [.key, .attribute, .bodyNode] = false → Fault n (.misplaced c n)
  | secondKey {n first second : Node} {more : List Node} : n.cls = .of .element →
      n.childrenOf .key = first :: second :: more → Fault n (.secondKey second n)
  | badAttribute {n a : Node} {u : Unsupported} : n.cls = .of .element →
      a ∈ n.childrenOf .attribute → a.AttributeFault u → Fault n u
  | inComponent {n c : Node} : n.cls = .of .component → c ∈ n.children →
      c.isAny [.field, .spread, .bodyNode] = false → Fault n (.misplaced c n)
  | badField {n a : Node} {u : Unsupported} : n.cls = .of .component → a ∈ n.childrenOf .field →
      a.FieldFault u → Fault n u
  | badSpread {n a : Node} : n.cls = .of .component → a ∈ n.childrenOf .spread →
      ¬ a.HasChild [.expression] → Fault n .noValue
  | inner {n c : Node} {u : Unsupported} : n.cls = .of .element ∨ n.cls = .of .component →
      c ∈ n.childrenOf .bodyNode → Fault c u → Fault n u

variable {n a : Node} {u : Unsupported}

theorem AttributeFault.bad (h : a.AttributeFault u) : a.BadAttribute := by
  cases h with
  | foreign hc => exact .inl hc
  | quotedName hc =>
    refine .inl ?_
    rcases hc with hc | hc <;> rw [hc] <;> decide
  | noValue hc hvalue => exact .inr ⟨hc, hvalue⟩

theorem FieldFault.bad (h : a.FieldFault u) : a.BadField := by
  cases h with
  | foreign hc => exact .inl hc
  | noValue _ hvalue => exact .inr hvalue

/-- A tree with a fault breaks the grammar. -/
theorem Fault.violates (h : n.Fault u) : n.Violates := by
  induction h with
  | body hc => exact .body hc
  | inElement hc hm hkind => exact .inElement hc hm hkind
  | secondKey hc hkeys => exact .secondKey hc (by rw [hkeys]; exact Nat.succ_lt_succ (Nat.succ_pos _))
  | badAttribute hc hm ha => exact .badAttribute hc hm ha.bad
  | inComponent hc hm hkind => exact .inComponent hc hm hkind
  | badField hc hm ha => exact .badField hc hm ha.bad
  | badSpread hc hm hvalue => exact .badSpread hc hm hvalue
  | inner hc hm _ ih => exact .inner hc hm ih

/-- The node is to be written with a value, but has none. -/
def LacksValue (a : Node) : Prop :=
  (a.cls ∈ valuedAttributes ++ fieldClasses ∧ ¬ a.HasChild [.string, .expression]) ∨
    (a.isA .spread = true ∧ ¬ a.HasChild [.expression])

/-- A node of the tree is the culprit, or a value is missing in it and there is no culprit. -/
def Accused (n : Node) (u : Unsupported) : Prop :=
  (∃ c ∈ n.subtrees, u.culprit? = some c) ∨
    (u = .noValue ∧ ∃ a : Node, a ∈ n.subtrees ∧ a.LacksValue)

theorem Accused.up {c : Node} (h : c.Accused u) (hc : c ∈ n.children) : n.Accused u :=
  have hbelow := Tree.mem_subtrees_of_mem_children hc
  h.imp (fun ⟨d, hd, hu⟩ => ⟨d, Tree.subtrees_trans hd n hbelow, hu⟩)
    fun ⟨hu, a, ha, hlacks⟩ => ⟨hu, a, Tree.subtrees_trans ha n hbelow, hlacks⟩

theorem AttributeFault.culprit (h : a.AttributeFault u) : a.Accused u := by
  cases h with
  | foreign | quotedName => exact .inl ⟨a, a.mem_subtrees_self, rfl⟩
  | noValue hc hvalue =>
    exact .inr ⟨rfl, a, a.mem_subtrees_self, .inl ⟨List.mem_append_left _ hc, hvalue⟩⟩

theorem FieldFault.culprit (h : a.FieldFault u) : a.Accused u := by
  cases h with
  | foreign => exact .inl ⟨a, a.mem_subtrees_self, rfl⟩
  | noValue hc hvalue =>
    exact .inr ⟨rfl, a, a.mem_subtrees_self, .inl ⟨List.mem_append_right _ hc, hvalue⟩⟩

/-- Every fault has its culprit in the tree, but for a value that is not there. -/
theorem Fault.culprit (h : n.Fault u) : n.Accused u := by
  induction h with
  | @body n _ => exact .inl ⟨n, n.mem_subtrees_self, rfl⟩
  | @inElement n c _ hm _ => exact .inl ⟨c, Tree.mem_subtrees_of_mem_children hm, rfl⟩
  | @secondKey n first second more _ hkeys =>
    have hm : second ∈ n.childrenOf .key := by simp [hkeys]
    exact .inl ⟨second, Tree.mem_subtrees_of_mem_children (mem_childrenOf.mp hm).1, rfl⟩
  | badAttribute _ hm ha => exact ha.culprit.up (mem_childrenOf.mp hm).1
  | @inComponent n c _ hm _ => exact .inl ⟨c, Tree.mem_subtrees_of_mem_children hm, rfl⟩
  | badField _ hm ha => exact ha.culprit.up (mem_childrenOf.mp hm).1
  | @badSpread n a _ hm hvalue =>
    obtain ⟨hchild, hspread⟩ := mem_childrenOf.mp hm
    exact .inr ⟨rfl, a, Tree.mem_subtrees_of_mem_children hchild, .inr ⟨hspread, hvalue⟩⟩
  | inner _ hm _ ih => exact ih.up (mem_childrenOf.mp hm).1

end Node

namespace Script

/-- If the script ends for want of a written form, what it tells is as `P` says. -/
def Tells (s : Script) (P : Unsupported → Prop) : Prop :=
  ∀ u, s.failure = some (.unsupported u) → P u

namespace Tells

variable {a b s : Script} {P Q : Unsupported → Prop}

theorem empty : Script.empty.Tells P := nofun

theorem of_failsIff (h : s.FailsIff False) : s.Tells P :=
  fun _ hu => (h.fails.mp ⟨_, hu⟩).elim

theorem fail {e : Failure} (h : ∀ u, e ≠ .unsupported u) : (Script.fail e).Tells P :=
  fun u hu => absurd (Option.some.inj hu) (h u)

theorem unsupported {u : Unsupported} (hu : P u) : (Script.unsupported u).Tells P := by
  rintro v ⟨⟩
  exact hu

theorem imp (h : s.Tells P) (hPQ : ∀ u, P u → Q u) : s.Tells Q := fun u hu => hPQ u (h u hu)

theorem append (ha : a.Tells P) (hb : b.Tells P) : (a ++ b).Tells P := by
  intro u hu
  have happ : a ++ b = Script.append a b := rfl
  rw [happ, Script.append] at hu
  split at hu
  · exact ha u hu
  · exact hb u hu

theorem concat_map {α : Type} {g : α → Script} {xs : List α} (h : ∀ x ∈ xs, (g x).Tells P) :
    (concat (xs.map g)).Tells P := of_concat_map (P := (Tells · P)) empty append h

end Tells
end Script

namespace Formatter

open Script

variable (f : Formatter) (depth : Int) {n : Node}

theorem value_tells (n : Node) (ks : List Kind) (lead tail : List Char) :
    (f.value depth lead tail (n.child? ks)).Tells fun u => u = .noValue ∧ ¬ n.HasChild ks := by
  cases hv : n.child? ks with
  | none => exact .unsupported ⟨rfl, Node.child?_eq_none_iff.mp hv⟩
  | some v =>
    rw [value]
    split
    · exact .of_failsIff (valueLines_fails _ _ _)
    · split
      · exact .fail fun _ h => by cases h
      · exact .of_failsIff (valueLines_fails _ _ _)

theorem nameValue_tells (n : Node) : (f.nameValue depth n).Tells fun u =>
    u = .noValue ∧ ¬ n.HasChild [.string, .expression] := by
  unfold nameValue
  split
  · exact .fail fun _ h => by cases h
  · exact f.value_tells depth n _ _ _

theorem attributeLines_tells (a : Node) : (f.attributeLines depth a).Tells a.AttributeFault := by
  have hvalued : a.cls ∈ valuedAttributes → (f.nameValue depth a).Tells a.AttributeFault :=
    fun hc => (f.nameValue_tells depth a).imp fun u ⟨hu, hvalue⟩ => hu ▸ .noValue hc hvalue
  unfold attributeLines
  split
  · rename_i hc
    exact hvalued (by rw [hc]; decide)
  · rename_i hc
    exact hvalued (by rw [hc]; decide)
  · rename_i hc
    exact hvalued (by rw [hc]; decide)
  · rename_i hc
    exact .unsupported (.quotedName (.inl hc))
  · rename_i hc
    exact .unsupported (.quotedName (.inr hc))
  · exact .empty
  · rename_i htext hexpression hhandler _ _ hmeta
    refine .unsupported (.foreign ?_)
    simp only [valuedAttributes, List.mem_cons, List.not_mem_nil, or_false, not_or]
    exact ⟨hmeta, htext, hexpression, hhandler⟩

theorem fieldLines_tells (a : Node) : (f.fieldLines depth a).Tells a.FieldFault := by
  have hvalued : a.cls ∈ fieldClasses → (f.nameValue depth a).Tells a.FieldFault :=
    fun hc => (f.nameValue_tells depth a).imp fun u ⟨hu, hvalue⟩ => hu ▸ .noValue hc hvalue
  unfold fieldLines
  split
  · rename_i hc
    exact hvalued (by rw [hc]; decide)
  · rename_i hc
    exact hvalued (by rw [hc]; decide)
  · rename_i hc
    exact hvalued (by rw [hc]; decide)
  · rename_i hexpression hformatted hhandler
    refine .unsupported (.foreign ?_)
    simp only [fieldClasses, List.mem_cons, List.not_mem_nil, or_false, not_or]
    exact ⟨hexpression, hformatted, hhandler⟩

theorem checkChildren_tells (n : Node) (kinds : List Kind) : (checkChildren n kinds).Tells fun u =>
    ∃ c : Node, c ∈ n.children ∧ c.isAny kinds = false ∧ u = .misplaced c n := by
  unfold checkChildren
  split
  · rename_i c hc
    have hkind := List.find?_some hc
    exact .unsupported ⟨c, List.mem_of_find?_eq_some hc, by simpa using hkind, rfl⟩
  · exact .empty

theorem headLine_tells {P : Unsupported → Prop} (head : Option (List Char)) (tail : List Char) :
    (f.headLine depth head tail).Tells P := by
  cases head with
  | none =>
    exact .append (.of_failsIff (.of_writes (f.tabs_writes depth))) (.fail fun _ h => by cases h)
  | some s => exact .of_failsIff (.of_writes (f.headLine_writes depth s tail))

theorem line_tells {P : Unsupported → Prop} (text : List Char) : (f.line depth text).Tells P :=
  .of_failsIff (.of_writes (f.line_writes depth text))

theorem checkElement_tells (hc : n.cls = .of .element) :
    (checkChildren n [.key, .attribute, .bodyNode] ++ checkKeys n).Tells n.Fault := by
  refine ((checkChildren_tells n _).imp ?_).append ?_
  · rintro u ⟨c, hm, hkind, rfl⟩
    exact .inElement hc hm hkind
  · unfold checkKeys
    split
    · rename_i hkeys
      exact .unsupported (.secondKey hc hkeys)
    · exact .empty

theorem elementHead_tells (hc : n.cls = .of .element) : (f.elementHead depth n).Tells n.Fault :=
  ((f.headLine_tells depth _ _).append
    (.concat_map fun c _ => .of_failsIff (keyLine_fails _ c))).append
    (.concat_map fun a ha => (f.attributeLines_tells _ a).imp fun _ => .badAttribute hc ha)

theorem checkComponent_tells (hc : n.cls = .of .component) :
    (checkChildren n [.field, .spread, .bodyNode]).Tells n.Fault := by
  refine (checkChildren_tells n _).imp ?_
  rintro u ⟨c, hm, hkind, rfl⟩
  exact .inComponent hc hm hkind

theorem componentHead_tells (hc : n.cls = .of .component) :
    (f.componentHead depth n).Tells n.Fault :=
  ((f.headLine_tells depth _ _).append
    (.concat_map fun a ha => (f.fieldLines_tells _ a).imp fun _ => .badField hc ha)).append
    (.concat_map fun a ha => (f.value_tells _ a _ _ _).imp fun _ ⟨hu, hvalue⟩ =>
      hu ▸ .badSpread hc ha hvalue)

mutual

/-- A node that has no written form tells a fault that it has. -/
theorem node_tells (depth : Int) : (n : Node) → (f.node depth n).Tells n.Fault
  | .mk l cs => by
    have hbody := body_tells (depth + 1) cs
    have hinner : Node.cls (.mk l cs) = .of .element ∨ Node.cls (.mk l cs) = .of .component →
        (f.body (depth + 1) cs).Tells (Node.Fault (.mk l cs)) := by
      refine fun hc => hbody.imp ?_
      rintro u ⟨c, hm, hfault⟩
      exact .inner hc hm hfault
    unfold node
    simp only
    split
    · rename_i hc
      have hc : Node.cls (.mk l cs) = .of .element := hc
      exact (((checkElement_tells hc).append (f.elementHead_tells depth hc)).append
        (hinner (.inl hc))).append (f.line_tells depth _)
    · rename_i hc
      have hc : Node.cls (.mk l cs) = .of .component := hc
      exact (((checkComponent_tells hc).append (f.componentHead_tells depth hc)).append
        (hinner (.inr hc))).append (f.line_tells depth _)
    · exact f.line_tells depth _
    · exact .empty
    · exact f.headLine_tells depth _ _
    · rename_i helement hcomponent htext hraw hdecoration
      refine .unsupported (.body ?_)
      simp only [bodyClasses, List.mem_cons, List.not_mem_nil, or_false, not_or]
      exact ⟨helement, hcomponent, htext, hraw, hdecoration⟩

theorem body_tells (depth : Int) : (ns : List Node) → (f.body depth ns).Tells fun u =>
    ∃ c ∈ ns.filter fun (n : Node) => n.isA .bodyNode, c.Fault u
  | [] => .empty
  | .mk l cs :: ns => by
    have hnode := node_tells depth (.mk l cs)
    have hrest := body_tells depth ns
    have hisA : Node.isA (.mk l cs) .bodyNode = l.isA .bodyNode := rfl
    rw [body]
    split
    · rename_i hl
      rw [List.filter_cons_of_pos (by rw [hisA, hl])]
      exact (hnode.imp fun _ h => ⟨_, List.mem_cons_self, h⟩).append
        (hrest.imp fun _ ⟨c, hc, h⟩ => ⟨c, List.mem_cons_of_mem _ hc, h⟩)
    · rename_i hl
      rwa [List.filter_cons_of_neg (by rw [hisA]; exact hl)]

end

end Formatter

/-- If a tree has no written form, what is told of it is a fault of one of its roots. -/
theorem fault_of_write {f : Formatter} {n : Node} {u : Unsupported}
    (h : f.write n = .error (.unsupported u)) : ∃ r ∈ Formatter.roots n, r.Fault u := by
  have htells : (f.nodes (Formatter.roots n)).Tells fun u => ∃ r ∈ Formatter.roots n, r.Fault u :=
    .concat_map fun r hr => (f.node_tells f.startIndent r).imp fun _ hu => ⟨r, hr, hu⟩
  rw [Formatter.write, Script.result] at h
  split at h
  · rename_i hfailure
    cases h
    exact htells u hfailure
  · cases h

/-- If a tree has no written form, the culprit that is told is a node of it, or a value is missing and
none is told. -/
theorem accused_of_write {f : Formatter} {n : Node} {u : Unsupported}
    (h : f.write n = .error (.unsupported u)) : n.Accused u := by
  obtain ⟨r, hr, hfault⟩ := fault_of_write h
  unfold Formatter.roots at hr
  split at hr
  · exact hfault.culprit.up hr
  · rw [← List.mem_singleton.mp hr]
    exact hfault.culprit

/-- Where nothing lacks its value, a culprit is told. -/
theorem culprit_of_write {f : Formatter} {n : Node} {u : Unsupported}
    (h : f.write n = .error (.unsupported u)) (hvalues : ∀ a : Node, a ∈ n.subtrees → ¬ a.LacksValue) :
    ∃ c ∈ n.subtrees, u.culprit? = some c := by
  rcases accused_of_write h with hc | ⟨-, a, ha, hlacks⟩
  · exact hc
  · exact absurd hlacks (hvalues a ha)

-- An attribute without value is at fault, but it is not told.
example : Formatter.write {} (.textual .element "a".toList [.textual .textAttribute "b".toList]) =
      .error (.unsupported .noValue) ∧ Unsupported.culprit? .noValue = none := ⟨rfl, rfl⟩

end BlockMarkup
