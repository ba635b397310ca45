import BlockMarkup.Proofs.Layout.Outcome
import BlockMarkup.Proofs.Layout.Refusal

/-!
# BlockMarkup.Proofs.Layout.Grammar

Which trees have a written form. `Node.Violates` says, without the formatter, that a node breaks the
grammar of written trees, itself or in a body below it. Whatever the classes of its nodes, a tree with
its heads is written as a text or refused for want of a written form, and the latter if and only if a
root breaks the grammar (`write_refuses_iff`).
-/

namespace BlockMarkup

open Text

/-- The exact classes of the nodes that may stand in a body. -/
def bodyClasses : List NodeClass :=
  [.of .element, .of .component, .of .text, .of .rawExpression, .of .decoration]

/-- The exact classes of the attributes that are written with a value. -/
def valuedAttributes : List NodeClass :=
  [.of .textAttribute, .of .expressionAttribute, .of .eventHandler]

/-- The exact classes of the fields of a component. -/
def fieldClasses : List NodeClass := [.of .expressionField, .of .formattedField, .of .handlerField]

namespace Node

/-- A child of one of the kinds. -/
def HasChild (ks : List Kind) (n : Node) : Prop := ∃ c : Node, c ∈ n.children ∧ c.isAny ks = true

/-- An attribute of another class than those of the grammar, or one that lacks its value. -/
def BadAttribute (a : Node) : Prop :=
  a.cls ∉ .of .metaAttribute :: valuedAttributes ∨
    a.cls ∈ valuedAttributes ∧ ¬ a.HasChild [.string, .expression]

/-- A field of another class than those of the grammar, or one that lacks its value. -/
def BadField (a : Node) : Prop := a.cls ∉ fieldClasses ∨ ¬ a.HasChild [.string, .expression]

/-- The node breaks the grammar of written trees, or a node in a body below it does. -/
inductive Violates : Node → Prop where
  | body {n : Node} : n.cls ∉ bodyClasses → Violates n
  | inElement {n c : Node} : n.cls = .of .element → c ∈ n.children →
      c.isAny [.key, .attribute, .bodyNode] = false → Violates n
  | secondKey {n : Node} : n.cls = .of .element → 1 < (n.childrenOf .key).length → Violates n
  | badAttribute {n a : Node} : n.cls = .of .element → a ∈ n.childrenOf .attribute →
      a.BadAttribute → Violates n
  | inComponent {n c : Node} : n.cls = .of .component → c ∈ n.children →
      c.isAny [.field, .spread, .bodyNode] = false → Violates n
  | badField {n a : Node} : n.cls = .of .component → a ∈ n.childrenOf .field → a.BadField → Violates n
  | badSpread {n a : Node} : n.cls = .of .component → a ∈ n.childrenOf .spread →
      ¬ a.HasChild [.expression] → Violates n
  | inner {n c : Node} : n.cls = .of .element ∨ n.cls = .of .component →
      c ∈ n.childrenOf .bodyNode → Violates c → Violates n

/-- What can be wrong with an element. -/
theorem violates_element_iff {n : Node} (hc : n.cls = .of .element) : n.Violates ↔
    (∃ c : Node, c ∈ n.children ∧ c.isAny [.key, .attribute, .bodyNode] = false) ∨
    1 < (n.childrenOf .key).length ∨ (∃ a ∈ n.childrenOf .attribute, a.BadAttribute) ∨
    ∃ c ∈ n.childrenOf .bodyNode, c.Violates := by
  constructor
  · intro h
    cases h with
    | body hbody => exact absurd (by rw [hc]; decide) hbody
    | inElement _ hm hk => exact .inl ⟨_, hm, hk⟩
    | secondKey _ hkeys => exact .inr (.inl hkeys)
    | badAttribute _ hm ha => exact .inr (.inr (.inl ⟨_, hm, ha⟩))
    | inner _ hm hv => exact .inr (.inr (.inr ⟨_, hm, hv⟩))
    | inComponent hc' | badField hc' | badSpread hc' =>
      rw [hc] at hc'
      cases hc'
  · rintro (⟨c, hm, hk⟩ | hkeys | ⟨a, hm, ha⟩ | ⟨c, hm, hv⟩)
    · exact .inElement hc hm hk
    · exact .secondKey hc hkeys
    · exact .badAttribute hc hm ha
    · exact .inner (.inl hc) hm hv

/-- What can be wrong with a component. -/
theorem violates_component_iff {n : Node} (hc : n.cls = .of .component) : n.Violates ↔
    (∃ c : Node, c ∈ n.children ∧ c.isAny [.field, .spread, .bodyNode] = false) ∨
    (∃ a ∈ n.childrenOf .field, a.BadField) ∨
    (∃ a ∈ n.childrenOf .spread, ¬ a.HasChild [.expression]) ∨
    ∃ c ∈ n.childrenOf .bodyNode, c.Violates := by
  constructor
  · intro h
    cases h with
    | body hbody => exact absurd (by rw [hc]; decide) hbody
    | inComponent _ hm hk => exact .inl ⟨_, hm, hk⟩
    | badField _ hm ha => exact .inr (.inl ⟨_, hm, ha⟩)
    | badSpread _ hm ha => exact .inr (.inr (.inl ⟨_, hm, ha⟩))
    | inner _ hm hv => exact .inr (.inr (.inr ⟨_, hm, hv⟩))
    | inElement hc' | secondKey hc' | badAttribute hc' =>
      rw [hc] at hc'
      cases hc'
  · rintro (⟨c, hm, hk⟩ | ⟨a, hm, ha⟩ | ⟨a, hm, ha⟩ | ⟨c, hm, hv⟩)
    · exact .inComponent hc hm hk
    · exact .badField hc hm ha
    · exact .badSpread hc hm ha
    · exact .inner (.inr hc) hm hv

/-- Nothing can be wrong with a node that is no block but its class. -/
theorem violates_iff_of_plain {n : Node} (he : n.cls ≠ .of .element) (hc : n.cls ≠ .of .component) :
    n.Violates ↔ n.cls ∉ bodyClasses := by
  refine ⟨fun h => ?_, .body⟩
  cases h with
  | body hbody => exact hbody
  | inElement hn | secondKey hn | badAttribute hn => exact absurd hn he
  | inComponent hn | badField hn | badSpread hn => exact absurd hn hc
  | inner hn => exact (hn.elim he hc).elim

/-- A child that is not there is not found, and one that is found has its head. -/
theorem child?_eq_none_iff {n : Node} {ks : List Kind} : n.child? ks = none ↔ ¬ n.HasChild ks := by
  simp [child?, HasChild]

end Node

/-- The renderer gives a text to every expression that has its head. -/
def Renderer.IsTotal (r : Renderer) : Prop :=
  ∀ v : Node, v.isA .expression = true → v.head.isSome = true → ∃ t, r.render v = .ok t

theorem Renderer.isTotal_ofHead (g : List Char → List Char) : (Renderer.ofHead g).IsTotal := by
  intro v _ hv
  obtain ⟨s, hs⟩ := Option.isSome_iff_exists.mp hv
  exact ⟨g s, by simp [ofHead, hs]⟩

namespace Formatter

open Script

variable {f : Formatter} {depth : Int}

theorem valueLines_fails (lead tail : List Char) (ls : List (List Char)) :
    (f.valueLines depth lead tail ls).FailsIff False := by
  cases ls with
  | nil => exact .of_writes .empty
  | cons first rest =>
    exact .of_writes ((((f.tabs_writes depth).append .write).append
      (f.furtherLines_writes depth _ _ _)).append .write)

/-- A value has no written form if and only if it is not there. -/
theorem value_fails (hr : f.renderer.IsTotal) {n : Node} (hn : n.HasHeads) {ks : List Kind}
    (hks : ks = [.string, .expression] ∨ ks = [.expression]) (lead tail : List Char) :
    (f.value depth lead tail (n.child? ks)).FailsIff (¬ n.HasChild ks) := by
  rw [← Node.child?_eq_none_iff]
  cases hv : n.child? ks with
  | none => exact FailsIff.unsupported.congr (by simp)
  | some v =>
    refine FailsIff.congr ?_ (iff_of_false not_false nofun)
    rw [value]
    split
    · exact valueLines_fails _ _ _
    · rename_i hstring
      have hany : v.isAny ks = true := List.find?_some (p := fun (c : Node) => c.isAny ks) hv
      have hexpression : v.isA .expression = true := by
        obtain ⟨k, hk, hvk⟩ := List.any_eq_true.mp hany
        have hkinds : k = .string ∨ k = .expression := by
          rcases hks with rfl | rfl
          · simpa using hk
          · exact .inr (by simpa using hk)
        rcases hkinds with rfl | rfl
        · exact absurd hvk hstring
        · exact hvk
      obtain ⟨s, hs⟩ := head_of_child? hn (by rcases hks with rfl | rfl <;> simp) hv
      obtain ⟨t, ht⟩ := hr v hexpression (by rw [hs]; rfl)
      simp only [Renderer.lines, ht]
      exact valueLines_fails _ _ _

theorem nameValue_fails (hr : f.renderer.IsTotal) {n : Node} (hn : n.HasHeads) {k : Kind}
    (hc : n.cls = .of k) (hk : k.isA .textual = true) :
    (f.nameValue depth n).FailsIff (¬ n.HasChild [.string, .expression]) := by
  obtain ⟨name, hname⟩ := hn.head_of_cls hc hk
  rw [nameValue, hname]
  exact value_fails hr hn (.inl rfl) _ _

/-- An attribute is written with its value, or not at all, or it has no written form. -/
theorem attributeLines_cases (f : Formatter) (depth : Int) (a : Node) :
    (a.cls ∈ valuedAttributes ∧ f.attributeLines depth a = f.nameValue depth a) ∨
    (a.cls = .of .metaAttribute ∧ f.attributeLines depth a = .empty) ∨
    (a.cls ∉ .of .metaAttribute :: valuedAttributes ∧
      ∃ u, f.attributeLines depth a = .unsupported u) := by
  have hvalued : ∀ {k}, a.cls = k → k ∈ valuedAttributes → a.cls ∈ valuedAttributes :=
    fun hc hk => hc ▸ hk
  unfold attributeLines
  split
  · rename_i hc
    exact .inl ⟨hvalued hc (by decide), rfl⟩
  · rename_i hc
    exact .inl ⟨hvalued hc (by decide), rfl⟩
  · rename_i hc
    exact .inl ⟨hvalued hc (by decide), rfl⟩
  · rename_i hc
    exact .inr (.inr ⟨by rw [hc]; decide, _, rfl⟩)
  · rename_i hc
    exact .inr (.inr ⟨by rw [hc]; decide, _, rfl⟩)
  · rename_i hc
    exact .inr (.inl ⟨hc, rfl⟩)
  · rename_i htext hexpression hhandler _ _ hmeta
    refine .inr (.inr ⟨?_, _, rfl⟩)
    simp only [valuedAttributes, List.mem_cons, List.not_mem_nil, or_false, not_or]
    exact ⟨hmeta, htext, hexpression, hhandler⟩

/-- A field is written with its value, or it has no written form. -/
theorem fieldLines_cases (f : Formatter) (depth : Int) (a : Node) :
    (a.cls ∈ fieldClasses ∧ f.fieldLines depth a = f.nameValue depth a) ∨
    (a.cls ∉ fieldClasses ∧ ∃ u, f.fieldLines depth a = .unsupported u) := by
  have hvalued : ∀ {k}, a.cls = k → k ∈ fieldClasses → a.cls ∈ fieldClasses :=
    fun hc hk => hc ▸ hk
  unfold fieldLines
  split
  · rename_i hc
    exact .inl ⟨hvalued hc (by decide), rfl⟩
  · rename_i hc
    exact .inl ⟨hvalued hc (by decide), rfl⟩
  · rename_i hc
    exact .inl ⟨hvalued hc (by decide), rfl⟩
  · rename_i hexpression hformatted hhandler
    refine .inr ⟨?_, _, rfl⟩
    simp only [fieldClasses, List.mem_cons, List.not_mem_nil, or_false, not_or]
    exact ⟨hexpression, hformatted, hhandler⟩

theorem attributeLines_fails (hr : f.renderer.IsTotal) {a : Node} (ha : a.HasHeads) :
    (f.attributeLines depth a).FailsIff a.BadAttribute := by
  rcases attributeLines_cases f depth a with ⟨hc, he⟩ | ⟨hc, he⟩ | ⟨hc, u, he⟩
  · obtain ⟨k, hk, htextual⟩ : ∃ k, a.cls = .of k ∧ k.isA .textual = true := by
      simp only [valuedAttributes, List.mem_cons, List.not_mem_nil, or_false] at hc
      rcases hc with hc | hc | hc <;> exact ⟨_, hc, rfl⟩
    rw [he]
    exact (nameValue_fails hr ha hk htextual).congr (by simp [Node.BadAttribute, hc])
  · rw [he]
    refine (FailsIff.of_writes .empty).congr (iff_of_false not_false ?_)
    rw [Node.BadAttribute, hc]
    rintro (h | ⟨h, -⟩)
    · exact h (by decide)
    · exact absurd h (by decide)
  · rw [he]
    exact FailsIff.unsupported.congr (iff_of_true trivial (.inl hc))

theorem fieldLines_fails (hr : f.renderer.IsTotal) {a : Node} (ha : a.HasHeads) :
    (f.fieldLines depth a).FailsIff a.BadField := by
  rcases fieldLines_cases f depth a with ⟨hc, he⟩ | ⟨hc, u, he⟩
  · obtain ⟨k, hk, htextual⟩ : ∃ k, a.cls = .of k ∧ k.isA .textual = true := by
      simp only [fieldClasses, List.mem_cons, List.not_mem_nil, or_false] at hc
      rcases hc with hc | hc | hc <;> exact ⟨_, hc, rfl⟩
    rw [he]
    exact (nameValue_fails hr ha hk htextual).congr (by simp [Node.BadField, hc])
  · rw [he]
    exact FailsIff.unsupported.congr (iff_of_true trivial (.inl hc))

theorem checkChildren_fails (n : Node) (kinds : List Kind) :
    (checkChildren n kinds).FailsIff (∃ c : Node, c ∈ n.children ∧ c.isAny kinds = false) := by
  unfold checkChildren
  split
  · rename_i c hc
    refine FailsIff.unsupported.congr (iff_of_true trivial ⟨c, List.mem_of_find?_eq_some hc, ?_⟩)
    simpa using List.find?_some hc
  · rename_i hnone
    refine (FailsIff.of_writes .empty).congr (iff_of_false not_false ?_)
    simpa using hnone

theorem checkKeys_fails (n : Node) : (checkKeys n).FailsIff (1 < (n.childrenOf .key).length) := by
  unfold checkKeys
  split
  · rename_i hkeys
    exact FailsIff.unsupported.congr (by simp [hkeys])
  · rename_i hkeys
    refine (FailsIff.of_writes .empty).congr (iff_of_false not_false ?_)
    rcases hk : n.childrenOf .key with _ | ⟨key, _ | ⟨second, more⟩⟩
    · simp
    · simp
    · exact absurd hk (hkeys key second more)

theorem keyLine_fails (hasAttributes : Bool) (n : Node) :
    (f.keyLine depth hasAttributes n).FailsIff False :=
  .of_writes (((f.tabs_writes depth).append .write).append .write)

/-- The children of a kind, each by a script of its own. -/
theorem childrenOf_fails {n : Node} {k : Kind} {g : Node → Script} {P : Node → Prop}
    (hn : n.HasHeads) (h : ∀ c : Node, c.HasHeads → (g c).FailsIff (P c)) :
    (Script.concat ((n.childrenOf k).map g)).FailsIff (∃ c ∈ n.childrenOf k, P c) :=
  .concat_map fun c hc => h c (hn.child (Node.mem_childrenOf.mp hc).1)

theorem headLine_fails {n : Node} (hname : ∃ s, n.head = some s) (tail : List Char) :
    (f.headLine depth n.head tail).FailsIff False := by
  obtain ⟨s, hs⟩ := hname
  rw [hs]
  exact .of_writes (f.headLine_writes depth s tail)

theorem elementHead_fails (hr : f.renderer.IsTotal) {n : Node} (hn : n.HasHeads)
    (hc : n.cls = .of .element) :
    (f.elementHead depth n).FailsIff (∃ a ∈ n.childrenOf .attribute, a.BadAttribute) := by
  have hkeys : (Script.concat ((n.childrenOf .key).map
      (f.keyLine (depth + 1) !(n.childrenOf .attribute).isEmpty))).FailsIff False :=
    (childrenOf_fails hn fun c _ => keyLine_fails _ c).congr (by simp)
  exact ((headLine_fails (hn.head_of_cls hc rfl) _).append_of_not hkeys).append_of_not
    (childrenOf_fails hn fun _ ha => attributeLines_fails hr ha)

theorem componentHead_fails (hr : f.renderer.IsTotal) {n : Node} (hn : n.HasHeads)
    (hc : n.cls = .of .component) : (f.componentHead depth n).FailsIff
      ((∃ a ∈ n.childrenOf .field, a.BadField) ∨
        ∃ a ∈ n.childrenOf .spread, ¬ a.HasChild [.expression]) :=
  ((headLine_fails (hn.head_of_cls hc rfl) _).append_of_not
    (childrenOf_fails hn fun _ ha => fieldLines_fails hr ha)).append
    (childrenOf_fails hn fun _ ha => value_fails hr ha (.inr rfl) _ _)

mutual

/-- A node with its heads has no written form if and only if it breaks the grammar. -/
theorem node_fails (hr : f.renderer.IsTotal) (depth : Int) :
    (n : Node) → n.HasHeads → (f.node depth n).FailsIff n.Violates
  | .mk l cs, hn => by
    have hbody := body_fails hr (depth + 1) cs (Node.hasHeads_mk_iff.mp hn).2
    have hplain : ∀ k, l.cls = .of k → k ≠ .element → k ≠ .component → .of k ∈ bodyClasses →
        ¬ Node.Violates (.mk l cs) := by
      intro k hc he hk hmem
      have hcls : Node.cls (.mk l cs) = .of k := hc
      rw [Node.violates_iff_of_plain (by simpa [hcls, NodeClass.of] using he)
        (by simpa [hcls, NodeClass.of] using hk), hcls]
      exact not_not_intro hmem
    unfold node
    simp only
    split
    · rename_i hc
      refine FailsIff.congr (.append_not (.append (.append (.append (checkChildren_fails _ _)
        (checkKeys_fails _)) (elementHead_fails hr hn hc)) hbody)
        (.of_writes (f.line_writes depth _))) ?_
      rw [Node.violates_element_iff (n := .mk l cs) hc, or_assoc, or_assoc]
      rfl
    · rename_i hc
      refine FailsIff.congr (.append_not (.append (.append (checkChildren_fails _ _)
        (componentHead_fails hr hn hc)) hbody) (.of_writes (f.line_writes depth _))) ?_
      rw [Node.violates_component_iff (n := .mk l cs) hc, or_assoc, or_assoc]
      rfl
    · rename_i hc
      exact (FailsIff.of_writes (f.line_writes depth _)).congr
        (iff_of_false not_false (hplain _ hc nofun nofun (by decide)))
    · rename_i hc
      exact (FailsIff.of_writes .empty).congr
        (iff_of_false not_false (hplain _ hc nofun nofun (by decide)))
    · rename_i hc
      exact (headLine_fails (hn.head_of_cls hc rfl) _).congr
        (iff_of_false not_false (hplain _ hc nofun nofun (by decide)))
    · rename_i helement hcomponent htext hraw hdecoration
      refine FailsIff.unsupported.congr (iff_of_true trivial (.body ?_))
      simp only [bodyClasses, List.mem_cons, List.not_mem_nil, or_false, not_or]
      exact ⟨helement, hcomponent, htext, hraw, hdecoration⟩

theorem body_fails (hr : f.renderer.IsTotal) (depth : Int) :
    (ns : List Node) → (∀ n : Node, n ∈ ns → n.HasHeads) → (f.body depth ns).FailsIff
      (∃ c ∈ ns.filter fun (n : Node) => n.isA .bodyNode, c.Violates)
  | [], _ => (FailsIff.of_writes .empty).congr (by simp)
  | .mk l cs :: ns, hns => by
    obtain ⟨hn, hns⟩ := List.forall_mem_cons.mp hns
    have hrest := body_fails hr depth ns hns
    have hisA : Node.isA (.mk l cs) .bodyNode = l.isA .bodyNode := rfl
    rw [body]
    split
    · rename_i hl
      rw [List.filter_cons_of_pos (by rw [hisA, hl])]
      exact ((node_fails hr depth (.mk l cs) hn).append hrest).congr (by simp)
    · rename_i hl
      rwa [List.filter_cons_of_neg (by rw [hisA]; exact hl)]

end

theorem hasHeads_of_mem_roots {n r : Node} (hn : n.HasHeads) (hr : r ∈ roots n) : r.HasHeads := by
  unfold roots at hr
  split at hr
  · exact hn.child hr
  · rw [List.mem_singleton.mp hr]
    exact hn

end Formatter

/-- Whatever the classes of its nodes: a tree that has its heads is written as a text if no root breaks
the grammar, and is refused for want of a written form if one does. -/
theorem write_refuses_iff {f : Formatter} (hr : f.renderer.IsTotal) {n : Node} (hn : n.HasHeads) :
    ((∃ t, f.write n = .ok t) ∧ ¬ ∃ r ∈ Formatter.roots n, r.Violates) ∨
      ((∃ u, f.write n = .error (.unsupported u)) ∧ ∃ r ∈ Formatter.roots n, r.Violates) :=
  Script.FailsIff.result_cases <| .concat_map fun _ hmem =>
    Formatter.node_fails hr f.startIndent _ (Formatter.hasHeads_of_mem_roots hn hmem)

/-- A document with an element in which only a node far down breaks the grammar: a field of a class
of its own, which is derived from one with a written form. -/
def sampleTree : Node :=
  Node.bare .document [Node.textual .element "a".toList
    [Node.textual .text "b".toList, Node.textual .key "c".toList,
      Node.textual .component "D".toList
        [.mk { cls := ⟨.formattedField, [⟨"x", "Sub"⟩]⟩, head := some "e".toList }
          [Node.textual .string "f".toList]]]]

theorem write_refuses_sampleTree : Renderer.tidy.IsTotal ∧ sampleTree.HasHeads ∧
    (((∃ t, Formatter.write {} sampleTree = .ok t) ∧
        ¬ ∃ r ∈ Formatter.roots sampleTree, r.Violates) ∨
      ((∃ u, Formatter.write {} sampleTree = .error (.unsupported u)) ∧
        ∃ r ∈ Formatter.roots sampleTree, r.Violates)) := by
  have hheads : sampleTree.HasHeads := by
    unfold Node.HasHeads
    decide
  exact ⟨Renderer.isTotal_ofHead _, hheads,
    write_refuses_iff (f := {}) (Renderer.isTotal_ofHead _) hheads⟩

end BlockMarkup
