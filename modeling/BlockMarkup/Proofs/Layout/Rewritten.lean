import BlockMarkup.Proofs.Expression.Hung
import BlockMarkup.Proofs.Layout.Reread

/-!
# BlockMarkup.Proofs.Layout.Rewritten

A node that was written and read back is written as before, by any formatter: settling a node changes
the order of children that are written apart, leaves out raw expressions, which are not written, and
puts expressions behind a margin that another layout takes away (`Placed.node_settle`). So the text of
root nodes, read back, is written as the root nodes are (`Placed.rewritten`).
-/

namespace BlockMarkup

open Text

namespace Node

/-- No kind is written in two places. -/
theorem eq_of_written (k : Kind) : ∀ i ∈ writtenKinds, ∀ j ∈ writtenKinds,
    k.isA i = true → k.isA j = true → i = j := by
  cases k <;> decide

/-- Arranging keeps the order of the children that are written in one place. -/
theorem filter_isA_arranged {j : Kind} (hj : j ∈ writtenKinds) (ns : List Node) :
    ((arranged ns).filter fun (n : Node) => n.isA j) =
      (ns.filter fun (n : Node) => n.isA j).filter isWritten := by
  have hdisjoint : ∀ k ∈ writtenKinds,
      ((ns.filter fun (n : Node) => n.isA k && n.isWritten).filter fun (n : Node) => n.isA j) =
        if k = j then (ns.filter fun (n : Node) => n.isA j).filter isWritten else [] := by
    intro k hk
    split
    · rename_i he
      subst he
      simp only [List.filter_filter]
      refine List.filter_congr fun n _ => ?_
      cases n.isA k <;> cases n.isWritten <;> rfl
    · rename_i hne
      simp only [List.filter_filter, List.filter_eq_nil_iff, Bool.and_eq_true]
      rintro n - ⟨hnj, hnk, -⟩
      exact hne (eq_of_written n.kind k hk j hj hnk hnj)
  unfold arranged
  rw [List.filter_flatMap, List.flatMap_congr hdisjoint]
  simp only [writtenKinds, List.mem_cons, List.not_mem_nil, or_false] at hj
  rcases hj with rfl | rfl | rfl | rfl | rfl | rfl | rfl <;> simp [writtenKinds]

variable {f : Formatter} {depth : Int} {l l' : Label} {cs : List Node} {j : Kind}

theorem childrenOf_settled (hj : j ∈ writtenKinds) :
    childrenOf (.mk l' ((arranged cs).map (settle f depth))) j =
      ((childrenOf (.mk l cs) j).filter isWritten).map (settle f depth) := by
  have hfilter := filter_isA_arranged hj cs
  simp only [childrenOf, Tree.children]
  rw [← hfilter, List.filter_map]
  congr 1
  refine List.filter_congr fun c _ => ?_
  rw [Function.comp_apply, isA_settle]

/-- None of the children that raw expressions do not stand among is left out. -/
theorem childrenOf_settled_of_not_raw (hj : j ∈ writtenKinds)
    (hraw : Kind.rawExpression.isA j = false) :
    childrenOf (.mk l' ((arranged cs).map (settle f depth))) j =
      (childrenOf (.mk l cs) j).map (settle f depth) := by
  rw [childrenOf_settled (l := l) hj, List.filter_eq_self.mpr]
  intro c hc
  obtain ⟨-, hk⟩ := mem_childrenOf.mp hc
  by_contra hw
  have hkind : c.kind = .rawExpression := by simpa [isWritten] using hw
  have hisA : c.isA j = c.kind.isA j := rfl
  rw [hisA, hkind, hraw] at hk
  cases hk

end Node

theorem Placed.exists_kind {X : Heads} {m : Mode} {c : Node} (h : Placed X m c) :
    ∃ k, c.cls = .of k := by
  cases h with
  | text hc _ _ | decoration hc _ _ | rawExpression hc _ | element hc _ _ _ _
  | component hc _ _ _ _ _ | key hc _ _ | attr _ _ hc _ | field _ _ hc _ | spread hc _ =>
    exact ⟨_, hc⟩

namespace Formatter

variable {X : Heads} {P : List Char → Prop} (f g : Formatter) (depth e : Int)

theorem value_settle {v : Node} (hg : g.renderer = .tidy) (h : IsString v ∨ IsExpression P v)
    (lead tail : List Char) :
    g.value depth lead tail (some (v.settle f e)) = g.value depth lead tail (some v) := by
  rcases h with ⟨b, hc, hb, hleaf, -⟩ | ⟨s, hc, hs, hleaf, -⟩
  · rw [settle_string hc hb hleaf, g.value_of_string depth hc hb]
    exact g.value_of_string depth rfl rfl lead tail
  · rw [settle_expression hc hs hleaf, g.value_of_expression depth hg hc hs,
      g.value_of_expression depth hg rfl rfl,
      tidy_hung (f.blank_margin (e - 1)) (f.feed_not_mem_margin (e - 1))]

theorem isValue_settle {v : Node} (h : IsString v ∨ IsExpression P v) :
    IsString (v.settle f e) ∨ IsExpression (fun _ => True) (v.settle f e) := by
  rcases h with ⟨b, hc, hb, hleaf, hq⟩ | ⟨s, hc, hs, hleaf, -⟩
  · rw [settle_string hc hb hleaf]
    exact .inl ⟨b, rfl, rfl, rfl, hq⟩
  · rw [settle_expression hc hs hleaf]
    exact .inr ⟨_, rfl, rfl, rfl, trivial⟩

/-- A name with its value is written as before. -/
theorem nameValue_settle {l : Label} {p : List Char} {v : Node} {k : Kind} (hg : g.renderer = .tidy)
    (hc : l.cls = .of k) (hk : k.isA .textual = true) (hne : k ≠ .expression) (hp : l.head = some p)
    (hv : IsString v ∨ IsExpression P v) :
    g.nameValue depth (Node.settle f e (.mk l [v])) = g.nameValue depth (.mk l [v]) := by
  have hhead : Node.head (.mk l [v]) = some p := hp
  have hhead' : Node.head (.mk { cls := .of k, head := some p } [v.settle f (e + 1)]) = some p := rfl
  rw [f.settle_nameValue e hc hk hne hp hv, nameValue, nameValue, hhead, hhead',
    value?_of_isValue hv, value?_of_isValue (f.isValue_settle (e + 1) hv)]
  exact f.value_settle g depth (e + 1) hg hv _ _

theorem keyLine_settle {c : Node} (h : Placed X .element c) (hk : c.isA .key = true)
    (hasAttributes : Bool) :
    g.keyLine depth hasAttributes (c.settle f e) = g.keyLine depth hasAttributes c := by
  obtain ⟨l, b, rfl, hc, hb, -⟩ := h.inv_key hk
  have hhead : Node.head (Node.settle f e (.mk l [])) = Node.head (.mk l []) := by
    rw [Node.settle_leaf]
    show (Node.settledLabel f e l).head = l.head
    rw [Node.settledLabel, Label.isA, hc]
    rfl
  rw [keyLine, keyLine, hhead]

theorem attributeLines_settle {c : Node} (hg : g.renderer = .tidy) (h : Placed X .element c)
    (hk : c.isA .attribute = true) (hquoted : ¬ c.HasQuotedName) :
    g.attributeLines depth (c.settle f e) = g.attributeLines depth c := by
  obtain ⟨l, p, v, rfl, hp, hname, hc, hv⟩ := h.inv_attr hk
  have hname' := isName_of_not_hasQuotedName hc hname hquoted
  have hcls : Node.cls (.mk l [v]) = l.cls := rfl
  have hvalue := fun hk hne => f.nameValue_settle g depth e hg hc hk hne hp (hv.imp_left And.left)
  rw [attributeLines, attributeLines, Node.cls_settle, hcls, hc]
  rcases not_quoted_of_attributeKind hname' (v.kind = .string) with hk | hk | hk <;>
    (rw [hk] at hvalue ⊢; exact hvalue rfl nofun)

theorem fieldLines_settle {c : Node} (hg : g.renderer = .tidy) (h : Placed X .component c)
    (hk : c.isA .field = true) : g.fieldLines depth (c.settle f e) = g.fieldLines depth c := by
  obtain ⟨l, p, v, rfl, hp, hname, hc, hv⟩ := h.inv_field hk
  obtain ⟨htextual, hne⟩ := isA_textual_fieldKind p (v.kind = .string)
  have hcls : Node.cls (.mk l [v]) = l.cls := rfl
  have hvalue := f.nameValue_settle g depth e hg hc htextual hne hp hv
  rw [fieldLines, fieldLines, Node.cls_settle, hcls, hc]
  rcases fieldKind_cases p (v.kind = .string) with hk | hk | hk <;> (rw [hk]; exact hvalue)

theorem spreadLines_settle {c : Node} (hg : g.renderer = .tidy) (h : Placed X .component c)
    (hk : c.isA .spread = true) : g.spreadLines depth (c.settle f e) = g.spreadLines depth c := by
  obtain ⟨l, x, rfl, hc, hx⟩ := h.inv_spread hk
  have hx' := (f.isValue_settle (e + 1) (P := X.spread) (.inr hx)).resolve_left fun hs => by
    have hkind := kind_of_isString hs
    rw [Node.kind_settle, kind_of_isExpression hx] at hkind
    cases hkind
  rw [Node.settle_mk, Node.arranged_map_settle, arranged_value (.inr hx), List.map_singleton,
    spreadLines, spreadLines, expression?_of_isExpression hx, expression?_of_isExpression hx']
  exact f.value_settle g depth (e + 1) hg (.inr hx) _ _

/-- A node that is not written is a raw expression. -/
theorem node_of_not_isWritten {n : Node} {k : Kind} (hc : n.cls = .of k)
    (hn : n.isWritten = false) : g.node depth n = .empty := by
  obtain ⟨l, cs⟩ := n
  rw [isWritten_of_cls hc, decide_eq_false_iff_not, not_not] at hn
  have hl : l.cls = .of .rawExpression := hn ▸ hc
  unfold node
  rw [hl]
  rfl

/-- Children in front of a body are written as before. -/
theorem map_childrenOf_settle {a : Node → Script} {l r : Label} {cs : List Node} {j : Kind}
    (hj : j ∈ Node.writtenKinds) (hraw : Kind.rawExpression.isA j = false)
    (h : ∀ c : Node, c ∈ cs → c.isA j = true → a (c.settle f e) = a c) :
    (Node.childrenOf (.mk r ((Node.arranged cs).map (Node.settle f e))) j).map a =
      (Node.childrenOf (.mk l cs) j).map a := by
  rw [Node.childrenOf_settled_of_not_raw (l := l) hj hraw, List.map_map]
  refine List.map_congr_left fun c hc => ?_
  obtain ⟨hm, hk⟩ := Node.mem_childrenOf.mp hc
  exact h c hm hk

/-- A body without its raw expressions is written as before. -/
theorem concat_settle {a : Node → Script} {cs : List Node}
    (h : ∀ c : Node, c ∈ cs →
      a (c.settle f e) = a c ∧ (c.isWritten = false → a c = .empty)) :
    Script.concat (((cs.filter Node.isWritten).map (Node.settle f e)).map a) =
      Script.concat (cs.map a) := by
  induction cs with
  | nil => rfl
  | cons c cs ih =>
    obtain ⟨⟨hc, hempty⟩, hcs⟩ := List.forall_mem_cons.mp h
    rw [List.map_cons, Script.concat, ← ih hcs]
    cases hw : c.isWritten with
    | true => rw [List.filter_cons_of_pos hw, List.map_cons, List.map_cons, Script.concat, hc]
    | false =>
      rw [List.filter_cons_of_neg (by rw [hw]; exact Bool.false_ne_true), hempty hw,
        Script.empty_append]

theorem concat_body_settle {m : Mode} {l r : Label} {cs : List Node}
    (hcs : ∀ c : Node, c ∈ cs → Placed X m c)
    (h : ∀ c : Node, c ∈ cs → c.isA .bodyNode = true →
      g.node depth (c.settle f e) = g.node depth c) :
    Script.concat ((Node.childrenOf (.mk r ((Node.arranged cs).map (Node.settle f e)))
        .bodyNode).map (g.node depth)) =
      Script.concat ((Node.childrenOf (.mk l cs) .bodyNode).map (g.node depth)) := by
  rw [Node.childrenOf_settled (l := l) (by decide)]
  refine f.concat_settle e fun c hc => ?_
  obtain ⟨hm, hb⟩ := Node.mem_childrenOf.mp hc
  obtain ⟨k, hk⟩ := (hcs c hm).exists_kind
  exact ⟨h c hm hb, g.node_of_not_isWritten depth hk⟩

end Formatter

/-- A body node that was written and read back is written as before. -/
theorem Placed.node_settle {X : Heads} {m : Mode} {n : Node} {g : Formatter} (f : Formatter)
    (h : Placed X m n) (hg : g.renderer = .tidy) :
    n.isA .bodyNode = true → ¬ n.HasQuotedName → ∀ depth e,
      g.node depth (n.settle f e) = g.node depth n := by
  induction h with
  | @text m l b hc hb _ =>
    intro _ _ depth e
    rw [Node.settle_leaf, Node.settledLabel, Label.isA, hc, hb]
    unfold Formatter.node
    rw [hc, hb]
    rfl
  | @decoration m l s hc hs _ =>
    intro _ _ depth e
    rw [Node.settle_leaf, Node.settledLabel, Label.isA, hc, hs]
    unfold Formatter.node
    rw [hc, hs]
    rfl
  | @rawExpression m l e hc _ =>
    intro _ _ depth e
    rw [Node.settle_mk]
    unfold Formatter.node
    rw [show (Node.settledLabel f _ l).cls = l.cls from rfl, hc]
    rfl
  | @element m l p cs hc hp htag hcs hkeys ih =>
    intro _ hquoted depth e
    have hquoted' : ∀ c ∈ cs, ¬ Node.HasQuotedName c := fun c hm hq =>
      hquoted (.of_mem hm hq)
    have hlabel : Node.settledLabel f e l = { cls := .of .element, head := some p } := by
      rw [Node.settledLabel, Label.isA, hc, hp]
      rfl
    have hroles : ∀ c : Node, c ∈ (Node.arranged cs).map (Node.settle f (e + 1)) →
        c.isA .key = true ∨ c.isA .attribute = true ∨ c.isA .bodyNode = true := by
      refine List.forall_mem_map.mpr fun c hm => ?_
      simp only [Node.isA_settle]
      exact (hcs c (Node.mem_of_mem_arranged hm)).role_in_element
    have hkeys' : (Node.childrenOf (.mk { cls := .of .element, head := some p }
        ((Node.arranged cs).map (Node.settle f (e + 1)))) .key).length ≤ 1 := by
      rw [Node.childrenOf_settled_of_not_raw (l := l) (by decide) rfl, List.length_map,
        Node.childrenOf, Tree.children, List.filter_congr fun c hm => (hcs c hm).isA_key_iff]
      exact hkeys
    have hkeyLines := fun hasAttributes => f.map_childrenOf_settle (e + 1) (l := l)
      (r := { cls := .of .element, head := some p }) (a := g.keyLine (depth + 1) hasAttributes)
      (j := .key) (by decide) rfl fun c hm hk =>
        f.keyLine_settle g (depth + 1) (e + 1) (hcs c hm) hk hasAttributes
    have hattributes := f.map_childrenOf_settle (e + 1) (l := l)
      (r := { cls := .of .element, head := some p }) (a := g.attributeLines (depth + 1))
      (j := .attribute) (by decide) rfl fun c hm hk =>
        f.attributeLines_settle g (depth + 1) (e + 1) hg (hcs c hm) hk (hquoted' c hm)
    have hbody := f.concat_body_settle g (depth + 1) (e + 1) (l := l)
      (r := { cls := .of .element, head := some p }) hcs
      fun c hm hb => ih c hm hb (hquoted' c hm) (depth + 1) (e + 1)
    rw [Node.settle_mk, Node.arranged_map_settle, hlabel,
      g.node_element_of_roles depth rfl rfl hroles hkeys', g.node_element depth hc hp hcs hkeys,
      hkeyLines, hattributes, hbody,
      Node.childrenOf_settled_of_not_raw (l := l) (by decide) rfl, List.isEmpty_map]
  | @component m l p cs hc hp hpath htag hcs _ ih =>
    intro _ hquoted depth e
    have hquoted' : ∀ c ∈ cs, ¬ Node.HasQuotedName c := fun c hm hq =>
      hquoted (.of_mem hm hq)
    have hlabel : Node.settledLabel f e l = { cls := .of .component, head := some p } := by
      rw [Node.settledLabel, Label.isA, hc, hp]
      rfl
    have hroles : ∀ c : Node, c ∈ (Node.arranged cs).map (Node.settle f (e + 1)) →
        c.isA .field = true ∨ c.isA .spread = true ∨ c.isA .bodyNode = true := by
      refine List.forall_mem_map.mpr fun c hm => ?_
      simp only [Node.isA_settle]
      exact (hcs c (Node.mem_of_mem_arranged hm)).role_in_component
    have hfields := f.map_childrenOf_settle (e + 1) (l := l)
      (r := { cls := .of .component, head := some p }) (a := g.fieldLines (depth + 1))
      (j := .field) (by decide) rfl fun c hm hk =>
        f.fieldLines_settle g (depth + 1) (e + 1) hg (hcs c hm) hk
    have hspreads := f.map_childrenOf_settle (e + 1) (l := l)
      (r := { cls := .of .component, head := some p }) (a := g.spreadLines (depth + 1))
      (j := .spread) (by decide) rfl fun c hm hk =>
        f.spreadLines_settle g (depth + 1) (e + 1) hg (hcs c hm) hk
    have hbody := f.concat_body_settle g (depth + 1) (e + 1) (l := l)
      (r := { cls := .of .component, head := some p }) hcs
      fun c hm hb => ih c hm hb (hquoted' c hm) (depth + 1) (e + 1)
    rw [Node.settle_mk, Node.arranged_map_settle, hlabel,
      g.node_component_of_roles depth rfl rfl hroles, g.node_component depth hc hp hcs,
      hfields, hspreads, hbody]
  | @key l b hc _ _ =>
    intro hb
    rw [Node.isA_of_cls (n := .mk l []) hc] at hb
    cases hb
  | attr _ _ hc _ =>
    intro hb
    rw [Placed.not_bodyNode_of_attr hc] at hb
    cases hb
  | field _ _ hc _ =>
    intro hb
    rw [Placed.not_bodyNode_of_field hc] at hb
    cases hb
  | @spread l e hc _ =>
    intro hb
    rw [Node.isA_of_cls (n := .mk l [e]) hc] at hb
    cases hb

/-- Placed root nodes without quoted names can be written, and what is written is read as root nodes
that any formatter writes as it writes the first ones. -/
theorem Placed.rewritten {X : Heads} {f g : Formatter} {ns : List Node} (hX : X.Readable f)
    (hf : f.renderer = .tidy) (hg : g.renderer = .tidy)
    (hns : ∀ n : Node, n ∈ ns → Placed X .root n)
    (hquoted : ∀ n : Node, n ∈ ns → ¬ n.HasQuotedName) :
    ∃ t d, (f.nodes ns).Writes t ∧ read false t = .ok d ∧ g.nodes d.children = g.nodes ns := by
  obtain ⟨t, hwrites, hread⟩ := Placed.reread hX hf hns hquoted
  obtain ⟨d, hd, -, hroots⟩ := hread false
  refine ⟨t, d, hwrites, hd, ?_⟩
  have hchildren : d.children = Node.settledRoots f ns := by
    rw [← hroots, children_of_read hd, List.map_map]
    exact List.map_congr_left fun n _ => n.forgetOrigin_forgetOrigin.symm
  rw [hchildren, Formatter.nodes, Node.settledRoots]
  refine f.concat_settle f.startIndent fun n hn => ?_
  have hbody := (hns n hn).isA_bodyNode
  obtain ⟨k, hk⟩ := (hns n hn).exists_kind
  exact ⟨(hns n hn).node_settle f hg hbody (hquoted n hn) _ _, g.node_of_not_isWritten _ hk⟩

end BlockMarkup
