import BlockMarkup.Proofs.Layout.Written

/-!
# BlockMarkup.Proofs.Layout.Outcome

How formatting placed nodes can end. `Script.FailsIff P` says that a script ends in a failure if and
only if `P` holds, and that this failure is for want of a written form. The script of a placed
node fails exactly if there is an attribute with a quoted name in it (`Placed.failsIff`).
-/

namespace BlockMarkup

open Text

/-- An attribute whose name is a string literal. -/
def Label.isQuotedName (l : Label) : Bool :=
  l.isA .customTextAttribute || l.isA .customExpressionAttribute

/-- There is an attribute with a quoted name, at any depth. -/
def Node.HasQuotedName (n : Node) : Prop := ∃ l ∈ n.preorder, l.isQuotedName = true

namespace Script

/-- The script fails if and only if `P` holds, and then for want of a written form. -/
structure FailsIff (s : Script) (P : Prop) : Prop where
  fails : (∃ f, s.failure = some f) ↔ P
  form : ∀ f, s.failure = some f → ∃ u, f = .unsupported u

namespace FailsIff

variable {s a b : Script} {P Q : Prop}

theorem of_writes {t : List Char} (h : s.Writes t) : s.FailsIff False :=
  ⟨by simp [h.failure], by simp [h.failure]⟩

theorem unsupported {u : Unsupported} : (Script.unsupported u).FailsIff True :=
  ⟨by simp [Script.unsupported, fail], by rintro f ⟨⟩; exact ⟨u, rfl⟩⟩

theorem congr (h : s.FailsIff P) (hPQ : P ↔ Q) : s.FailsIff Q := ⟨h.fails.trans hPQ, h.form⟩

theorem append (ha : a.FailsIff P) (hb : b.FailsIff Q) : (a ++ b).FailsIff (P ∨ Q) := by
  have hf : (a ++ b).failure = a.failure.or b.failure := by
    show (Script.append a b).failure = _
    unfold Script.append
    cases h : a.failure <;> simp [h]
  constructor
  · rw [← ha.fails, ← hb.fails, hf]
    cases a.failure <;> simp
  · rw [hf]
    cases h : a.failure with
    | none => simpa using hb.form
    | some f => simpa [h] using ha.form

theorem append_of_not (ha : a.FailsIff False) (hb : b.FailsIff Q) : (a ++ b).FailsIff Q :=
  (ha.append hb).congr (by rw [false_or])

theorem append_not (ha : a.FailsIff P) (hb : b.FailsIff False) : (a ++ b).FailsIff P :=
  (ha.append hb).congr (by rw [or_false])

theorem concat_map {α : Type} {f : α → Script} {P : α → Prop} {xs : List α}
    (h : ∀ x ∈ xs, (f x).FailsIff (P x)) : (concat (xs.map f)).FailsIff (∃ x ∈ xs, P x) := by
  induction xs with
  | nil => exact (of_writes .empty).congr (by simp)
  | cons x xs ih =>
    have hx := h x List.mem_cons_self
    have hxs := ih fun y hy => h y (List.mem_cons_of_mem _ hy)
    exact (hx.append hxs).congr (by simp)

/-- The result of a script that fails only as `FailsIff` says. -/
theorem result_cases (h : s.FailsIff P) :
    ((∃ t, s.result = .ok t) ∧ ¬ P) ∨ ((∃ u, s.result = .error (.unsupported u)) ∧ P) := by
  unfold result
  cases hf : s.failure with
  | none => exact .inl ⟨⟨_, rfl⟩, fun hP => by simpa [hf] using h.fails.mpr hP⟩
  | some f =>
    obtain ⟨u, rfl⟩ := h.form f hf
    exact .inr ⟨⟨u, rfl⟩, h.fails.mp ⟨_, hf⟩⟩

end FailsIff
end Script

namespace Node

theorem hasQuotedName_mk_iff {l : Label} {cs : List Node} :
    HasQuotedName (.mk l cs) ↔ l.isQuotedName = true ∨ ∃ c ∈ cs, c.HasQuotedName := by
  simp only [HasQuotedName, Tree.preorder, List.mem_cons, Tree.mem_preorderAll]
  constructor
  · rintro ⟨k, rfl | ⟨c, hc, hk⟩, hq⟩
    · exact .inl hq
    · exact .inr ⟨c, hc, k, hk, hq⟩
  · rintro (hq | ⟨c, hc, k, hk, hq⟩)
    · exact ⟨l, .inl rfl, hq⟩
    · exact ⟨k, .inr ⟨c, hc, hk⟩, hq⟩

theorem HasQuotedName.of_mem {n c : Node} (hc : c ∈ n.children) (h : c.HasQuotedName) :
    n.HasQuotedName := by
  obtain ⟨l, cs⟩ := n
  exact hasQuotedName_mk_iff.mpr (.inr ⟨c, hc, h⟩)

theorem not_hasQuotedName_of_leaf {n : Node} {k : Kind} (hc : n.cls = .of k)
    (hk : (k.isA .customTextAttribute || k.isA .customExpressionAttribute) = false)
    (hleaf : n.children = []) : ¬ n.HasQuotedName := by
  obtain ⟨l, cs⟩ := n
  obtain rfl : cs = [] := hleaf
  have hl : l.cls = .of k := hc
  rw [hasQuotedName_mk_iff, Label.isQuotedName, Label.isA, Label.isA, hl]
  show ¬ ((k.isA .customTextAttribute || k.isA .customExpressionAttribute) = true ∨ _)
  simp [hk]

end Node

theorem not_hasQuotedName_of_value {P : List Char → Prop} {v : Node}
    (h : IsString v ∨ IsExpression P v) : ¬ v.HasQuotedName := by
  rcases h with ⟨b, hc, -, hleaf, -⟩ | ⟨s, hc, -, hleaf, -⟩
  · exact Node.not_hasQuotedName_of_leaf hc rfl hleaf
  · exact Node.not_hasQuotedName_of_leaf hc rfl hleaf

namespace Formatter

variable {X : Heads} (f : Formatter) (depth : Int)

theorem value_failsIff {P : List Char → Prop} {v : Node} (hr : f.renderer = .tidy)
    (h : IsString v ∨ IsExpression P v) (lead tail : List Char) :
    (f.value depth lead tail (some v)).FailsIff False := by
  rcases h with ⟨b, hc, hb, -⟩ | ⟨s, hc, hs, -⟩
  · exact .of_writes (f.value_writes_string depth hc hb lead tail)
  · exact .of_writes (f.value_writes_expression depth hr hc hs lead tail)

theorem value?_of_isValue {P : List Char → Prop} {l : Label} {v : Node}
    (h : IsString v ∨ IsExpression P v) : Node.value? (.mk l [v]) = some v := by
  have hany : v.isAny [.string, .expression] = true := by
    show v.cls.isAny _ = true
    rcases h with ⟨b, hc, -⟩ | ⟨s, hc, -⟩ <;> (rw [hc]; rfl)
  simp [Node.value?, Node.child?, Tree.children, hany]

theorem expression?_of_isExpression {P : List Char → Prop} {l : Label} {v : Node}
    (h : IsExpression P v) : Node.expression? (.mk l [v]) = some v := by
  have hany : v.isAny [.expression] = true := by
    show v.cls.isAny _ = true
    obtain ⟨s, hc, -⟩ := h
    rw [hc]; rfl
  simp [Node.expression?, Node.child?, Tree.children, hany]

theorem nameValue_failsIff {P : List Char → Prop} {l : Label} {p : List Char} {v : Node}
    (hr : f.renderer = .tidy) (hp : l.head = some p) (h : IsString v ∨ IsExpression P v) :
    (f.nameValue depth (.mk l [v])).FailsIff False := by
  have hhead : Node.head (.mk l [v]) = some p := hp
  unfold nameValue
  rw [hhead, value?_of_isValue h]
  exact f.value_failsIff depth hr h _ _

/-- An attribute has no written form if and only if its name is quoted. -/
theorem attributeLines_failsIff {P : List Char → Prop} {l : Label} {p : List Char} {v : Node}
    (hr : f.renderer = .tidy) (hp : l.head = some p)
    (hc : l.cls = .of (attributeKind p (v.kind = .string))) (h : IsString v ∨ IsExpression P v) :
    (f.attributeLines depth (.mk l [v])).FailsIff (Node.HasQuotedName (.mk l [v])) := by
  have hquoted : Node.HasQuotedName (.mk l [v]) ↔ l.isQuotedName = true := by
    simp [Node.hasQuotedName_mk_iff, not_hasQuotedName_of_value h]
  have hname := f.nameValue_failsIff depth hr hp h
  have hcls : Node.cls (.mk l [v]) = l.cls := rfl
  refine Script.FailsIff.congr ?_ hquoted.symm
  unfold attributeLines Label.isQuotedName Label.isA
  rw [hcls, hc]
  rcases attributeKind_cases p (v.kind = .string) with hk | hk | hk | hk | hk <;> rw [hk]
  · exact Script.FailsIff.unsupported.congr (by decide)
  · exact Script.FailsIff.unsupported.congr (by decide)
  · exact hname.congr (by decide)
  · exact hname.congr (by decide)
  · exact hname.congr (by decide)

theorem fieldLines_failsIff {P : List Char → Prop} {l : Label} {p : List Char} {v : Node}
    (hr : f.renderer = .tidy) (hp : l.head = some p)
    (hc : l.cls = .of (fieldKind p (v.kind = .string))) (h : IsString v ∨ IsExpression P v) :
    (f.fieldLines depth (.mk l [v])).FailsIff False := by
  have hname := f.nameValue_failsIff depth hr hp h
  have hcls : Node.cls (.mk l [v]) = l.cls := rfl
  unfold fieldLines
  rw [hcls, hc]
  rcases fieldKind_cases p (v.kind = .string) with hk | hk | hk <;> rw [hk] <;> exact hname

theorem spreadLines_failsIff {P : List Char → Prop} {l : Label} {e : Node}
    (hr : f.renderer = .tidy) (he : IsExpression P e) :
    (f.spreadLines depth (.mk l [e])).FailsIff False := by
  unfold spreadLines
  rw [expression?_of_isExpression he]
  exact f.value_failsIff depth hr (.inr he) _ _

/-! ## Children by their roles -/

theorem not_hasQuotedName_of_parent {P : List Char → Prop} {l : Label} {k : Kind} {v : Node}
    (hc : l.cls = .of k)
    (hk : (k.isA .customTextAttribute || k.isA .customExpressionAttribute) = false)
    (hv : IsString v ∨ IsExpression P v) : ¬ Node.HasQuotedName (.mk l [v]) := by
  rw [Node.hasQuotedName_mk_iff]
  rintro (hq | ⟨c, hm, hq⟩)
  · rw [Label.isQuotedName, Label.isA, Label.isA, hc] at hq
    exact absurd (hk.symm.trans hq) (by decide)
  · cases List.mem_singleton.mp hm
    exact not_hasQuotedName_of_value hv hq

theorem key_failsIff {c : Node} (h : Placed X .element c) (hk : c.isA .key = true)
    (hasAttributes : Bool) : (f.keyLine depth hasAttributes c).FailsIff c.HasQuotedName := by
  obtain ⟨l, b, rfl, hc, hb, -⟩ := h.inv_key hk
  exact (Script.FailsIff.of_writes (f.keyLine_writes depth (n := .mk l []) hb _)).congr
    (iff_of_false nofun (Node.not_hasQuotedName_of_leaf hc rfl rfl))

theorem attribute_failsIff {c : Node} (hr : f.renderer = .tidy) (h : Placed X .element c)
    (hk : c.isA .attribute = true) : (f.attributeLines depth c).FailsIff c.HasQuotedName := by
  obtain ⟨l, p, v, rfl, hp, -, hc, hv⟩ := h.inv_attr hk
  exact f.attributeLines_failsIff depth hr hp hc (hv.imp_left And.left)

theorem field_failsIff {c : Node} (hr : f.renderer = .tidy) (h : Placed X .component c)
    (hk : c.isA .field = true) : (f.fieldLines depth c).FailsIff c.HasQuotedName := by
  obtain ⟨l, p, v, rfl, hp, -, hc, hv⟩ := h.inv_field hk
  refine (f.fieldLines_failsIff depth hr hp hc hv).congr (iff_of_false nofun ?_)
  refine not_hasQuotedName_of_parent hc ?_ hv
  rcases fieldKind_cases p (v.kind = .string) with he | he | he <;> rw [he] <;> rfl

theorem spread_failsIff {c : Node} (hr : f.renderer = .tidy) (h : Placed X .component c)
    (hk : c.isA .spread = true) : (f.spreadLines depth c).FailsIff c.HasQuotedName := by
  obtain ⟨l, e, rfl, hc, he⟩ := h.inv_spread hk
  exact (f.spreadLines_failsIff depth hr he).congr
    (iff_of_false nofun (not_hasQuotedName_of_parent hc rfl (.inr he)))

/-- Children of one kind, each by a script that fails for a quoted name in it. -/
theorem childrenOf_failsIff {n : Node} {k : Kind} {g : Node → Script}
    (h : ∀ c : Node, c ∈ n.children → c.isA k = true → (g c).FailsIff c.HasQuotedName) :
    (Script.concat ((n.childrenOf k).map g)).FailsIff
      (∃ c ∈ n.childrenOf k, c.HasQuotedName) := by
  refine .concat_map fun c hc => ?_
  obtain ⟨hmem, hk⟩ := Node.mem_childrenOf.mp hc
  exact h c hmem hk

/-- Where all children are of three kinds, a quoted name is in one of those. -/
theorem hasQuotedName_iff_of_roles {l : Label} {cs : List Node} {i j k : Kind}
    (hl : l.isQuotedName = false)
    (h : ∀ c : Node, c ∈ cs → c.isA i = true ∨ c.isA j = true ∨ c.isA k = true) :
    (((∃ c ∈ Node.childrenOf (.mk l cs) i, c.HasQuotedName) ∨
      (∃ c ∈ Node.childrenOf (.mk l cs) j, c.HasQuotedName)) ∨
      (∃ c ∈ Node.childrenOf (.mk l cs) k, c.HasQuotedName)) ↔
    Node.HasQuotedName (.mk l cs) := by
  rw [Node.hasQuotedName_mk_iff, hl]
  simp only [Node.childrenOf, Tree.children, List.mem_filter]
  constructor
  · rintro ((⟨c, ⟨hm, -⟩, hq⟩ | ⟨c, ⟨hm, -⟩, hq⟩) | ⟨c, ⟨hm, -⟩, hq⟩) <;> exact .inr ⟨c, hm, hq⟩
  · rintro (hq | ⟨c, hm, hq⟩)
    · cases hq
    · rcases h c hm with hk | hk | hk
      · exact .inl (.inl ⟨c, ⟨hm, hk⟩, hq⟩)
      · exact .inl (.inr ⟨c, ⟨hm, hk⟩, hq⟩)
      · exact .inr ⟨c, ⟨hm, hk⟩, hq⟩

end Formatter

/-- The script of a placed body node fails if and only if there is a quoted name in the node. -/
theorem Placed.failsIff {X : Heads} {m : Mode} {n : Node} {f : Formatter} (h : Placed X m n)
    (hr : f.renderer = .tidy) :
    n.isA .bodyNode = true → ∀ depth, (f.node depth n).FailsIff n.HasQuotedName := by
  induction h with
  | @text m l b hc _ _ =>
    intro _ depth
    unfold Formatter.node
    rw [hc]
    exact (Script.FailsIff.of_writes (f.line_writes depth _)).congr (iff_of_false (by decide)
      (Node.not_hasQuotedName_of_leaf hc rfl rfl))
  | @decoration m l s hc hs _ =>
    intro _ depth
    unfold Formatter.node
    rw [hc, hs]
    exact (Script.FailsIff.of_writes (f.headLine_writes depth _ _)).congr (iff_of_false (by decide)
      (Node.not_hasQuotedName_of_leaf hc rfl rfl))
  | @rawExpression m l e hc he =>
    intro _ depth
    unfold Formatter.node
    rw [hc]
    exact (Script.FailsIff.of_writes .empty).congr
      (iff_of_false (by decide) (Formatter.not_hasQuotedName_of_parent hc rfl (.inr he)))
  | @element m l p cs hc hp _ hcs hkeys ih =>
    intro _ depth
    have hkeyLines := Formatter.childrenOf_failsIff (n := .mk l cs) fun c hm hk =>
      f.key_failsIff (depth + 1) (hcs c hm) hk !(Node.childrenOf (.mk l cs) .attribute).isEmpty
    have hattributes := Formatter.childrenOf_failsIff (n := .mk l cs) fun c hm hk =>
      f.attribute_failsIff (depth + 1) hr (hcs c hm) hk
    have hbody := Formatter.childrenOf_failsIff (n := .mk l cs) (k := .bodyNode)
      (g := f.node (depth + 1)) fun c hm hb => ih c hm hb (depth + 1)
    rw [f.node_element depth hc hp hcs hkeys]
    exact Script.FailsIff.congr (.append_not (.append (.append (.append_of_not
      (.of_writes (f.headLine_writes depth p _)) hkeyLines) hattributes) hbody)
      (.of_writes (f.line_writes depth _)))
      (Formatter.hasQuotedName_iff_of_roles (by simp only [Label.isQuotedName, Label.isA, hc]; rfl)
        fun c hm => (hcs c hm).role_in_element)
  | @component m l p cs hc hp _ _ hcs _ ih =>
    intro _ depth
    have hfields := Formatter.childrenOf_failsIff (n := .mk l cs) fun c hm hk =>
      f.field_failsIff (depth + 1) hr (hcs c hm) hk
    have hspreads := Formatter.childrenOf_failsIff (n := .mk l cs) fun c hm hk =>
      f.spread_failsIff (depth + 1) hr (hcs c hm) hk
    have hbody := Formatter.childrenOf_failsIff (n := .mk l cs) (k := .bodyNode)
      (g := f.node (depth + 1)) fun c hm hb => ih c hm hb (depth + 1)
    rw [f.node_component depth hc hp hcs]
    exact Script.FailsIff.congr (.append_not (.append (.append (.append_of_not
      (.of_writes (f.headLine_writes depth p _)) hfields) hspreads) hbody)
      (.of_writes (f.line_writes depth _)))
      (Formatter.hasQuotedName_iff_of_roles (by simp only [Label.isQuotedName, Label.isA, hc]; rfl)
        fun c hm => (hcs c hm).role_in_component)
  | @key l b hc _ _ =>
    intro hb
    rw [Node.isA_of_cls (n := .mk l []) hc] at hb
    cases hb
  | @attr l p v _ _ hc _ =>
    intro hb
    rw [Placed.not_bodyNode_of_attr hc] at hb
    cases hb
  | @field l p v _ _ hc _ =>
    intro hb
    rw [Placed.not_bodyNode_of_field hc] at hb
    cases hb
  | @spread l e hc _ =>
    intro hb
    rw [Node.isA_of_cls (n := .mk l [e]) hc] at hb
    cases hb

end BlockMarkup
