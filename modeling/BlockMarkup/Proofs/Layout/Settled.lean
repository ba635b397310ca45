import BlockMarkup.Proofs.Document.Line
import BlockMarkup.Proofs.Layout.Outcome

/-!
# BlockMarkup.Proofs.Layout.Settled

What a tree becomes when it is written and read back: `Node.settle` puts children in the order in
which they are written, drops raw expressions, which are not written, and gives expressions the text
that the formatter gives them. Written nodes are read back so (`Placed.settles`).
-/

namespace BlockMarkup

open Text

namespace Node

/-- The kinds of children in the order in which they are written. -/
def writtenKinds : List Kind :=
  [.key, .attribute, .field, .spread, .bodyNode, .string, .expression]

def isWritten (n : Node) : Bool := n.kind ≠ .rawExpression

/-- The children that are written, in this order. -/
def arranged (ns : List Node) : List Node :=
  writtenKinds.flatMap fun k => ns.filter fun (n : Node) => n.isA k && n.isWritten

/-- The label of a node at a depth after it is written and read back. Only textual nodes have a
head then, and an expression stands behind the margin of the line it starts on. -/
def settledLabel (f : Formatter) (depth : Int) (l : Label) : Label :=
  { cls := l.cls
    head :=
      if l.cls.kind = .expression then l.head.map fun s => hung (f.margin (depth - 1)) (tidy s)
      else if l.isA .textual then l.head
      else none }

mutual

/-- A node at a depth after it is written and read back. -/
def settle (f : Formatter) (depth : Int) : Node → Node
  | .mk l cs => .mk (settledLabel f depth l) (arranged (settleAll f (depth + 1) cs))

def settleAll (f : Formatter) (depth : Int) : List Node → List Node
  | [] => []
  | n :: ns => settle f depth n :: settleAll f depth ns

end

theorem settleAll_eq_map (f : Formatter) (depth : Int) (ns : List Node) :
    settleAll f depth ns = ns.map (settle f depth) := by
  induction ns with
  | nil => rfl
  | cons n ns ih => rw [settleAll, ih, List.map_cons]

theorem settle_mk (f : Formatter) (depth : Int) (l : Label) (cs : List Node) :
    settle f depth (.mk l cs) =
      .mk (settledLabel f depth l) (arranged (cs.map (settle f (depth + 1)))) := by
  rw [settle, settleAll_eq_map]

theorem cls_settle (f : Formatter) (depth : Int) (n : Node) : (n.settle f depth).cls = n.cls := by
  cases n
  rw [settle_mk]
  rfl

theorem isA_settle (f : Formatter) (depth : Int) (n : Node) (k : Kind) :
    (n.settle f depth).isA k = n.isA k :=
  congrArg (fun c : NodeClass => c.isA k) (cls_settle f depth n)

theorem kind_settle (f : Formatter) (depth : Int) (n : Node) :
    (n.settle f depth).kind = n.kind :=
  congrArg NodeClass.kind (cls_settle f depth n)

/-- Arranging looks at the classes of nodes only. -/
theorem arranged_map_settle (f : Formatter) (depth : Int) (cs : List Node) :
    arranged (cs.map (settle f depth)) = (arranged cs).map (settle f depth) := by
  unfold arranged
  rw [List.map_flatMap]
  congr 1
  funext k
  rw [List.filter_map]
  congr 1
  refine List.filter_congr fun c _ => ?_
  simp only [Function.comp_apply, isA_settle, isWritten, kind_settle]

theorem settle_leaf (f : Formatter) (depth : Int) (l : Label) :
    settle f depth (.mk l []) = .mk (settledLabel f depth l) [] := by
  rw [settle_mk]
  rfl

end Node

/-- The heads of expressions and decorations can be read back from where they are written. -/
structure Heads.Readable (X : Heads) (f : Formatter) : Prop where
  value : ∀ h, X.value h → ∀ depth, IsValueText (hung (f.margin depth) (tidy h))
  spread : ∀ h, X.spread h → ∀ depth, IsSpreadText (hung (f.margin depth) (tidy h))
  decoration : ∀ s, X.decoration s → IsDecorationText s

theorem settle_string {f : Formatter} {depth : Int} {v : Node} {b : List Char}
    (hc : v.cls = .of .string) (hb : v.head = some b) (hleaf : v.children = []) :
    v.settle f depth = Node.textual .string b := by
  obtain ⟨l, cs⟩ := v
  obtain rfl : cs = [] := hleaf
  have hc' : l.cls = .of .string := hc
  have hb' : l.head = some b := hb
  rw [Node.settle_leaf, Node.settledLabel, Label.isA, hc', hb']
  rfl

theorem settle_expression {f : Formatter} {depth : Int} {v : Node} {h : List Char}
    (hc : v.cls = .of .expression) (hh : v.head = some h) (hleaf : v.children = []) :
    v.settle f depth = Node.textual .expression (hung (f.margin (depth - 1)) (tidy h)) := by
  obtain ⟨l, cs⟩ := v
  obtain rfl : cs = [] := hleaf
  have hc' : l.cls = .of .expression := hc
  have hh' : l.head = some h := hh
  rw [Node.settle_leaf, Node.settledLabel, hc', hh']
  rfl

theorem arranged_value {P : List Char → Prop} {v : Node} (h : IsString v ∨ IsExpression P v) :
    Node.arranged [v] = [v] := by
  have hcls : v.cls = .of .string ∨ v.cls = .of .expression := by
    rcases h with ⟨b, hc, -⟩ | ⟨s, hc, -⟩
    · exact .inl hc
    · exact .inr hc
  have hkind : v.kind = v.cls.kind := rfl
  rcases hcls with hc | hc <;>
    simp only [Node.arranged, Node.writtenKinds, List.flatMap_cons, List.flatMap_nil,
      List.filter_cons, List.filter_nil, Node.isA_of_cls hc, Node.isWritten, hkind, hc] <;> rfl

namespace Formatter

variable {X : Heads} (f : Formatter)

/-! ## Lines in front of a body -/

/-- A value, as it is written behind a name and read back. -/
theorem value_settles (hX : X.Readable f) (hr : f.renderer = .tidy) (depth : Int) {v : Node}
    (hv : IsString v ∨ IsExpression X.value v) (lead : List Char) :
    ∃ s, (f.value depth lead [','] (some v)).Writes (f.margin depth ++ (lead ++ s ++ ['\n'])) ∧
      IsValueOf s (v.settle f (depth + 1)) := by
  rcases hv with ⟨b, hc, hb, hleaf, hq⟩ | ⟨h, hc, hh, hleaf, hh'⟩
  · refine ⟨quote b ++ [','], ?_, ?_⟩
    · exact (f.value_writes_string depth hc hb lead [',']).congr (by simp)
    · rw [settle_string hc hb hleaf]
      exact isValueOf_string hq
  · refine ⟨hung (f.margin depth) (tidy h) ++ [','], ?_, ?_⟩
    · exact (f.value_writes_expression depth hr hc hh lead [',']).congr (by simp)
    · rw [settle_expression hc hh hleaf, Int.add_sub_cancel]
      exact isValueOf_expression (hX.value h hh' depth)

theorem settle_nameValue {l : Label} {p : List Char} {v : Node} {k : Kind}
    {P : List Char → Prop} (depth : Int) (hc : l.cls = .of k) (hk : k.isA .textual = true)
    (hne : k ≠ .expression) (hp : l.head = some p) (hv : IsString v ∨ IsExpression P v) :
    Node.settle f depth (.mk l [v]) =
      .mk { cls := .of k, head := some p } [v.settle f (depth + 1)] := by
  rw [Node.settle_mk, Node.arranged_map_settle, arranged_value hv, List.map_singleton,
    Node.settledLabel, Label.isA, hc, hp]
  have hk' : NodeClass.isA (.of k) .textual = true := hk
  have hne' : (NodeClass.of k).kind ≠ .expression := hne
  rw [if_neg hne', if_pos hk']

theorem not_quoted_of_attributeKind {p : List Char} (hp : isName p = true) (isString : Bool) :
    attributeKind p isString = .textAttribute ∨ attributeKind p isString = .eventHandler ∨
      attributeKind p isString = .expressionAttribute := by
  rw [attributeKind_of_isName hp]
  split
  · exact .inl rfl
  · split <;> simp

/-- The attribute of an element, as it is written and read back. -/
theorem attribute_settles (hX : X.Readable f) (hr : f.renderer = .tidy) (depth : Int) {l : Label}
    {p : List Char} {v : Node} (hp : l.head = some p) (hname : isName p = true)
    (hc : l.cls = .of (attributeKind p (v.kind = .string)))
    (hv : IsString v ∧ p ≠ "key".toList ∨ IsExpression X.value v) :
    ∃ t, (f.attributeLines depth (.mk l [v])).Writes t ∧
      Reading .element t [Node.settle f depth (.mk l [v])] := by
  have hv' : IsString v ∨ IsExpression X.value v := hv.imp_left And.left
  obtain ⟨s, hwrites, hvalue⟩ := f.value_settles hX hr depth hv' (p ++ [':', ' '])
  have hkind : (v.settle f (depth + 1)).kind = v.kind := Node.kind_settle f _ v
  have hkey : ¬ (p = "key".toList ∧ (v.settle f (depth + 1)).kind = .string) := by
    rw [hkind]
    rintro ⟨he, hs⟩
    rcases hv with ⟨-, hne⟩ | hv
    · exact hne he
    · rw [kind_of_isExpression hv] at hs
      cases hs
  have hreading := reading_attribute (f.blank_margin depth) hname hvalue hkey
  rw [hkind] at hreading
  refine ⟨f.margin depth ++ (p ++ [':', ' '] ++ s ++ ['\n']), ?_, ?_⟩
  · have hcls : Node.cls (.mk l [v]) = l.cls := rfl
    have hhead : Node.head (.mk l [v]) = some p := hp
    have hlines : f.attributeLines depth (.mk l [v]) = f.nameValue depth (.mk l [v]) := by
      unfold attributeLines
      rw [hcls, hc]
      rcases not_quoted_of_attributeKind hname (v.kind = .string) with hk | hk | hk <;> rw [hk] <;> rfl
    rw [hlines, nameValue, hhead, value?_of_isValue hv']
    exact hwrites
  · have hkinds := not_quoted_of_attributeKind hname (v.kind = .string)
    rw [f.settle_nameValue depth hc (by rcases hkinds with hk | hk | hk <;> rw [hk] <;> rfl)
      (by rcases hkinds with hk | hk | hk <;> rw [hk] <;> exact nofun) hp hv']
    exact hreading

theorem isA_textual_fieldKind (p : List Char) (isString : Bool) :
    (fieldKind p isString).isA .textual = true ∧ fieldKind p isString ≠ .expression := by
  rcases fieldKind_cases p isString with h | h | h <;> rw [h] <;> exact ⟨rfl, nofun⟩

theorem field_settles (hX : X.Readable f) (hr : f.renderer = .tidy) (depth : Int) {l : Label}
    {p : List Char} {v : Node} (hp : l.head = some p) (hname : isName p = true)
    (hc : l.cls = .of (fieldKind p (v.kind = .string)))
    (hv : IsString v ∨ IsExpression X.value v) :
    ∃ t, (f.fieldLines depth (.mk l [v])).Writes t ∧
      Reading .component t [Node.settle f depth (.mk l [v])] := by
  obtain ⟨s, hwrites, hvalue⟩ := f.value_settles hX hr depth hv (p ++ [':', ' '])
  have hreading := reading_field (f.blank_margin depth) hname hvalue
  rw [Node.kind_settle] at hreading
  refine ⟨f.margin depth ++ (p ++ [':', ' '] ++ s ++ ['\n']), ?_, ?_⟩
  · have hcls : Node.cls (.mk l [v]) = l.cls := rfl
    have hhead : Node.head (.mk l [v]) = some p := hp
    have hlines : f.fieldLines depth (.mk l [v]) = f.nameValue depth (.mk l [v]) := by
      unfold fieldLines
      rw [hcls, hc]
      rcases fieldKind_cases p (v.kind = .string) with hk | hk | hk <;> rw [hk] <;> rfl
    rw [hlines, nameValue, hhead, value?_of_isValue hv]
    exact hwrites
  · obtain ⟨htextual, hne⟩ := isA_textual_fieldKind p (v.kind = .string)
    rw [f.settle_nameValue depth hc htextual hne hp hv]
    exact hreading

theorem key_settles (depth : Int) {l : Label} {b : List Char} (hc : l.cls = .of .key)
    (hb : l.head = some b) (hq : isQuotable b = true) (hasAttributes : Bool) :
    ∃ t, (f.keyLine depth hasAttributes (.mk l [])).Writes t ∧
      Reading .element t [Node.settle f depth (.mk l [])] := by
  have hnode : Node.settle f depth (.mk l []) = Node.textual .key b := by
    rw [Node.settle_leaf, Node.settledLabel, Label.isA, hc, hb]
    rfl
  have hwrites := f.keyLine_writes depth (n := .mk l []) hb hasAttributes
  refine ⟨_, hwrites, ?_⟩
  rw [hnode]
  cases hasAttributes with
  | true =>
    have hreading := reading_key (f.blank_margin depth) (isValueOf_string hq)
    simpa [List.append_assoc] using hreading
  | false =>
    have hreading := reading_key (f.blank_margin depth) (isValueOf_last_string hq)
    simpa [List.append_assoc] using hreading

theorem spread_settles (hX : X.Readable f) (hr : f.renderer = .tidy) (depth : Int) {l : Label}
    {e : Node} (hc : l.cls = .of .spread) (he : IsExpression X.spread e) :
    ∃ t, (f.spreadLines depth (.mk l [e])).Writes t ∧
      Reading .component t [Node.settle f depth (.mk l [e])] := by
  have hnode : Node.settle f depth (.mk l [e]) =
      .mk { cls := .of .spread } [e.settle f (depth + 1)] := by
    rw [Node.settle_mk, Node.arranged_map_settle, arranged_value (.inr he), List.map_singleton,
      Node.settledLabel, Label.isA, hc]
    rfl
  have hexpression := expression?_of_isExpression (l := l) he
  obtain ⟨h, hec, heh, hleaf, hh⟩ := he
  have hwrites := f.value_writes_expression depth hr hec heh ['.', '.'] []
  have hreading := reading_spread (f.blank_margin depth) (hX.spread h hh depth)
  refine ⟨f.margin depth ++ (['.', '.'] ++ hung (f.margin depth) (tidy h) ++ ['\n']), ?_, ?_⟩
  · rw [spreadLines, hexpression]
    exact hwrites.congr (by simp)
  · rw [hnode, settle_expression hec heh hleaf, Int.add_sub_cancel]
    exact hreading

end Formatter

/-! ## Children by their roles -/

namespace Node

/-- Where the kinds of the children are known, arranging leaves out the kinds that none of them is
of, and raw expressions are among the body nodes. -/
theorem filter_isA_of_kinds {ks : List Kind} {cs : List Node}
    (h : ∀ c : Node, c ∈ cs → ∃ k ∈ ks, c.cls = .of k) (j : Kind) :
    ((∀ k ∈ ks, k.isA j = false) →
      (cs.filter fun (c : Node) => c.isA j && c.isWritten) = []) ∧
    ((∀ k ∈ ks, k.isA j = true → k ≠ .rawExpression) →
      (cs.filter fun (c : Node) => c.isA j && c.isWritten) =
        cs.filter fun (c : Node) => c.isA j) := by
  constructor
  · intro hj
    rw [List.filter_eq_nil_iff]
    intro c hc
    obtain ⟨k, hk, hcls⟩ := h c hc
    rw [Node.isA_of_cls hcls, hj k hk]
    exact nofun
  · intro hj
    refine List.filter_congr fun c hc => ?_
    obtain ⟨k, hk, hcls⟩ := h c hc
    rw [Node.isA_of_cls hcls, isWritten, Node.kind_of_cls hcls]
    cases hb : k.isA j with
    | true => simp [hj k hk hb]
    | false => rfl

theorem arranged_element {X : Heads} {cs : List Node}
    (h : ∀ c : Node, c ∈ cs → Placed X .element c) :
    arranged cs = (cs.filter fun (c : Node) => c.isA .key) ++
      (cs.filter fun (c : Node) => c.isA .attribute) ++
      ((cs.filter fun (c : Node) => c.isA .bodyNode).filter isWritten) := by
  have hfilter := filter_isA_of_kinds fun c hc => (h c hc).kind_in_element
  simp only [arranged, writtenKinds, List.flatMap_cons, List.flatMap_nil, List.filter_filter]
  rw [(hfilter .key).2 (by decide), (hfilter .attribute).2 (by decide),
    (hfilter .field).1 (by decide), (hfilter .spread).1 (by decide),
    (hfilter .string).1 (by decide), (hfilter .expression).1 (by decide)]
  simp [Bool.and_comm]

theorem arranged_component {X : Heads} {cs : List Node}
    (h : ∀ c : Node, c ∈ cs → Placed X .component c) :
    arranged cs = (cs.filter fun (c : Node) => c.isA .field) ++
      (cs.filter fun (c : Node) => c.isA .spread) ++
      ((cs.filter fun (c : Node) => c.isA .bodyNode).filter isWritten) := by
  have hfilter := filter_isA_of_kinds fun c hc => (h c hc).kind_in_component
  simp only [arranged, writtenKinds, List.flatMap_cons, List.flatMap_nil, List.filter_filter]
  rw [(hfilter .key).1 (by decide), (hfilter .attribute).1 (by decide),
    (hfilter .field).2 (by decide), (hfilter .spread).2 (by decide),
    (hfilter .string).1 (by decide), (hfilter .expression).1 (by decide)]
  simp [Bool.and_comm]

end Node

/-- Where each part can be written and read back, so can all of them in a row. -/
theorem concat_settles {m : Mode} {xs : List Node} {g : Node → Script} {h : Node → List Node}
    (hx : ∀ x : Node, x ∈ xs → ∃ t, (g x).Writes t ∧ Reading m t (h x)) :
    ∃ t, (Script.concat (xs.map g)).Writes t ∧ Reading m t (xs.flatMap h) := by
  induction xs with
  | nil => exact ⟨[], .empty, .nil⟩
  | cons x xs ih =>
    obtain ⟨s, hs, hs'⟩ := hx x List.mem_cons_self
    obtain ⟨t, ht, ht'⟩ := ih fun y hy => hx y (List.mem_cons_of_mem _ hy)
    exact ⟨s ++ t, hs.append ht, hs'.append ht'⟩

/-- The nodes that a body node is read back as: none for a raw expression. -/
def Node.settled (f : Formatter) (depth : Int) (n : Node) : List Node :=
  if n.isWritten then [n.settle f depth] else []

theorem flatMap_settled (f : Formatter) (depth : Int) (ns : List Node) :
    ns.flatMap (Node.settled f depth) = (ns.filter Node.isWritten).map (Node.settle f depth) := by
  induction ns with
  | nil => rfl
  | cons n ns ih =>
    rw [List.flatMap_cons, ih, Node.settled]
    cases hn : n.isWritten with
    | true => rw [List.filter_cons_of_pos hn]; rfl
    | false => rw [List.filter_cons_of_neg (by rw [hn]; exact nofun)]; rfl

theorem flatMap_settle (f : Formatter) (depth : Int) (ns : List Node) :
    ns.flatMap (fun (n : Node) => [n.settle f depth]) = ns.map (Node.settle f depth) := by
  induction ns with
  | nil => rfl
  | cons n ns ih => rw [List.flatMap_cons, ih]; rfl

theorem isWritten_of_cls {n : Node} {k : Kind} (hc : n.cls = .of k) :
    n.isWritten = decide (k ≠ .rawExpression) := by
  rw [Node.isWritten, Node.kind_of_cls hc]

namespace Formatter

variable {X : Heads} (f : Formatter)

/-! ## Children, each on lines of its own -/

/-- An attribute without a quoted name has a name. -/
theorem isName_of_not_hasQuotedName {l : Label} {p : List Char} {v : Node}
    (hc : l.cls = .of (attributeKind p (v.kind = .string))) (hname : IsAttributeName p)
    (hquoted : ¬ Node.HasQuotedName (.mk l [v])) : isName p = true := by
  rcases hname with hname | ⟨b, rfl, -⟩
  · exact hname
  · refine absurd (Node.hasQuotedName_mk_iff.mpr (.inl ?_)) hquoted
    rw [Label.isQuotedName, Label.isA, Label.isA, hc]
    cases decide (v.kind = .string) <;> rfl

theorem placed_key_settles (depth : Int) {c : Node} (h : Placed X .element c)
    (hk : c.isA .key = true) (hasAttributes : Bool) :
    ∃ t, (f.keyLine depth hasAttributes c).Writes t ∧ Reading .element t [c.settle f depth] := by
  obtain ⟨l, b, rfl, hc, hb, hq⟩ := h.inv_key hk
  exact f.key_settles depth hc hb hq hasAttributes

theorem placed_attribute_settles (hX : X.Readable f) (hr : f.renderer = .tidy) (depth : Int)
    {c : Node} (h : Placed X .element c) (hk : c.isA .attribute = true)
    (hquoted : ¬ c.HasQuotedName) :
    ∃ t, (f.attributeLines depth c).Writes t ∧ Reading .element t [c.settle f depth] := by
  obtain ⟨l, p, v, rfl, hp, hname, hc, hv⟩ := h.inv_attr hk
  exact f.attribute_settles hX hr depth hp (isName_of_not_hasQuotedName hc hname hquoted) hc hv

theorem placed_field_settles (hX : X.Readable f) (hr : f.renderer = .tidy) (depth : Int)
    {c : Node} (h : Placed X .component c) (hk : c.isA .field = true) :
    ∃ t, (f.fieldLines depth c).Writes t ∧ Reading .component t [c.settle f depth] := by
  obtain ⟨l, p, v, rfl, hp, hname, hc, hv⟩ := h.inv_field hk
  exact f.field_settles hX hr depth hp hname hc hv

theorem placed_spread_settles (hX : X.Readable f) (hr : f.renderer = .tidy) (depth : Int)
    {c : Node} (h : Placed X .component c) (hk : c.isA .spread = true) :
    ∃ t, (f.spreadLines depth c).Writes t ∧ Reading .component t [c.settle f depth] := by
  obtain ⟨l, e, rfl, hc, he⟩ := h.inv_spread hk
  exact f.spread_settles hX hr depth hc he

/-- The children of one kind, settled. -/
theorem childrenOf_settles {m : Mode} {n : Node} {k : Kind} {g : Node → Script} {depth : Int}
    (h : ∀ c : Node, c ∈ n.children → c.isA k = true →
      ∃ t, (g c).Writes t ∧ Reading m t [c.settle f depth]) :
    ∃ t, (Script.concat ((n.childrenOf k).map g)).Writes t ∧
      Reading m t ((n.childrenOf k).map (Node.settle f depth)) := by
  rw [← flatMap_settle]
  refine concat_settles fun c hc => ?_
  obtain ⟨hmem, hk⟩ := Node.mem_childrenOf.mp hc
  exact h c hmem hk

/-- The body nodes among the children, settled. -/
theorem bodyOf_settles {m : Mode} {n : Node} {g : Node → Script} {depth : Int}
    (h : ∀ c : Node, c ∈ n.children → c.isA .bodyNode = true →
      ∃ t, (g c).Writes t ∧ Reading m t (c.settled f depth)) :
    ∃ t, (Script.concat ((n.childrenOf .bodyNode).map g)).Writes t ∧
      Reading m t (((n.childrenOf .bodyNode).filter Node.isWritten).map (Node.settle f depth)) := by
  rw [← flatMap_settled]
  refine concat_settles fun c hc => ?_
  obtain ⟨hmem, hk⟩ := Node.mem_childrenOf.mp hc
  exact h c hmem hk

end Formatter

/-- Nodes of one kind are written as often as some written kind comprises it. -/
theorem Node.filter_kind_arranged {k : Kind} (hk : k ≠ .rawExpression) (ns : List Node) :
    ((arranged ns).filter fun (n : Node) => n.kind = k) =
      (writtenKinds.filter k.isA).flatMap fun _ => ns.filter fun (n : Node) => n.kind = k := by
  unfold arranged
  generalize writtenKinds = js
  induction js with
  | nil => rfl
  | cons j js ih =>
    rw [List.flatMap_cons, List.filter_append, ih, List.filter_filter]
    have hisA : ∀ n : Node, n.kind = k → n.isA j = k.isA j := fun n hn => by
      rw [← hn]
      rfl
    cases hj : k.isA j with
    | true =>
      rw [List.filter_cons_of_pos hj, List.flatMap_cons]
      congr 1
      refine List.filter_congr fun n _ => ?_
      by_cases hn : n.kind = k
      · simp [hn, hisA n hn, hj, isWritten, hk]
      · simp [hn]
    | false =>
      have hnone : (ns.filter fun (n : Node) =>
          decide (n.kind = k) && (n.isA j && n.isWritten)) = [] := by
        rw [List.filter_eq_nil_iff]
        intro n _
        by_cases hn : n.kind = k
        · simp [hisA n hn, hj]
        · simp [hn]
      rw [List.filter_cons_of_neg (by rw [hj]; exact nofun), hnone, List.nil_append]

/-- Where one written kind comprises it, nodes of a kind are neither lost nor doubled. -/
theorem Node.length_filter_kind_settle {f : Formatter} {depth : Int} {k j : Kind}
    (hk : k ≠ .rawExpression) (hj : writtenKinds.filter k.isA = [j]) (cs : List Node) :
    (((arranged cs).map (settle f depth)).filter fun (c : Node) => c.kind = k).length =
      (cs.filter fun (c : Node) => c.kind = k).length := by
  have hmap : (((arranged cs).map (settle f depth)).filter fun (c : Node) => c.kind = k) =
      ((arranged cs).filter fun (c : Node) => c.kind = k).map (settle f depth) := by
    rw [List.filter_map]
    congr 1
    refine List.filter_congr fun c _ => ?_
    simp only [Function.comp_apply, kind_settle]
  rw [hmap, List.length_map, filter_kind_arranged hk, hj]
  simp

/-- What is written of a placed body node without quoted names is read back as the node, settled. -/
theorem Placed.settles {X : Heads} {m : Mode} {n : Node} {f : Formatter} (h : Placed X m n)
    (hX : X.Readable f) (hr : f.renderer = .tidy) :
    n.isA .bodyNode = true → ¬ n.HasQuotedName → ∀ depth, ∃ t, (f.node depth n).Writes t ∧
      ∀ m : Mode, m.isBody = true → Reading m t (n.settled f depth) := by
  induction h with
  | @text m l b hc hb hq =>
    intro _ _ depth
    have hnode : Node.settled f depth (.mk l []) = [Node.textual .text b] := by
      rw [Node.settled, isWritten_of_cls (n := .mk l []) hc, Node.settle_leaf, Node.settledLabel,
        Label.isA, hc, hb]
      rfl
    refine ⟨f.margin depth ++ (quote b ++ ['\n']), ?_, fun m hm => ?_⟩
    · unfold Formatter.node
      rw [hc, hb]
      exact f.line_writes depth _
    · rw [hnode]
      exact reading_text hm (f.blank_margin depth) hq
  | @decoration m l s hc hs hX' =>
    intro _ _ depth
    have hnode : Node.settled f depth (.mk l []) = [Node.textual .decoration s] := by
      rw [Node.settled, isWritten_of_cls (n := .mk l []) hc, Node.settle_leaf, Node.settledLabel,
        Label.isA, hc, hs]
      rfl
    refine ⟨f.margin depth ++ (s ++ ['\n']), ?_, fun m hm => ?_⟩
    · unfold Formatter.node
      rw [hc, hs]
      exact (f.headLine_writes depth s []).congr (by simp)
    · rw [hnode]
      exact reading_decoration hm (f.blank_margin depth) (hX.decoration s hX')
  | @rawExpression m l e hc _ =>
    intro _ _ depth
    have hnode : Node.settled f depth (.mk l [e]) = [] := by
      rw [Node.settled, isWritten_of_cls (n := .mk l [e]) hc]
      rfl
    refine ⟨[], ?_, fun m _ => ?_⟩
    · unfold Formatter.node
      rw [hc]
      exact .empty
    · rw [hnode]
      exact .nil
  | @element m l p cs hc hp htag hcs hkeys ih =>
    intro _ hquoted depth
    have hquoted' : ∀ c ∈ cs, ¬ Node.HasQuotedName c := fun c hm hq =>
      hquoted (.of_mem hm hq)
    obtain ⟨keys, hkeys₁, hkeys₂⟩ := f.childrenOf_settles (n := .mk l cs) fun c hm hk =>
      f.placed_key_settles (depth + 1) (hcs c hm) hk
        !(Node.childrenOf (.mk l cs) .attribute).isEmpty
    obtain ⟨attributes, hattributes₁, hattributes₂⟩ := f.childrenOf_settles (n := .mk l cs)
      fun c hm hk => f.placed_attribute_settles hX hr (depth + 1) (hcs c hm) hk (hquoted' c hm)
    have hbodies : ∀ c : Node, c ∈ cs → c.isA .bodyNode = true →
        ∃ t, (f.node (depth + 1) c).Writes t ∧ Reading .element t (c.settled f (depth + 1)) := by
      intro c hm hb
      obtain ⟨t, ht, hread⟩ := ih c hm hb (hquoted' c hm) (depth + 1)
      exact ⟨t, ht, hread .element rfl⟩
    obtain ⟨body, hbody₁, hbody₂⟩ := f.bodyOf_settles (n := .mk l cs) hbodies
    have hinner : Reading .element (keys ++ attributes ++ body)
        ((Node.arranged cs).map (Node.settle f (depth + 1))) := by
      rw [Node.arranged_element hcs, List.map_append, List.map_append]
      exact (hkeys₂.append hattributes₂).append hbody₂
    have hnode : Node.settled f depth (.mk l cs) = [.mk { cls := .of .element, head := some p }
        ((Node.arranged cs).map (Node.settle f (depth + 1)))] := by
      rw [Node.settled, isWritten_of_cls (n := .mk l cs) hc, Node.settle_mk,
        Node.arranged_map_settle, Node.settledLabel, Label.isA, hc, hp]
      rfl
    rw [f.node_element depth hc hp hcs hkeys, hnode]
    refine ⟨_, (((((f.headLine_writes depth p _).append hkeys₁).append hattributes₁).append
      hbody₁).append (f.line_writes depth _)).congr ?_, fun m hm =>
      reading_element hm (f.blank_margin depth) htag hinner ?_⟩
    · simp only [List.append_assoc]
    · rwa [Node.length_filter_kind_settle (k := .key) (j := .key) (by decide) (by decide)]
  | @component m l p cs hc hp hpath htag hcs hspreads ih =>
    intro _ hquoted depth
    have hquoted' : ∀ c ∈ cs, ¬ Node.HasQuotedName c := fun c hm hq =>
      hquoted (.of_mem hm hq)
    obtain ⟨fields, hfields₁, hfields₂⟩ := f.childrenOf_settles (n := .mk l cs) fun c hm hk =>
      f.placed_field_settles hX hr (depth + 1) (hcs c hm) hk
    obtain ⟨spreads, hspreads₁, hspreads₂⟩ := f.childrenOf_settles (n := .mk l cs)
      fun c hm hk => f.placed_spread_settles hX hr (depth + 1) (hcs c hm) hk
    have hbodies : ∀ c : Node, c ∈ cs → c.isA .bodyNode = true →
        ∃ t, (f.node (depth + 1) c).Writes t ∧ Reading .component t (c.settled f (depth + 1)) := by
      intro c hm hb
      obtain ⟨t, ht, hread⟩ := ih c hm hb (hquoted' c hm) (depth + 1)
      exact ⟨t, ht, hread .component rfl⟩
    obtain ⟨body, hbody₁, hbody₂⟩ := f.bodyOf_settles (n := .mk l cs) hbodies
    have hinner : Reading .component (fields ++ spreads ++ body)
        ((Node.arranged cs).map (Node.settle f (depth + 1))) := by
      rw [Node.arranged_component hcs, List.map_append, List.map_append]
      exact (hfields₂.append hspreads₂).append hbody₂
    have hnode : Node.settled f depth (.mk l cs) = [.mk { cls := .of .component, head := some p }
        ((Node.arranged cs).map (Node.settle f (depth + 1)))] := by
      rw [Node.settled, isWritten_of_cls (n := .mk l cs) hc, Node.settle_mk,
        Node.arranged_map_settle, Node.settledLabel, Label.isA, hc, hp]
      rfl
    rw [f.node_component depth hc hp hcs, hnode]
    refine ⟨_, (((((f.headLine_writes depth p _).append hfields₁).append hspreads₁).append
      hbody₁).append (f.line_writes depth _)).congr ?_, fun m hm =>
      reading_component hm (f.blank_margin depth) hpath htag hinner ?_⟩
    · simp only [List.append_assoc]
    · rwa [Node.length_filter_kind_settle (k := .spread) (j := .spread) (by decide) (by decide)]
  | @key l b hc _ _ =>
    intro hb
    rw [Node.isA_of_cls (n := .mk l []) hc] at hb
    cases hb
  | @attr l p v _ _ hc _ =>
    intro hb
    rw [Node.isA_of_cls (n := .mk l [v]) hc] at hb
    rcases attributeKind_cases p (v.kind = .string) with hk | hk | hk | hk | hk <;>
      (rw [hk] at hb; cases hb)
  | @field l p v _ _ hc _ =>
    intro hb
    rw [Node.isA_of_cls (n := .mk l [v]) hc] at hb
    rcases fieldKind_cases p (v.kind = .string) with hk | hk | hk <;> (rw [hk] at hb; cases hb)
  | @spread l e hc _ =>
    intro hb
    rw [Node.isA_of_cls (n := .mk l [e]) hc] at hb
    cases hb

end BlockMarkup
