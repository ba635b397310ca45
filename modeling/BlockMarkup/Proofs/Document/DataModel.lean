import BlockMarkup.Proofs.Document.Spelled
import BlockMarkup.Proofs.Expression.Nesting
import BlockMarkup.Proofs.Format

/-!
# BlockMarkup.Proofs.Document.DataModel

The data model of documents, node by node: `Conforms n` says which children a node of its class has,
and what its head is like. All nodes of a document that was read conform (`conforms_of_read`).
-/

namespace BlockMarkup

open Text

/-- The node is of exactly one of the kinds. -/
def Node.IsOneOf (n : Node) (ks : List Kind) : Prop := ∃ k ∈ ks, n.cls = .of k

/-- The kinds of nodes that a body is made of. -/
def bodyKinds : List Kind := [.element, .component, .text, .rawExpression, .decoration]

/-- The kinds of attributes that are read; annotations are none of them. -/
def attributeKinds : List Kind :=
  [.textAttribute, .expressionAttribute, .eventHandler, .customTextAttribute,
    .customExpressionAttribute]

def fieldKinds : List Kind := [.expressionField, .formattedField, .handlerField]

/-- There is no white space at the ends of the text, and no opening brace in it. -/
structure IsBare (s : List Char) : Prop where
  trimmed : strip s = s
  no_brace : '\x7b' ∉ s

/-- A complete string literal. -/
def IsQuoted (s : List Char) : Prop := ∃ b, s = quote b ∧ isQuotable b = true

/-- A text that is not empty, without white space at its ends. -/
def IsTrimmedText (s : List Char) : Prop := s ≠ [] ∧ strip s = s

/-- The text of an annotation, from its mark to its closing bracket. -/
def IsAnnotation (s : List Char) : Prop :=
  (['#', '['] <+: s ∨ ['#', '!', '['] <+: s) ∧ s.getLast? = some ']'

/-- The node has the children and the head of a node of its class. -/
inductive Conforms : Node → Prop where
  | document {l : Label} {cs : List Node} : l.cls = .of .document →
      (∀ c : Node, c ∈ cs → c.IsOneOf bodyKinds) → Conforms (.mk l cs)
  | element {l : Label} {cs : List Node} {p : List Char} : l.cls = .of .element → l.head = some p →
      isTag p = true → IsBare p →
      (∀ c : Node, c ∈ cs → c.IsOneOf (.key :: attributeKinds ++ bodyKinds)) →
      (cs.filter fun (c : Node) => c.kind = .key).length ≤ 1 → Conforms (.mk l cs)
  | component {l : Label} {cs : List Node} {p : List Char} : l.cls = .of .component →
      l.head = some p → isPath p = true → isTag p = false → IsBare p →
      (∀ c : Node, c ∈ cs → c.IsOneOf (.spread :: fieldKinds ++ bodyKinds)) →
      (cs.filter fun (c : Node) => c.kind = .spread).length ≤ 1 → Conforms (.mk l cs)
  | textAttribute {l : Label} {v : Node} {p : List Char} : l.cls = .of .textAttribute →
      l.head = some p → isName p = true → p ≠ "key".toList → v.cls = .of .string →
      Conforms (.mk l [v])
  | expressionAttribute {l : Label} {v : Node} {p : List Char} :
      l.cls = .of .expressionAttribute → l.head = some p → isName p = true → ¬ ['o', 'n'] <+: p →
      v.cls = .of .expression → Conforms (.mk l [v])
  | eventHandler {l : Label} {v : Node} {p : List Char} : l.cls = .of .eventHandler →
      l.head = some p → isName p = true → ['o', 'n'] <+: p → v.cls = .of .expression →
      Conforms (.mk l [v])
  | customTextAttribute {l : Label} {v : Node} {p : List Char} :
      l.cls = .of .customTextAttribute → l.head = some p → IsQuoted p → v.cls = .of .string →
      Conforms (.mk l [v])
  | customExpressionAttribute {l : Label} {v : Node} {p : List Char} :
      l.cls = .of .customExpressionAttribute → l.head = some p → IsQuoted p →
      v.cls = .of .expression → Conforms (.mk l [v])
  | formattedField {l : Label} {v : Node} {p : List Char} : l.cls = .of .formattedField →
      l.head = some p → isName p = true → v.cls = .of .string → Conforms (.mk l [v])
  | expressionField {l : Label} {v : Node} {p : List Char} : l.cls = .of .expressionField →
      l.head = some p → isName p = true → ¬ ['o', 'n'] <+: p → v.cls = .of .expression →
      Conforms (.mk l [v])
  | handlerField {l : Label} {v : Node} {p : List Char} : l.cls = .of .handlerField →
      l.head = some p → isName p = true → ['o', 'n'] <+: p → v.cls = .of .expression →
      Conforms (.mk l [v])
  | rawExpression {l : Label} {v : Node} : l.cls = .of .rawExpression → v.cls = .of .expression →
      Conforms (.mk l [v])
  | spread {l : Label} {v : Node} : l.cls = .of .spread → v.cls = .of .expression →
      Conforms (.mk l [v])
  | literal {l : Label} {b : List Char} :
      l.cls = .of .key ∨ l.cls = .of .text ∨ l.cls = .of .string → l.head = some b →
      isQuotable b = true → Conforms (.mk l [])
  | decoration {l : Label} {s : List Char} : l.cls = .of .decoration → l.head = some s →
      IsAnnotation s → Conforms (.mk l [])
  | expression {l : Label} {s : List Char} : l.cls = .of .expression → l.head = some s →
      IsTrimmedText s → Conforms (.mk l [])

/-- No node that conforms stands for a flaw. -/
theorem Conforms.not_invalid {n : Node} (h : Conforms n) : n.isA .invalid = false := by
  cases h with
  | literal hc _ _ =>
    rcases hc with hc | hc | hc <;> exact Node.isA_of_cls (n := .mk _ _) hc
  | document hc _ | element hc _ _ _ _ _ | component hc _ _ _ _ _ _
  | textAttribute hc _ _ _ _ | expressionAttribute hc _ _ _ _ | eventHandler hc _ _ _ _
  | customTextAttribute hc _ _ _ | customExpressionAttribute hc _ _ _ | formattedField hc _ _ _
  | expressionField hc _ _ _ _ | handlerField hc _ _ _ _ | rawExpression hc _ | spread hc _
  | decoration hc _ _ | expression hc _ _ => exact Node.isA_of_cls (n := .mk _ _) hc

/-! ## The heads of a document -/

/-- What is known of the heads of every document. -/
def Heads.plain : Heads := ⟨IsTrimmedText, IsTrimmedText, IsTrimmedText, IsAnnotation⟩

theorem Item.Spell.isTrimmedText {items : List Item} {h : List Char} (hs : Item.Spell items h) :
    IsTrimmedText h := by
  obtain ⟨s, -, rfl, hne⟩ := hs
  exact ⟨hne, strip_strip s⟩

theorem Item.spellingAll_of_closedBy? {c s : List Char} {items : List Item}
    (hc : (closedBy? c items).isSome = true) (hs : spellingAll items = .ok s) : c <:+ s := by
  obtain ⟨t, he, ht⟩ := append_of_closedBy? hc
  have hspelled : Spelled (items.dropLast ++ [.token t]) := he ▸ ⟨s, hs⟩
  obtain ⟨⟨s₁, hs₁⟩, hlast⟩ := spelled_append_iff.mp hspelled
  have hs₂ : spellingAll [.token t] = .ok c := by
    have hstray := spelled_token_iff.mp hlast
    simp [spellingAll, spelling, hstray, ht]
  have hboth := spellingAll_append hs₁ hs₂
  rw [← he, hs] at hboth
  cases hboth
  exact List.suffix_append s₁ c

/-- What is spelled up to the bracket that closes an annotation. -/
theorem isAnnotation_of_closedBy? {items : List Item} {s o : List Char}
    (hclosed : (Item.closedBy? [']'] items).isSome = true) (hs : Item.spellingAll items = .ok s)
    (ho : o = ['#', '['] ∨ o = ['#', '!', '[']) : IsAnnotation (o ++ s) := by
  refine ⟨?_, ?_⟩
  · rcases ho with rfl | rfl
    · exact .inl (List.prefix_append _ _)
    · exact .inr (List.prefix_append _ _)
  · obtain ⟨v, rfl⟩ := Item.spellingAll_of_closedBy? hclosed hs
    rw [← List.append_assoc, List.getLast?_concat]

theorem Heads.plain_hold (items : List Item) : Heads.plain.Hold items where
  value _ _ hs := hs.isTrimmedText
  spread _ hs := hs.isTrimmedText
  raw _ hs := hs.isTrimmedText
  decoration _ hclosed hs ho := isAnnotation_of_closedBy? hclosed hs ho

/-! ## All nodes -/

theorem isBare_of_isPath {p : List Char} (h : isPath p = true) : IsBare p :=
  ⟨strip_of_trimmed (trimmed_of_isPath h), brace_not_mem_of_isPath h⟩

theorem isHandlerName_iff {p : List Char} : isHandlerName p = true ↔ ['o', 'n'] <+: p := by
  rw [isHandlerName, List.isPrefixOf_iff_prefix]

theorem IsExpression.conforms {v : Node} (h : IsExpression IsTrimmedText v) : Conforms v := by
  obtain ⟨l, cs⟩ := v
  obtain ⟨s, hc, hs, hleaf, htrimmed⟩ := h
  obtain rfl : cs = [] := hleaf
  exact .expression hc hs htrimmed

theorem IsString.conforms {v : Node} (h : IsString v) : Conforms v := by
  obtain ⟨l, cs⟩ := v
  obtain ⟨b, hc, hb, hleaf, hq⟩ := h
  obtain rfl : cs = [] := hleaf
  exact .literal (.inr (.inr hc)) hb hq

/-- The value of an attribute or a field conforms. -/
theorem conforms_of_value {v : Node} (h : IsString v ∨ IsExpression IsTrimmedText v) :
    Conforms v := h.elim IsString.conforms IsExpression.conforms

theorem conforms_attribute {l : Label} {p : List Char} {v : Node} (hp : l.head = some p)
    (hname : IsAttributeName p) (hc : l.cls = .of (attributeKind p (v.kind = .string)))
    (hv : IsString v ∧ p ≠ "key".toList ∨ IsExpression IsTrimmedText v) : Conforms (.mk l [v]) := by
  rcases hv with ⟨hv, hkey⟩ | hv
  · have hkind := kind_of_isString hv
    obtain ⟨b, hvc, -⟩ := hv
    rw [hkind] at hc
    rcases hname with hname | ⟨s, rfl, hs⟩
    · rw [attributeKind_of_isName hname] at hc
      exact .textAttribute hc hp hname hkey hvc
    · exact .customTextAttribute hc hp ⟨s, rfl, hs⟩ hvc
  · have hkind := kind_of_isExpression hv
    obtain ⟨s, hvc, -⟩ := hv
    rw [hkind] at hc
    rcases hname with hname | ⟨b, rfl, hb⟩
    · rw [attributeKind_of_isName hname] at hc
      cases hon : isHandlerName p with
      | true =>
        rw [hon] at hc
        exact .eventHandler hc hp hname (isHandlerName_iff.mp hon) hvc
      | false =>
        rw [hon] at hc
        refine .expressionAttribute hc hp hname (fun he => ?_) hvc
        rw [isHandlerName_iff.mpr he] at hon
        cases hon
    · exact .customExpressionAttribute hc hp ⟨b, rfl, hb⟩ hvc

theorem conforms_field {l : Label} {p : List Char} {v : Node} (hp : l.head = some p)
    (hname : isName p = true) (hc : l.cls = .of (fieldKind p (v.kind = .string)))
    (hv : IsString v ∨ IsExpression IsTrimmedText v) : Conforms (.mk l [v]) := by
  rcases hv with hv | hv
  · have hkind := kind_of_isString hv
    obtain ⟨b, hvc, -⟩ := hv
    rw [hkind] at hc
    exact .formattedField hc hp hname hvc
  · have hkind := kind_of_isExpression hv
    obtain ⟨s, hvc, -⟩ := hv
    rw [hkind] at hc
    cases hon : isHandlerName p with
    | true =>
      simp only [fieldKind, hon] at hc
      exact .handlerField hc hp hname (isHandlerName_iff.mp hon) hvc
    | false =>
      simp only [fieldKind, hon] at hc
      refine .expressionField hc hp hname (fun he => ?_) hvc
      rw [isHandlerName_iff.mpr he] at hon
      cases hon

/-- The kinds of placed nodes are those of the data model. -/
theorem Placed.isOneOf_root {X : Heads} {c : Node} (h : Placed X .root c) :
    c.IsOneOf bodyKinds := by
  cases h with
  | text hc _ _ | decoration hc _ _ | rawExpression hc _ | element hc _ _ _ _
  | component hc _ _ _ _ _ => exact ⟨_, by decide, hc⟩

theorem Placed.isOneOf_element {X : Heads} {c : Node} (h : Placed X .element c) :
    c.IsOneOf (.key :: attributeKinds ++ bodyKinds) := by
  obtain ⟨k, hk, hc⟩ := h.kind_in_element
  have hsub : ∀ k ∈ elementKinds, k ∈ Kind.key :: attributeKinds ++ bodyKinds := by decide
  exact ⟨k, hsub k hk, hc⟩

theorem Placed.isOneOf_component {X : Heads} {c : Node} (h : Placed X .component c) :
    c.IsOneOf (.spread :: fieldKinds ++ bodyKinds) := by
  obtain ⟨k, hk, hc⟩ := h.kind_in_component
  have hsub : ∀ k ∈ componentKinds, k ∈ Kind.spread :: fieldKinds ++ bodyKinds := by decide
  exact ⟨k, hsub k hk, hc⟩

/-- A node conforms with all nodes below it, if it does and those below its children do. -/
theorem conforms_subtrees {l : Label} {cs : List Node} (h : Conforms (.mk l cs))
    (hcs : ∀ c ∈ cs, ∀ s ∈ c.subtrees, Conforms s) : ∀ s ∈ Tree.subtrees (.mk l cs), Conforms s := by
  intro s hs
  rw [Tree.subtrees, List.mem_cons, Tree.mem_subtreesAll] at hs
  rcases hs with rfl | ⟨c, hc, hs⟩
  · exact h
  · exact hcs c hc s hs

theorem conforms_leaf {n : Node} (h : Conforms n) (hleaf : n.children = []) :
    ∀ s ∈ n.subtrees, Conforms s := by
  obtain ⟨l, cs⟩ := n
  obtain rfl : cs = [] := hleaf
  exact conforms_subtrees h nofun

/-- A node with a single leaf below it. -/
theorem conforms_pair {l : Label} {v : Node} (h : Conforms (.mk l [v])) (hv : Conforms v)
    (hleaf : v.children = []) : ∀ s ∈ Tree.subtrees (.mk l [v]), Conforms s := by
  refine conforms_subtrees h fun c hc => ?_
  cases List.mem_singleton.mp hc
  exact conforms_leaf hv hleaf

theorem children_of_value {v : Node} (h : IsString v ∨ IsExpression IsTrimmedText v) :
    v.children = [] := by
  rcases h with ⟨_, _, _, hleaf, _⟩ | ⟨_, _, _, hleaf, _⟩ <;> exact hleaf

/-- A placed node conforms, and all nodes below it do. -/
theorem Placed.conforms {m : Mode} {n : Node} (h : Placed Heads.plain m n) :
    ∀ s ∈ n.subtrees, Conforms s := by
  induction h with
  | text hc hb hq => exact conforms_leaf (.literal (.inr (.inl hc)) hb hq) rfl
  | decoration hc hs hX => exact conforms_leaf (.decoration hc hs hX) rfl
  | rawExpression hc he =>
    obtain ⟨s, hec, -⟩ := id he
    exact conforms_pair (.rawExpression hc hec) he.conforms (children_of_value (.inr he))
  | element hc hp htag hcs hkeys ih =>
    exact conforms_subtrees (.element hc hp htag (isBare_of_isPath (isPath_of_isTag htag))
      (fun c hm => (hcs c hm).isOneOf_element) hkeys) ih
  | component hc hp hpath htag hcs hspreads ih =>
    exact conforms_subtrees (.component hc hp hpath htag (isBare_of_isPath hpath)
      (fun c hm => (hcs c hm).isOneOf_component) hspreads) ih
  | key hc hb hq => exact conforms_leaf (.literal (.inl hc) hb hq) rfl
  | attr hp hname hc hv =>
    have hvalue := hv.imp_left And.left
    exact conforms_pair (conforms_attribute hp hname hc hv) (conforms_of_value hvalue)
      (children_of_value hvalue)
  | field hp hname hc hv =>
    exact conforms_pair (conforms_field hp hname hc hv) (conforms_of_value hv) (children_of_value hv)
  | spread hc he =>
    obtain ⟨s, hec, -⟩ := id he
    exact conforms_pair (.spread hc hec) he.conforms (children_of_value (.inr he))

/-- The root nodes of an accepted text are placed, with or without the tokens they were read from. -/
theorem placed_children {X : Heads} {origin : Bool} {text : List Char} {d : Node}
    (hX : X.Hold (lex .root text)) (h : read origin text = .ok d) :
    d.cls = .of .document ∧ ∀ n ∈ d.children, Placed X .root n := by
  cases origin with
  | false => exact placed_of_read hX h
  | true =>
    obtain rfl := read_eq_ok h
    obtain ⟨left, hf⟩ := formed_lex isBottom_root text
    exact ⟨rfl, placed_bodyNodes hf hX rfl (isOk_read_iff.mp ⟨_, h⟩)⟩

/-- A document that was read is of that class, and each of its nodes, at any depth, has the children
and the head that the data model asks for. -/
theorem conforms_of_read {origin : Bool} {text : List Char} {d : Node}
    (h : read origin text = .ok d) : d.cls = .of .document ∧ ∀ n ∈ d.subtrees, Conforms n := by
  obtain ⟨l, cs⟩ := d
  obtain ⟨hc, hplaced⟩ := placed_children (Heads.plain_hold _) h
  exact ⟨hc, conforms_subtrees (.document hc fun c hm => (hplaced c hm).isOneOf_root)
    fun c hm => (hplaced c hm).conforms⟩

/-- An element with a key, an event handler and a component in it. -/
def sampleItem : List Char :=
  "li\x7bkey: \"a\", onclick: f(1), Note\x7b..rest\x7d\x7d".toList

theorem sampleItem_conforms : ∃ d, read true sampleItem = .ok d ∧
    d.cls = .of .document ∧ ∀ n ∈ d.subtrees, Conforms n := by
  have hread : (read true sampleItem).toOption.isSome = true := by decide +kernel
  cases h : read true sampleItem with
  | error e =>
    rw [h] at hread
    cases hread
  | ok d => exact ⟨d, rfl, conforms_of_read h⟩

end BlockMarkup
