import BlockMarkup.Proofs.Document.Placed

/-!
# BlockMarkup.Proofs.Document.Role

The children of placed blocks by their roles. In an element each child is a key, an attribute or a
body node (`Placed.role_in_element`), in a component a field, a spread or a body node, and what is a
key, an attribute, a field or a spread has the shape of one.
-/

namespace BlockMarkup

open Text

theorem Node.isA_of_cls {n : Node} {k j : Kind} (hc : n.cls = .of k) : n.isA j = k.isA j := by
  show n.cls.isA j = _
  rw [hc]
  rfl

theorem Node.kind_of_cls {n : Node} {k : Kind} (hc : n.cls = .of k) : n.kind = k := by
  show n.cls.kind = _
  rw [hc]
  rfl

theorem Node.isAny_of_isA {c : Node} {i j k : Kind}
    (h : c.isA i = true ∨ c.isA j = true ∨ c.isA k = true) : c.isAny [i, j, k] = true := by
  show ([i, j, k].any c.label.cls.isA) = true
  rw [List.any_cons, List.any_cons, List.any_cons, List.any_nil, Bool.or_false, Bool.or_eq_true,
    Bool.or_eq_true]
  exact h

/-- The kinds of nodes in an element. -/
def elementKinds : List Kind :=
  [.text, .decoration, .rawExpression, .element, .component, .key, .customTextAttribute,
    .customExpressionAttribute, .textAttribute, .eventHandler, .expressionAttribute]

/-- The kinds of nodes in a component. -/
def componentKinds : List Kind :=
  [.text, .decoration, .rawExpression, .element, .component, .formattedField, .handlerField,
    .expressionField, .spread]

namespace Placed

variable {X : Heads} {c : Node}

theorem kind_in_element (h : Placed X .element c) : ∃ k ∈ elementKinds, c.cls = .of k := by
  cases h with
  | text hc _ _ | decoration hc _ _ | rawExpression hc _ | element hc _ _ _ _
  | component hc _ _ _ _ _ | key hc _ _ => exact ⟨_, by decide, hc⟩
  | @attr l p v _ _ hc _ =>
    refine ⟨_, ?_, hc⟩
    rcases attributeKind_cases p (v.kind = .string) with hk | hk | hk | hk | hk <;> rw [hk] <;> decide

theorem kind_in_component (h : Placed X .component c) : ∃ k ∈ componentKinds, c.cls = .of k := by
  cases h with
  | text hc _ _ | decoration hc _ _ | rawExpression hc _ | element hc _ _ _ _
  | component hc _ _ _ _ _ | spread hc _ => exact ⟨_, by decide, hc⟩
  | @field l p v _ _ hc _ =>
    refine ⟨_, ?_, hc⟩
    rcases fieldKind_cases p (v.kind = .string) with hk | hk | hk <;> rw [hk] <;> decide

theorem role_in_element (h : Placed X .element c) :
    c.isA .key = true ∨ c.isA .attribute = true ∨ c.isA .bodyNode = true := by
  obtain ⟨k, hk, hc⟩ := h.kind_in_element
  have hroles : ∀ k ∈ elementKinds,
      k.isA .key = true ∨ k.isA .attribute = true ∨ k.isA .bodyNode = true := by decide
  simp only [Node.isA_of_cls hc]
  exact hroles k hk

theorem role_in_component (h : Placed X .component c) :
    c.isA .field = true ∨ c.isA .spread = true ∨ c.isA .bodyNode = true := by
  obtain ⟨k, hk, hc⟩ := h.kind_in_component
  have hroles : ∀ k ∈ componentKinds,
      k.isA .field = true ∨ k.isA .spread = true ∨ k.isA .bodyNode = true := by decide
  simp only [Node.isA_of_cls hc]
  exact hroles k hk

/-- Keys are the nodes of exactly this kind. -/
theorem isA_key_iff (h : Placed X .element c) : c.isA .key = decide (c.kind = .key) := by
  obtain ⟨k, hk, hc⟩ := h.kind_in_element
  have hkeys : ∀ k ∈ elementKinds, k.isA .key = decide (k = .key) := by decide
  rw [Node.isA_of_cls hc, Node.kind_of_cls hc]
  exact hkeys k hk

/-- A placed root node is a body node. -/
theorem isA_bodyNode (h : Placed X .root c) : c.isA .bodyNode = true := by
  cases h with
  | text hc _ _ | decoration hc _ _ | rawExpression hc _ | element hc _ _ _ _
  | component hc _ _ _ _ _ => exact Node.isA_of_cls (n := .mk _ _) hc

theorem inv_key (h : Placed X .element c) (hk : c.isA .key = true) :
    ∃ (l : Label) (b : List Char), c = .mk l [] ∧ l.cls = .of .key ∧ l.head = some b ∧ isQuotable b = true := by
  cases h with
  | key hc hb hq => exact ⟨_, _, rfl, hc, hb, hq⟩
  | text hc _ _ | decoration hc _ _ | rawExpression hc _ | element hc _ _ _ _
  | component hc _ _ _ _ _ =>
    rw [Node.isA_of_cls (n := .mk _ _) hc] at hk
    cases hk
  | @attr l p v _ _ hc _ =>
    rw [Node.isA_of_cls (n := .mk _ _) hc] at hk
    rcases attributeKind_cases p (v.kind = .string) with he | he | he | he | he <;>
      (rw [he] at hk; cases hk)

theorem inv_attr (h : Placed X .element c) (hk : c.isA .attribute = true) :
    ∃ (l : Label) (p : List Char) (v : Node), c = .mk l [v] ∧ l.head = some p ∧ IsAttributeName p ∧
      l.cls = .of (attributeKind p (v.kind = .string)) ∧
      (IsString v ∧ p ≠ "key".toList ∨ IsExpression X.value v) := by
  cases h with
  | attr hp hname hc hv => exact ⟨_, _, _, rfl, hp, hname, hc, hv⟩
  | text hc _ _ | decoration hc _ _ | rawExpression hc _ | element hc _ _ _ _
  | component hc _ _ _ _ _ | key hc _ _ =>
    rw [Node.isA_of_cls (n := .mk _ _) hc] at hk
    cases hk

theorem inv_field (h : Placed X .component c) (hk : c.isA .field = true) :
    ∃ (l : Label) (p : List Char) (v : Node), c = .mk l [v] ∧ l.head = some p ∧ isName p = true ∧
      l.cls = .of (fieldKind p (v.kind = .string)) ∧ (IsString v ∨ IsExpression X.value v) := by
  cases h with
  | field hp hname hc hv => exact ⟨_, _, _, rfl, hp, hname, hc, hv⟩
  | text hc _ _ | decoration hc _ _ | rawExpression hc _ | element hc _ _ _ _
  | component hc _ _ _ _ _ | spread hc _ =>
    rw [Node.isA_of_cls (n := .mk _ _) hc] at hk
    cases hk

theorem inv_spread (h : Placed X .component c) (hk : c.isA .spread = true) :
    ∃ (l : Label) (e : Node), c = .mk l [e] ∧ l.cls = .of .spread ∧ IsExpression X.spread e := by
  cases h with
  | spread hc he => exact ⟨_, _, rfl, hc, he⟩
  | text hc _ _ | decoration hc _ _ | rawExpression hc _ | element hc _ _ _ _
  | component hc _ _ _ _ _ =>
    rw [Node.isA_of_cls (n := .mk _ _) hc] at hk
    cases hk
  | @field l p v _ _ hc _ =>
    rw [Node.isA_of_cls (n := .mk _ _) hc] at hk
    rcases fieldKind_cases p (v.kind = .string) with he | he | he <;> (rw [he] at hk; cases hk)

/-- What is no body node by its place is none by its class. -/
theorem not_bodyNode_of_attr {l : Label} {p : List Char} {v : Node}
    (hc : l.cls = .of (attributeKind p (v.kind = .string))) :
    Node.isA (.mk l [v]) .bodyNode = false := by
  rw [Node.isA_of_cls (n := .mk l [v]) hc]
  rcases attributeKind_cases p (v.kind = .string) with hk | hk | hk | hk | hk <;> (rw [hk]; rfl)

theorem not_bodyNode_of_field {l : Label} {p : List Char} {v : Node}
    (hc : l.cls = .of (fieldKind p (v.kind = .string))) :
    Node.isA (.mk l [v]) .bodyNode = false := by
  rw [Node.isA_of_cls (n := .mk l [v]) hc]
  rcases fieldKind_cases p (v.kind = .string) with hk | hk | hk <;> (rw [hk]; rfl)

end Placed
end BlockMarkup
