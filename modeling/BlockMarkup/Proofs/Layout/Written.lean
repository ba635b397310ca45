import BlockMarkup.Layout.Formatter
import BlockMarkup.Proofs.Document.Role

/-!
# BlockMarkup.Proofs.Layout.Written

The text that a script writes. `Script.Writes t` says that a script writes `t` and does not fail;
the parts of the formatter that nothing can make fail have one such lemma each.
-/

namespace BlockMarkup

open Text

namespace Script

/-- The script writes the text `t`, and does not fail. -/
structure Writes (s : Script) (t : List Char) : Prop where
  failure : s.failure = none
  text : s.chunks.flatten = t

namespace Writes

variable {a b : Script} {s t : List Char}

theorem empty : Script.empty.Writes [] := ⟨rfl, rfl⟩

theorem write : (Script.write t).Writes t := ⟨rfl, by simp [Script.write]⟩

theorem append (ha : a.Writes s) (hb : b.Writes t) : (a ++ b).Writes (s ++ t) := by
  have happ : a ++ b = ⟨a.chunks ++ b.chunks, b.failure⟩ := by
    show Script.append a b = _
    rw [Script.append, ha.failure]
  rw [happ]
  exact ⟨hb.failure, by rw [List.flatten_append, ha.text, hb.text]⟩

theorem result (h : a.Writes t) : a.result = .ok t := by
  rw [Script.result, h.failure]
  exact congrArg Except.ok h.text

theorem of_result (h : a.result = .ok t) : a.Writes t := by
  rw [Script.result] at h
  split at h
  · cases h
  · rename_i hf
    cases h
    exact ⟨hf, rfl⟩

theorem congr (h : a.Writes s) (he : s = t) : a.Writes t := he ▸ h

end Writes

/-- What holds of each of some scripts holds of the whole row. -/
theorem of_concat_map {P : Script → Prop} (hempty : P .empty)
    (happend : ∀ {a b : Script}, P a → P b → P (a ++ b)) {α : Type} {g : α → Script} {xs : List α}
    (h : ∀ x ∈ xs, P (g x)) : P (concat (xs.map g)) := by
  induction xs with
  | nil => exact hempty
  | cons x xs ih =>
    exact happend (h x List.mem_cons_self) (ih fun y hy => h y (List.mem_cons_of_mem _ hy))

end Script

/-- The lines after the first one, from line `i` on: those that start inside a literal as they are,
and the others behind a margin. -/
def hungLines (margin : List Char) (literal : List Nat) : Nat → List (List Char) → List Char
  | _, [] => []
  | i, l :: ls =>
    '\n' :: ((if literal.contains i then [] else margin) ++ l) ++
      hungLines margin literal (i + 1) ls

/-- An expression with its further lines behind a margin. -/
def hung (margin text : List Char) : List Char :=
  match lines text with
  | [] => []
  | first :: rest => first ++ hungLines margin (literalLines text) 1 rest

theorem isBlank_of_mem_indent (width depth : Int) : ∀ c ∈ indent width depth, isBlank c = true := by
  intro c hc
  rw [List.eq_of_mem_replicate hc]
  decide

theorem feed_not_mem_indent (width depth : Int) : '\n' ∉ indent width depth := by
  intro hmem
  cases List.eq_of_mem_replicate hmem

/-- A document is written root by root. -/
theorem Node.write_document (f : Formatter) {d : Node} (hc : d.cls = .of .document) :
    d.write f = (f.nodes d.children).result := by
  have hentity : d.isA .entity = true := Node.isA_of_cls hc
  have hdocument : d.isA .document = true := Node.isA_of_cls hc
  rw [Node.write, if_pos hentity, Formatter.write, Formatter.roots, if_pos hdocument]

namespace Formatter

variable (f : Formatter) (depth : Int)

/-- The white space in front of a line. -/
def margin : List Char := indent f.indentWidth depth

theorem blank_margin : ∀ c ∈ f.margin depth, isBlank c = true := isBlank_of_mem_indent _ _

theorem feed_not_mem_margin : '\n' ∉ f.margin depth := feed_not_mem_indent _ _

theorem tabs_writes : (f.tabs depth).Writes (f.margin depth) := .write

theorem line_writes (text : List Char) :
    (f.line depth text).Writes (f.margin depth ++ (text ++ ['\n'])) :=
  (f.tabs_writes depth).append .write

theorem headLine_writes (s tail : List Char) :
    (f.headLine depth (some s) tail).Writes (f.margin depth ++ (s ++ tail ++ ['\n'])) :=
  f.line_writes depth _

theorem keyLine_writes {n : Node} {s : List Char} (h : n.head = some s) (hasAttributes : Bool) :
    (f.keyLine depth hasAttributes n).Writes (f.margin depth ++ ("key: ".toList ++ quote s) ++
      (if hasAttributes then [',', '\n'] else ['\n'])) := by
  unfold keyLine
  rw [h]
  exact ((f.tabs_writes depth).append .write).append .write

theorem furtherLines_writes (literal : List Nat) (ls : List (List Char)) : ∀ i,
    (f.furtherLines depth literal i ls).Writes (hungLines (f.margin depth) literal i ls) := by
  induction ls with
  | nil => intro i; exact .empty
  | cons l ls ih =>
    intro i
    have hmargin : (if literal.contains i then Script.empty else f.tabs depth).Writes
        (if literal.contains i then [] else f.margin depth) := by
      split
      · exact .empty
      · exact f.tabs_writes depth
    refine (((Script.Writes.write.append hmargin).append .write).append (ih (i + 1))).congr ?_
    simp [hungLines]

theorem valueLines_writes (lead tail text : List Char) :
    (f.valueLines depth lead tail (lines text)).Writes
      (f.margin depth ++ (lead ++ hung (f.margin depth) text) ++ (tail ++ ['\n'])) := by
  unfold hung
  cases hl : lines text with
  | nil => exact absurd hl (lines_ne_nil text)
  | cons first rest =>
    have hfurther : (f.furtherLines depth
        (if rest.isEmpty then [] else literalLines (unlines (first :: rest))) 1 rest).Writes
        (hungLines (f.margin depth) (literalLines text) 1 rest) := by
      cases rest with
      | nil => exact .empty
      | cons l ls =>
        rw [← hl, unlines_lines]
        exact f.furtherLines_writes depth _ _ _
    refine ((((f.tabs_writes depth).append .write).append hfurther).append .write).congr ?_
    simp [List.append_assoc]

theorem value_of_string {v : Node} {s : List Char} (hc : v.cls = .of .string)
    (hs : v.head = some s) (lead tail : List Char) :
    f.value depth lead tail (some v) = f.valueLines depth lead tail [quote s] := by
  have hstring : v.isA .string = true := by
    show v.cls.isA .string = true
    rw [hc]; rfl
  simp only [value, hstring, if_true, hs]
  rfl

theorem value_of_expression {v : Node} {s : List Char} (hr : f.renderer = .tidy)
    (hc : v.cls = .of .expression) (hs : v.head = some s) (lead tail : List Char) :
    f.value depth lead tail (some v) = f.valueLines depth lead tail (lines (tidy s)) := by
  have hexpression : v.isA .string = false := by
    show v.cls.isA .string = false
    rw [hc]; rfl
  have hlines : f.renderer.lines v = .ok (lines (tidy s)) := by
    simp [hr, Renderer.lines, Renderer.tidy, Renderer.ofHead, hs]
  simp only [value, hexpression, hlines]
  rfl

/-- A string or an expression has a written form. -/
theorem value_writes_string {v : Node} {s : List Char} (hc : v.cls = .of .string)
    (hs : v.head = some s) (lead tail : List Char) :
    (f.value depth lead tail (some v)).Writes
      (f.margin depth ++ (lead ++ quote s) ++ (tail ++ ['\n'])) := by
  rw [f.value_of_string depth hc hs]
  refine ((((f.tabs_writes depth).append .write).append .empty).append .write).congr ?_
  simp

theorem value_writes_expression {v : Node} {s : List Char} (hr : f.renderer = .tidy)
    (hc : v.cls = .of .expression) (hs : v.head = some s) (lead tail : List Char) :
    (f.value depth lead tail (some v)).Writes
      (f.margin depth ++ (lead ++ hung (f.margin depth) (tidy s)) ++ (tail ++ ['\n'])) := by
  rw [f.value_of_expression depth hr hc hs]
  exact f.valueLines_writes depth _ _ _

/-- The body nodes of a block are written one after the other. -/
theorem body_eq (ns : List Node) : f.body depth ns =
    .concat ((ns.filter fun (n : Node) => n.isA .bodyNode).map (f.node depth)) := by
  induction ns with
  | nil => rfl
  | cons n ns ih =>
    obtain ⟨l, cs⟩ := n
    have hisA : Node.isA (.mk l cs) .bodyNode = l.isA .bodyNode := rfl
    cases hl : l.isA .bodyNode with
    | true =>
      rw [List.filter_cons_of_pos (by rw [hisA, hl]), List.map_cons, Script.concat, ← ih]
      simp [body, hl]
    | false =>
      rw [List.filter_cons_of_neg (by rw [hisA, hl]; decide), ← ih]
      simp [body, hl]

/-! ## Nodes by their parts -/

/-- What stands as a value has a head. -/
theorem isA_textual_of_child? {n v : Node} {ks : List Kind}
    (hks : ∀ k ∈ ks, k = .string ∨ k = .expression) (h : n.child? ks = some v) :
    v.isA .textual = true := by
  have htextual : ∀ i j : Kind, i = .string ∨ i = .expression → j.isA i = true →
      j.isA .textual = true := by
    rintro i j (rfl | rfl) <;> cases j <;> decide
  have hany : v.isAny ks = true := List.find?_some (p := fun (c : Node) => c.isAny ks) h
  obtain ⟨k, hk, hv⟩ := List.any_eq_true.mp hany
  exact htextual k _ (hks k hk) hv

theorem checkChildren_eq_empty {n : Node} {kinds : List Kind}
    (h : ∀ c : Node, c ∈ n.children → c.isAny kinds = true) : checkChildren n kinds = .empty := by
  unfold checkChildren
  have hnone : n.children.find? (fun (c : Node) => !c.isAny kinds) = none := by
    rw [List.find?_eq_none]
    intro c hc
    simp [h c hc]
  rw [hnone]

theorem checkKeys_eq_empty {n : Node} (h : (n.childrenOf .key).length ≤ 1) :
    checkKeys n = .empty := by
  unfold checkKeys
  split
  · rename_i hk
    rw [hk] at h
    simp at h
  · rfl

/-- The script of an element with a name whose children have their places in it. -/
theorem node_element_of_roles {l : Label} {p : List Char} {cs : List Node}
    (hc : l.cls = .of .element) (hp : l.head = some p)
    (hcs : ∀ c : Node, c ∈ cs →
      c.isA .key = true ∨ c.isA .attribute = true ∨ c.isA .bodyNode = true)
    (hkeys : (Node.childrenOf (.mk l cs) .key).length ≤ 1) :
    f.node depth (.mk l cs) = f.headLine depth (some p) [' ', '\x7b'] ++
      .concat ((Node.childrenOf (.mk l cs) .key).map
        (f.keyLine (depth + 1) !(Node.childrenOf (.mk l cs) .attribute).isEmpty)) ++
      .concat ((Node.childrenOf (.mk l cs) .attribute).map (f.attributeLines (depth + 1))) ++
      .concat ((Node.childrenOf (.mk l cs) .bodyNode).map (f.node (depth + 1))) ++
      f.line depth ['\x7d'] := by
  have hchildren : checkChildren (.mk l cs) [.key, .attribute, .bodyNode] = .empty :=
    checkChildren_eq_empty fun c hm => Node.isAny_of_isA (hcs c hm)
  have hhead : Node.head (.mk l cs) = some p := hp
  unfold node
  rw [hc]
  simp only
  rw [hchildren, checkKeys_eq_empty hkeys, elementHead, hhead, f.body_eq, Script.empty_append,
    Script.empty_append]
  rfl

theorem node_component_of_roles {l : Label} {p : List Char} {cs : List Node}
    (hc : l.cls = .of .component) (hp : l.head = some p)
    (hcs : ∀ c : Node, c ∈ cs →
      c.isA .field = true ∨ c.isA .spread = true ∨ c.isA .bodyNode = true) :
    f.node depth (.mk l cs) = f.headLine depth (some p) [' ', '\x7b'] ++
      .concat ((Node.childrenOf (.mk l cs) .field).map (f.fieldLines (depth + 1))) ++
      .concat ((Node.childrenOf (.mk l cs) .spread).map (f.spreadLines (depth + 1))) ++
      .concat ((Node.childrenOf (.mk l cs) .bodyNode).map (f.node (depth + 1))) ++
      f.line depth ['\x7d'] := by
  have hchildren : checkChildren (.mk l cs) [.field, .spread, .bodyNode] = .empty :=
    checkChildren_eq_empty fun c hm => Node.isAny_of_isA (hcs c hm)
  have hhead : Node.head (.mk l cs) = some p := hp
  unfold node
  rw [hc]
  simp only
  rw [hchildren, componentHead, hhead, f.body_eq, Script.empty_append]
  rfl

/-- The script of a placed element. -/
theorem node_element {X : Heads} {l : Label} {p : List Char} {cs : List Node}
    (hc : l.cls = .of .element) (hp : l.head = some p)
    (hcs : ∀ c : Node, c ∈ cs → Placed X .element c)
    (hkeys : (cs.filter fun (c : Node) => c.kind = .key).length ≤ 1) :
    f.node depth (.mk l cs) = f.headLine depth (some p) [' ', '\x7b'] ++
      .concat ((Node.childrenOf (.mk l cs) .key).map
        (f.keyLine (depth + 1) !(Node.childrenOf (.mk l cs) .attribute).isEmpty)) ++
      .concat ((Node.childrenOf (.mk l cs) .attribute).map (f.attributeLines (depth + 1))) ++
      .concat ((Node.childrenOf (.mk l cs) .bodyNode).map (f.node (depth + 1))) ++
      f.line depth ['\x7d'] := by
  have hfilter : Node.childrenOf (.mk l cs) .key = cs.filter fun (c : Node) => c.kind = .key :=
    List.filter_congr fun c hm => (hcs c hm).isA_key_iff
  exact f.node_element_of_roles depth hc hp (fun c hm => (hcs c hm).role_in_element)
    (by rwa [hfilter])

/-- The script of a placed component. -/
theorem node_component {X : Heads} {l : Label} {p : List Char} {cs : List Node}
    (hc : l.cls = .of .component) (hp : l.head = some p)
    (hcs : ∀ c : Node, c ∈ cs → Placed X .component c) :
    f.node depth (.mk l cs) = f.headLine depth (some p) [' ', '\x7b'] ++
      .concat ((Node.childrenOf (.mk l cs) .field).map (f.fieldLines (depth + 1))) ++
      .concat ((Node.childrenOf (.mk l cs) .spread).map (f.spreadLines (depth + 1))) ++
      .concat ((Node.childrenOf (.mk l cs) .bodyNode).map (f.node (depth + 1))) ++
      f.line depth ['\x7d'] :=
  f.node_component_of_roles depth hc hp fun c hm => (hcs c hm).role_in_component

end Formatter
end BlockMarkup
