import BlockMarkup.Proofs.Layout.Written
import Mathlib.Data.List.Forall2

/-!
# BlockMarkup.Proofs.Layout.Alike

Equal nodes are formatted alike: their scripts write the same texts, and they end in the same way
(`Formatter.node_alike`). Where a script fails for want of a written form, the nodes at fault are
equal; the words for them may differ, since they tell where a node was read.
-/

namespace BlockMarkup

/-! ## Equal nodes -/

theorem Label.same_iff {l k : Label} : l.same k = true ↔
    l.cls = k.cls ∧ (l.isA .textual = true → l.head = k.head) := by
  rw [Label.same, Bool.and_eq_true, decide_eq_true_eq, Bool.or_eq_true, decide_eq_true_eq]
  cases l.isA .textual <;> simp

namespace Node

/-- The nodes have the same classes, heads and children. -/
def Same (a b : Node) : Prop := a.equals b = true

theorem same_mk_iff {l k : Label} {cs ds : List Node} :
    Same (.mk l cs) (.mk k ds) ↔ l.same k = true ∧ List.Forall₂ Same cs ds := by
  have hall : equalsAll cs ds = true ↔ List.Forall₂ Same cs ds := by
    induction cs generalizing ds with
    | nil => cases ds <;> simp [equalsAll]
    | cons c cs ih =>
      cases ds with
      | nil => simp [equalsAll]
      | cons d ds => rw [equalsAll, Bool.and_eq_true, List.forall₂_cons, ih, Same]
  rw [Same, equals, Bool.and_eq_true, hall]

namespace Same

variable {a b : Node}

theorem cls_eq (h : a.Same b) : a.cls = b.cls := by
  obtain ⟨l, cs⟩ := a
  obtain ⟨k, ds⟩ := b
  exact (Label.same_iff.mp (same_mk_iff.mp h).1).1

theorem isA_eq (h : a.Same b) (k : Kind) : a.isA k = b.isA k :=
  congrArg (fun c : NodeClass => c.isA k) h.cls_eq

theorem isAny_eq (h : a.Same b) (ks : List Kind) : a.isAny ks = b.isAny ks :=
  congrArg (fun c : NodeClass => c.isAny ks) h.cls_eq

theorem head_eq (h : a.Same b) (ha : a.isA .textual = true) : a.head = b.head := by
  obtain ⟨l, cs⟩ := a
  obtain ⟨k, ds⟩ := b
  exact (Label.same_iff.mp (same_mk_iff.mp h).1).2 ha

theorem head_eq_of_cls (h : a.Same b) {k : Kind} (hc : a.cls = .of k)
    (hk : k.isA .textual = true) : a.head = b.head := h.head_eq (by rw [isA_of_cls hc, hk])

theorem children (h : a.Same b) : List.Forall₂ Same a.children b.children := by
  obtain ⟨l, cs⟩ := a
  obtain ⟨k, ds⟩ := b
  exact (same_mk_iff.mp h).2

theorem childrenOf (h : a.Same b) (k : Kind) :
    List.Forall₂ Same (a.childrenOf k) (b.childrenOf k) :=
  List.rel_filter (fun c d h => show c.isA k = true ↔ d.isA k = true by rw [h.isA_eq]) h.children

end Same

mutual

/-- A change of labels that keeps classes and heads gives an equal node. -/
theorem same_map {g : Label → Label} (hg : ∀ l : Label, l.same (g l) = true) :
    (n : Node) → n.Same (n.map g)
  | .mk l cs => by
    rw [Tree.map]
    exact same_mk_iff.mpr ⟨hg l, same_mapAll hg cs⟩

theorem same_mapAll {g : Label → Label} (hg : ∀ l : Label, l.same (g l) = true) :
    (ns : List Node) → List.Forall₂ Same ns (Tree.mapAll g ns)
  | [] => .nil
  | n :: ns => .cons (same_map hg n) (same_mapAll hg ns)

end

/-- Where a node was read does not count. -/
theorem same_forgetOrigin (n : Node) : n.Same n.forgetOrigin :=
  same_map (g := withoutOrigin) (fun _ => Label.same_iff.mpr ⟨rfl, fun _ => rfl⟩) n

/-- The first of some nodes with a property that equal nodes share. -/
theorem find?_same {p : Node → Bool} (hp : ∀ {a b : Node}, a.Same b → p a = p b)
    {as bs : List Node} (h : List.Forall₂ Same as bs) :
    Option.Rel Same (as.find? p) (bs.find? p) := by
  induction h with
  | nil => exact .none
  | @cons a b as bs hab hrest ih =>
    rw [List.find?_cons, List.find?_cons, hp hab]
    split
    · exact .some hab
    · exact ih

theorem Same.child? {a b : Node} (h : a.Same b) (ks : List Kind) :
    Option.Rel Same (a.child? ks) (b.child? ks) :=
  find?_same (fun h => h.isAny_eq ks) h.children

end Node

/-! ## Scripts alike -/

/-- The same want of a written form, at equal nodes. -/
inductive Unsupported.Alike : Unsupported → Unsupported → Prop where
  | node {a b : Node} : a.Same b → Alike (.node a) (.node b)
  | misplaced {c d a b : Node} : c.Same d → a.Same b → Alike (.misplaced c a) (.misplaced d b)
  | secondKey {k l a b : Node} : k.Same l → a.Same b → Alike (.secondKey k a) (.secondKey l b)
  | noValue : Alike .noValue .noValue
  | quotedName {a b : Node} : a.Same b → Alike (.quotedName a) (.quotedName b)

inductive Failure.Alike : Failure → Failure → Prop where
  | same (f : Failure) : Alike f f
  | unsupported {u v : Unsupported} : u.Alike v → Alike (.unsupported u) (.unsupported v)

namespace Script

/-- The scripts write the same texts and end in the same way. -/
structure Alike (s t : Script) : Prop where
  chunks : s.chunks = t.chunks
  failure : Option.Rel Failure.Alike s.failure t.failure

namespace Alike

variable {a b c d : Script}

theorem refl (s : Script) : s.Alike s := by
  refine ⟨rfl, ?_⟩
  cases s.failure with
  | none => exact .none
  | some f => exact .some (.same f)

theorem of_eq (h : a = b) : a.Alike b := h ▸ refl a

theorem unsupported {u v : Unsupported} (h : u.Alike v) :
    (Script.unsupported u).Alike (.unsupported v) := ⟨rfl, .some (.unsupported h)⟩

theorem append (h : a.Alike b) (h' : c.Alike d) : (a ++ c).Alike (b ++ d) := by
  show (Script.append a c).Alike (Script.append b d)
  have hfailure := h.failure
  unfold Script.append
  cases ha : a.failure <;> cases hb : b.failure <;> rw [ha, hb] at hfailure
  · exact ⟨congrArg₂ (· ++ ·) h.chunks h'.chunks, h'.failure⟩
  · cases hfailure
  · cases hfailure
  · exact h

theorem concat_map {g g' : Node → Script} {as bs : List Node}
    (h : List.Forall₂ (fun n m => (g n).Alike (g' m)) as bs) :
    (concat (as.map g)).Alike (concat (bs.map g')) := by
  induction h with
  | nil => exact refl _
  | cons hab _ ih => exact hab.append ih

/-- Scripts alike give the same text, or they both fail, in the same way. -/
theorem result (h : a.Alike b) : (∃ t, a.result = .ok t ∧ b.result = .ok t) ∨
    ∃ f g, a.result = .error f ∧ b.result = .error g ∧ f.Alike g := by
  have hfailure := h.failure
  unfold Script.result
  cases ha : a.failure <;> cases hb : b.failure <;> rw [ha, hb] at hfailure
  · exact .inl ⟨_, rfl, by rw [h.chunks]⟩
  · cases hfailure
  · cases hfailure
  · cases hfailure with
    | some hfg => exact .inr ⟨_, _, rfl, rfl, hfg⟩

end Alike
end Script

/-! ## Formatting equal nodes -/

/-- The renderer makes no difference between equal nodes with a head. -/
def Renderer.Respects (r : Renderer) : Prop :=
  ∀ {a b : Node}, a.Same b → a.isA .textual = true → r.render a = r.render b

theorem Renderer.ofHead_respects (g : List Char → List Char) : (ofHead g).Respects := by
  intro a b h ha
  simp only [ofHead, h.head_eq ha]

theorem Renderer.Respects.lines {r : Renderer} (hr : r.Respects) {a b : Node} (h : a.Same b)
    (ha : a.isA .textual = true) : r.lines a = r.lines b := by
  rw [Renderer.lines, Renderer.lines, hr h ha]

namespace Formatter

open Script

variable {a b : Node} (f : Formatter) (depth : Int)

theorem value_alike (hr : f.renderer.Respects) (h : a.Same b) {ks : List Kind}
    (hks : ∀ k ∈ ks, k = .string ∨ k = .expression) (lead tail : List Char) :
    (f.value depth lead tail (a.child? ks)).Alike (f.value depth lead tail (b.child? ks)) := by
  have hvalue := h.child? ks
  cases ha : a.child? ks <;> cases hb : b.child? ks <;> rw [ha, hb] at hvalue
  · exact .refl _
  · cases hvalue
  · cases hvalue
  · cases hvalue with
    | some hvw =>
      have hhead := isA_textual_of_child? hks ha
      refine .of_eq ?_
      rw [value, value, hvw.isA_eq, hvw.head_eq hhead, hr.lines hvw hhead]

theorem nameValue_alike (hr : f.renderer.Respects) (h : a.Same b) {k : Kind} (hc : a.cls = .of k)
    (hk : k.isA .textual = true) : (f.nameValue depth a).Alike (f.nameValue depth b) := by
  rw [nameValue, nameValue, h.head_eq_of_cls hc hk]
  cases b.head with
  | none => exact .refl _
  | some name => exact f.value_alike depth hr h (by simp) _ _

theorem keyLine_alike (h : a.Same b) (hk : a.isA .key = true) (hasAttributes : Bool) :
    (f.keyLine depth hasAttributes a).Alike (f.keyLine depth hasAttributes b) := by
  have htextual : ∀ k : Kind, k.isA .key = true → k.isA .textual = true := by
    intro k
    cases k <;> decide
  refine .of_eq ?_
  rw [keyLine, keyLine, h.head_eq (htextual _ hk)]

theorem attributeLines_alike (hr : f.renderer.Respects) (h : a.Same b) :
    (f.attributeLines depth a).Alike (f.attributeLines depth b) := by
  have hc := h.cls_eq
  unfold attributeLines
  rw [← hc]
  split
  · rename_i hk
    exact f.nameValue_alike depth hr h hk rfl
  · rename_i hk
    exact f.nameValue_alike depth hr h hk rfl
  · rename_i hk
    exact f.nameValue_alike depth hr h hk rfl
  · exact .unsupported (.quotedName h)
  · exact .unsupported (.quotedName h)
  · exact .refl _
  · exact .unsupported (.node h)

theorem fieldLines_alike (hr : f.renderer.Respects) (h : a.Same b) :
    (f.fieldLines depth a).Alike (f.fieldLines depth b) := by
  have hc := h.cls_eq
  unfold fieldLines
  rw [← hc]
  split
  · rename_i hk
    exact f.nameValue_alike depth hr h hk rfl
  · rename_i hk
    exact f.nameValue_alike depth hr h hk rfl
  · rename_i hk
    exact f.nameValue_alike depth hr h hk rfl
  · exact .unsupported (.node h)

theorem spreadLines_alike (hr : f.renderer.Respects) (h : a.Same b) :
    (f.spreadLines depth a).Alike (f.spreadLines depth b) :=
  f.value_alike depth hr h (by simp) _ _

theorem checkChildren_alike (h : a.Same b) (kinds : List Kind) :
    (checkChildren a kinds).Alike (checkChildren b kinds) := by
  have hfind := Node.find?_same (p := fun (c : Node) => !c.isAny kinds)
    (fun h => by rw [h.isAny_eq]) h.children
  unfold checkChildren
  cases ha : a.children.find? (fun (c : Node) => !c.isAny kinds) <;>
    cases hb : b.children.find? (fun (c : Node) => !c.isAny kinds) <;> rw [ha, hb] at hfind
  · exact .refl _
  · cases hfind
  · cases hfind
  · cases hfind with
    | some hcd => exact .unsupported (.misplaced hcd h)

theorem checkKeys_alike (h : a.Same b) : (checkKeys a).Alike (checkKeys b) := by
  have hkeys := h.childrenOf .key
  unfold checkKeys
  generalize a.childrenOf .key = ks at hkeys
  generalize b.childrenOf .key = ls at hkeys
  rcases hkeys with - | ⟨-, - | ⟨hsecond, -⟩⟩
  · exact .refl _
  · exact .refl _
  · exact .unsupported (.secondKey hsecond h)

theorem headLine_alike {k : Kind} (h : a.Same b) (hc : a.cls = .of k) (hk : k.isA .textual = true)
    (tail : List Char) : (f.headLine depth a.head tail).Alike (f.headLine depth b.head tail) :=
  .of_eq (by rw [h.head_eq_of_cls hc hk])

/-- The children of one kind are written alike. -/
theorem childrenOf_alike (h : a.Same b) (k : Kind) {g : Node → Script}
    (hg : ∀ {c d : Node}, c.Same d → c.isA k = true → (g c).Alike (g d)) :
    (concat ((a.childrenOf k).map g)).Alike (concat ((b.childrenOf k).map g)) := by
  have hkind : ∀ c ∈ a.childrenOf k, c.isA k = true := fun c hc => (Node.mem_childrenOf.mp hc).2
  exact .concat_map ((List.forall₂_and_left _ _).mpr ⟨hkind, h.childrenOf k⟩ |>.imp
    fun _ _ hcd => hg hcd.2 hcd.1)

theorem elementHead_alike (hr : f.renderer.Respects) (h : a.Same b) (hc : a.cls = .of .element) :
    (f.elementHead depth a).Alike (f.elementHead depth b) := by
  have hempty : (a.childrenOf .attribute).isEmpty = (b.childrenOf .attribute).isEmpty := by
    rw [Bool.eq_iff_iff, List.isEmpty_iff_length_eq_zero, List.isEmpty_iff_length_eq_zero,
      (h.childrenOf .attribute).length_eq]
  unfold elementHead
  simp only [hempty]
  exact ((f.headLine_alike depth h hc rfl _).append
    (childrenOf_alike h .key fun h hk => f.keyLine_alike _ h hk _)).append
    (childrenOf_alike h .attribute fun h _ => f.attributeLines_alike _ hr h)

theorem componentHead_alike (hr : f.renderer.Respects) (h : a.Same b)
    (hc : a.cls = .of .component) : (f.componentHead depth a).Alike (f.componentHead depth b) :=
  ((f.headLine_alike depth h hc rfl _).append
    (childrenOf_alike h .field fun h _ => f.fieldLines_alike _ hr h)).append
    (childrenOf_alike h .spread fun h _ => f.spreadLines_alike _ hr h)

mutual

/-- Equal nodes are formatted alike. -/
theorem node_alike (hr : f.renderer.Respects) (depth : Int) : (a b : Node) → a.Same b →
    (f.node depth a).Alike (f.node depth b)
  | .mk l cs, .mk k ds, h => by
    have hbody := body_alike hr (depth + 1) cs ds h.children
    have hc : l.cls = k.cls := h.cls_eq
    unfold node
    simp only
    rw [← hc]
    split
    · rename_i hk
      exact ((((checkChildren_alike h _).append (checkKeys_alike h)).append
        (f.elementHead_alike depth hr h hk)).append hbody).append (.refl _)
    · rename_i hk
      exact (((checkChildren_alike h _).append (f.componentHead_alike depth hr h hk)).append
        hbody).append (.refl _)
    · rename_i hk
      exact .of_eq (congrArg (fun s => f.line depth (inQuotes s)) (h.head_eq_of_cls hk rfl))
    · exact .refl _
    · rename_i hk
      exact f.headLine_alike depth h hk rfl _
    · exact .unsupported (.node h)

theorem body_alike (hr : f.renderer.Respects) (depth : Int) : (as bs : List Node) →
    List.Forall₂ Node.Same as bs → (f.body depth as).Alike (f.body depth bs)
  | [], [], _ => .refl _
  | .mk l cs :: as, .mk k ds :: bs, h => by
    obtain ⟨hab, hrest⟩ := List.forall₂_cons.mp h
    have hisA : l.isA .bodyNode = k.isA .bodyNode := hab.isA_eq .bodyNode
    rw [body, body, hisA]
    split
    · exact (node_alike hr depth _ _ hab).append (body_alike hr depth as bs hrest)
    · exact body_alike hr depth as bs hrest

end

/-- Nodes that equal one another, one by one, are formatted alike. -/
theorem nodes_alike (hr : f.renderer.Respects) {as bs : List Node}
    (h : List.Forall₂ Node.Same as bs) : (f.nodes as).Alike (f.nodes bs) :=
  .concat_map (h.imp fun _ _ hab => f.node_alike hr f.startIndent _ _ hab)

theorem roots_same (h : a.Same b) : List.Forall₂ Node.Same (roots a) (roots b) := by
  unfold roots
  rw [h.isA_eq]
  split
  · exact h.children
  · exact .cons h .nil

end Formatter

/-- Equal nodes have the same text, or neither has one, for the same reason. -/
theorem Node.Same.write_alike {a b : Node} (h : a.Same b) {f : Formatter}
    (hr : f.renderer.Respects) : (∃ t, a.write f = .ok t ∧ b.write f = .ok t) ∨
      ∃ e e', a.write f = .error e ∧ b.write f = .error e' ∧ e.Alike e' := by
  unfold Node.write
  rw [h.isA_eq]
  split
  · exact (f.nodes_alike hr (Formatter.roots_same h)).result
  · exact .inr ⟨_, _, rfl, rfl, .same _⟩

end BlockMarkup
