import BlockMarkup.Proofs.Layout.Items

/-!
# BlockMarkup.Proofs.Layout.Silent

Nodes that are not written. `Thinned` says that some of the silent nodes are gone, in the bodies that
are reached at any depth. A tree with a written form still has one then, and the same texts make it up
but for the end of key lines: the comma there is for the attributes of the element, and it counts silent
ones too (`thinned_nodes`). Where every element with a key keeps an attribute if it had one, the text
stays the same (`result_of_thinned`).
-/

namespace BlockMarkup

namespace Node

/-- There is no key, or there are attributes in both nodes or in none. -/
def KeepsComma (n m : Node) : Prop :=
  n.childrenOf .key = [] ∨ (n.childrenOf .attribute).isEmpty = (m.childrenOf .attribute).isEmpty

mutual

/-- The second node is the first one without some of the silent nodes in its blocks. If `commas` holds,
every element there that has a key keeps an attribute if it had one. -/
inductive Thinned (commas : Prop) : Node → Node → Prop where
  | same (n : Node) : Thinned commas n n
  | block {l : Label} {cs ds : List Node} : IsBlock (.mk l cs) →
      (commas → KeepsComma (.mk l cs) (.mk l ds)) → ThinnedAll commas cs ds →
      Thinned commas (.mk l cs) (.mk l ds)

inductive ThinnedAll (commas : Prop) : List Node → List Node → Prop where
  | nil : ThinnedAll commas [] []
  | keep {n m : Node} {ns ms : List Node} : Thinned commas n m → ThinnedAll commas ns ms →
      ThinnedAll commas (n :: ns) (m :: ms)
  | drop {n : Node} {ns ms : List Node} : n.IsSilent → ThinnedAll commas ns ms →
      ThinnedAll commas (n :: ns) ms

end

variable {commas : Prop} {n m : Node} {ns ms : List Node}

theorem Thinned.label_eq (h : Thinned commas n m) : n.label = m.label := by
  cases h <;> rfl

theorem Thinned.isA_eq (h : Thinned commas n m) (k : Kind) : n.isA k = m.isA k := by
  rw [isA, isA, h.label_eq]

/-- Only blocks change. -/
theorem Thinned.eq_of_not_isBlock (h : Thinned commas n m) (hn : ¬ n.IsBlock) : n = m := by
  cases h with
  | same => rfl
  | block hblock => exact absurd hblock hn

namespace ThinnedAll

/-- What is left was there. -/
theorem exists_of_mem (h : ThinnedAll commas ns ms) (hm : m ∈ ms) :
    ∃ n ∈ ns, Thinned commas n m := by
  induction ns generalizing ms with
  | nil =>
    cases h
    cases hm
  | cons a ns ih =>
    cases h with
    | keep hfirst hrest =>
      rcases List.mem_cons.mp hm with rfl | hm
      · exact ⟨a, List.mem_cons_self, hfirst⟩
      · obtain ⟨n, hn, hnm⟩ := ih hrest hm
        exact ⟨n, List.mem_cons_of_mem _ hn, hnm⟩
    | drop _ hrest =>
      obtain ⟨n, hn, hnm⟩ := ih hrest hm
      exact ⟨n, List.mem_cons_of_mem _ hn, hnm⟩

theorem filter (h : ThinnedAll commas ns ms) (k : Kind) :
    ThinnedAll commas (ns.filter fun (n : Node) => n.isA k) (ms.filter fun (m : Node) => m.isA k) := by
  induction ns generalizing ms with
  | nil =>
    cases h
    exact .nil
  | cons a ns ih =>
    cases h with
    | @keep _ b _ ms hfirst hrest =>
      rw [List.filter_cons, List.filter_cons, hfirst.isA_eq]
      split
      · exact .keep hfirst (ih hrest)
      · exact ih hrest
    | drop hsilent hrest =>
      rw [List.filter_cons]
      split
      · exact .drop hsilent (ih hrest)
      · exact ih hrest

/-- Nodes that are neither blocks nor silent stay as they are. -/
theorem eq_of_forall (h : ThinnedAll commas ns ms)
    (hns : ∀ n : Node, n ∈ ns → ¬ n.IsBlock ∧ ¬ n.IsSilent) : ns = ms := by
  induction ns generalizing ms with
  | nil =>
    cases h
    rfl
  | cons a ns ih =>
    obtain ⟨ha, hns⟩ := List.forall_mem_cons.mp hns
    cases h with
    | keep hfirst hrest => rw [hfirst.eq_of_not_isBlock ha.1, ih hrest hns]
    | drop hsilent _ => exact absurd hsilent ha.2

/-- A kind without blocks and silent nodes stays as it is. -/
theorem filter_eq (h : ThinnedAll commas ns ms) {k : Kind}
    (hk : ∀ j : Kind, j ∈ [.element, .component, .rawExpression, .metaAttribute] → j.isA k = false) :
    (ns.filter fun (n : Node) => n.isA k) = ms.filter fun (m : Node) => m.isA k := by
  refine (h.filter k).eq_of_forall fun n hn => ?_
  have hn : n.isA k = true := (List.mem_filter.mp hn).2
  exact ⟨not_isBlock_of_isA hn (hk _ (by simp)) (hk _ (by simp)),
    not_isSilent_of_isA hn (hk _ (by simp)) (hk _ (by simp))⟩

end ThinnedAll
end Node

namespace Script

/-- The same text, or, if `commas` does not hold, the end of a key line without its comma. -/
def Trimmed (commas : Prop) (s t : List Char) : Prop :=
  s = t ∨ (¬ commas ∧ s = [',', '\n'] ∧ t = ['\n'])

/-- If the first script does not fail, the second one does not either, and its texts are those of the
first one, but perhaps for commas. -/
def Keeps (commas : Prop) (s t : Script) : Prop :=
  s.failure = none → t.failure = none ∧ List.Forall₂ (Trimmed commas) s.chunks t.chunks

namespace Keeps

variable {commas : Prop} {a b c d : Script}

theorem refl (s : Script) : s.Keeps commas s :=
  fun h => ⟨h, List.forall₂_same.mpr fun _ _ => .inl rfl⟩

theorem of_eq (h : a = b) : a.Keeps commas b := h ▸ refl a

theorem append (h : a.Keeps commas b) (h' : c.Keeps commas d) : (a ++ c).Keeps commas (b ++ d) := by
  intro hnone
  have ha : a.failure = none := failure_of_append hnone
  rw [append_of_failure ha] at hnone ⊢
  obtain ⟨hb, hchunks⟩ := h ha
  obtain ⟨hd, hchunks'⟩ := h' hnone
  rw [append_of_failure hb]
  exact ⟨hd, List.rel_append hchunks hchunks'⟩

/-- A check hands on nothing, so that it only has to succeed again. -/
theorem of_checks (ha : a.chunks = []) (hb : b.chunks = [])
    (h : a.failure = none → b.failure = none) : a.Keeps commas b := by
  intro hnone
  rw [ha, hb]
  exact ⟨h hnone, .nil⟩

/-- Nodes that write nothing can go from a row. -/
theorem concat_map {g g' : Node → Script} {ns ms : List Node} (h : Node.ThinnedAll commas ns ms)
    (hsilent : ∀ n : Node, n ∈ ns → n.IsSilent → (g n).Keeps commas .empty)
    (hkeep : ∀ n ∈ ns, ∀ m, Node.Thinned commas n m → (g n).Keeps commas (g' m)) :
    (concat (ns.map g)).Keeps commas (concat (ms.map g')) := by
  induction ns generalizing ms with
  | nil =>
    cases h
    exact refl _
  | cons n ns ih =>
    obtain ⟨hn, hns⟩ := List.forall_mem_cons.mp hsilent
    obtain ⟨hfirst, hmore⟩ := List.forall_mem_cons.mp hkeep
    cases h with
    | keep hnm hrest => exact (hfirst _ hnm).append (ih hrest hns hmore)
    | drop hgone hrest => exact (hn hgone).append (ih hrest hns hmore)

end Keeps
end Script

namespace Formatter

open Script

variable {commas : Prop} (f : Formatter) (depth : Int) {l : Label} {cs ds : List Node}

theorem checkChildren_keeps (h : Node.ThinnedAll commas cs ds) (kinds : List Kind) :
    (checkChildren (.mk l cs) kinds).Keeps commas (checkChildren (.mk l ds) kinds) := by
  refine .of_checks (chunks_checkChildren _ _) (chunks_checkChildren _ _) fun hnone => ?_
  have hkinds := isAny_of_checkChildren hnone
  rw [checkChildren_eq_empty fun d hd => ?_]
  · rfl
  · obtain ⟨c, hc, hcd⟩ := h.exists_of_mem hd
    have hany : c.isAny kinds = d.isAny kinds := by rw [Node.isAny, Node.isAny, hcd.label_eq]
    rw [← hany]
    exact hkinds c hc

theorem checkKeys_keeps (h : Node.ThinnedAll commas cs ds) :
    (checkKeys (.mk l cs)).Keeps commas (checkKeys (.mk l ds)) := by
  have hkeys : Node.childrenOf (.mk l cs) .key = Node.childrenOf (.mk l ds) .key :=
    h.filter_eq (by decide)
  refine .of_checks (chunks_checkKeys _) (chunks_checkKeys _) fun hnone => ?_
  unfold checkKeys at hnone ⊢
  rw [← hkeys]
  split
  · rename_i hmore
    rw [hmore] at hnone
    cases hnone
  · rfl

/-- A key line can only lose its comma, and only where the last attribute is gone. -/
theorem keyLine_keeps {before after : Bool} (hless : after = true → before = true)
    (hsame : commas → before = after) (n : Node) :
    (f.keyLine depth before n).Keeps commas (f.keyLine depth after n) := by
  refine .append (.refl _) fun _ => ⟨rfl, .cons ?_ .nil⟩
  cases before <;> cases after
  · exact .inl rfl
  · cases hless rfl
  · exact .inr ⟨fun hcommas => (by cases hsame hcommas), rfl, rfl⟩
  · exact .inl rfl

theorem attributes_keeps (h : Node.ThinnedAll commas cs ds) :
    (concat ((Node.childrenOf (.mk l cs) .attribute).map (f.attributeLines depth))).Keeps commas
      (concat ((Node.childrenOf (.mk l ds) .attribute).map (f.attributeLines depth))) := by
  refine .concat_map (h.filter .attribute) (fun n hn hsilent => ?_) fun n hn m hnm => ?_
  · rcases hsilent with hc | hc
    · exact absurd hc (Node.cls_ne_of_isA (Node.mem_childrenOf.mp hn).2 rfl)
    · refine .of_eq ?_
      unfold attributeLines
      rw [hc]
      rfl
  · have hattribute := (Node.mem_childrenOf.mp hn).2
    exact .of_eq (congrArg _ (hnm.eq_of_not_isBlock (Node.not_isBlock_of_isA hattribute rfl rfl)))

/-- Only the last attributes that go take the comma of the key with them. -/
theorem keys_keeps (h : Node.ThinnedAll commas cs ds)
    (hcommas : commas → Node.KeepsComma (.mk l cs) (.mk l ds)) :
    (concat ((Node.childrenOf (.mk l cs) .key).map
      (f.keyLine depth !(Node.childrenOf (.mk l cs) .attribute).isEmpty))).Keeps commas
    (concat ((Node.childrenOf (.mk l ds) .key).map
      (f.keyLine depth !(Node.childrenOf (.mk l ds) .attribute).isEmpty))) := by
  have hless : (Node.childrenOf (.mk l cs) .attribute).isEmpty = true →
      (Node.childrenOf (.mk l ds) .attribute).isEmpty = true := by
    rw [List.isEmpty_iff, List.isEmpty_iff, List.eq_nil_iff_forall_not_mem,
      List.eq_nil_iff_forall_not_mem]
    intro hnone m hm
    obtain ⟨n, hn, -⟩ := (h.filter .attribute).exists_of_mem hm
    exact hnone n hn
  refine .concat_map (h.filter .key) (fun n hn hsilent => ?_) fun n hn m hnm => ?_
  · exact absurd hsilent (Node.not_isSilent_of_isA (Node.mem_childrenOf.mp hn).2 rfl rfl)
  · have hkey := (Node.mem_childrenOf.mp hn).2
    rw [← hnm.eq_of_not_isBlock (Node.not_isBlock_of_isA hkey rfl rfl)]
    refine f.keyLine_keeps depth (fun hafter => ?_) (fun hc => ?_) n
    · cases hbefore : (Node.childrenOf (.mk l cs) .attribute).isEmpty with
      | true => rwa [hless hbefore] at hafter
      | false => rfl
    · rw [(hcommas hc).resolve_left (List.ne_nil_of_mem hn)]

theorem elementHead_keeps (h : Node.ThinnedAll commas cs ds)
    (hcommas : commas → Node.KeepsComma (.mk l cs) (.mk l ds)) :
    (f.elementHead depth (.mk l cs)).Keeps commas (f.elementHead depth (.mk l ds)) :=
  .append (.append (.refl _) (f.keys_keeps _ h hcommas)) (f.attributes_keeps _ h)

theorem componentHead_keeps (h : Node.ThinnedAll commas cs ds) :
    (f.componentHead depth (.mk l cs)).Keeps commas (f.componentHead depth (.mk l ds)) := by
  have hfields : Node.childrenOf (.mk l cs) .field = Node.childrenOf (.mk l ds) .field :=
    h.filter_eq (by decide)
  have hspreads : Node.childrenOf (.mk l cs) .spread = Node.childrenOf (.mk l ds) .spread :=
    h.filter_eq (by decide)
  refine .of_eq ?_
  rw [componentHead, componentHead, hfields, hspreads]
  rfl

/-- A silent node writes nothing, or it does not stand in a body. -/
theorem silent_keeps {n : Node} (hn : n.IsSilent) : (f.node depth n).Keeps commas .empty := by
  obtain ⟨l, cs⟩ := n
  have hcls : l.cls = .of .rawExpression ∨ l.cls = .of .metaAttribute := hn
  unfold node
  rcases hcls with hc | hc <;> rw [hc]
  · exact .refl _
  · exact nofun

mutual

/-- A node that can be written can be written without silent nodes in it. -/
theorem node_keeps (depth : Int) : (n m : Node) → Node.Thinned commas n m →
    (f.node depth n).Keeps commas (f.node depth m)
  | .mk l cs, m, h => by
    cases h with
    | same => exact .refl _
    | @block _ _ ds hblock hcommas hall =>
      have hbody := body_keeps (depth + 1) cs ds hall
      have hcls : l.cls = .of .element ∨ l.cls = .of .component := hblock
      unfold node
      rcases hcls with hc | hc <;> rw [hc] <;> simp only
      · exact .append (.append (.append (.append (checkChildren_keeps hall _)
          (checkKeys_keeps hall)) (f.elementHead_keeps depth hall hcommas)) hbody) (.refl _)
      · exact .append (.append (.append (checkChildren_keeps hall _)
          (f.componentHead_keeps depth hall)) hbody) (.refl _)

theorem body_keeps (depth : Int) : (ns ms : List Node) → Node.ThinnedAll commas ns ms →
    (f.body depth ns).Keeps commas (f.body depth ms)
  | [], _, h => by
    cases h
    exact .refl _
  | .mk l cs :: ns, ms, h => by
    cases h with
    | @keep _ m _ ms hfirst hrest =>
      have hfirst' := node_keeps depth (.mk l cs) m hfirst
      have hrest' := body_keeps depth ns ms hrest
      obtain ⟨k, ds⟩ := m
      obtain rfl : l = k := hfirst.label_eq
      rw [body, body]
      split
      · exact hfirst'.append hrest'
      · exact hrest'
    | drop hsilent hrest =>
      have hrest' := body_keeps depth ns ms hrest
      rw [body]
      split
      · exact (f.silent_keeps depth hsilent).append hrest'
      · exact hrest'

end

end Formatter

/-- Root nodes that can be written can be written without silent nodes in them, and the texts stay the
same but for the commas of keys. -/
theorem thinned_nodes {commas : Prop} {f : Formatter} {ns ms : List Node}
    (h : Node.ThinnedAll commas ns ms) (hwritten : (f.nodes ns).failure = none) :
    (f.nodes ms).failure = none ∧
      List.Forall₂ (Script.Trimmed commas) (f.nodes ns).chunks (f.nodes ms).chunks :=
  Script.Keeps.concat_map h (fun _ _ hsilent => f.silent_keeps f.startIndent hsilent)
    (fun n _ m hnm => f.node_keeps f.startIndent n m hnm) hwritten

/-- Silent nodes leave no trace in the text where every element with a key keeps an attribute if it had
one. -/
theorem result_of_thinned {f : Formatter} {ns ms : List Node} {t : List Char}
    (h : Node.ThinnedAll True ns ms) (ht : (f.nodes ns).result = .ok t) :
    (f.nodes ms).result = .ok t := by
  have hns := Script.Writes.of_result ht
  obtain ⟨hms, hchunks⟩ := thinned_nodes h hns.failure
  have hsame : (f.nodes ns).chunks = (f.nodes ms).chunks :=
    List.forall₂_eq_eq_eq ▸ hchunks.imp fun _ _ htext => htext.resolve_right fun hno => hno.1 trivial
  exact Script.Writes.result ⟨hms, hsame ▸ hns.text⟩

-- The comma behind the key is all that a silent attribute writes.
example : Formatter.write {} (.textual .element "a".toList
      [.textual .key "k".toList, .textual .metaAttribute "#[m]".toList]) =
        .ok "a \x7b\n    key: \"k\",\n\x7d\n".toList ∧
    Formatter.write {} (.textual .element "a".toList [.textual .key "k".toList]) =
        .ok "a \x7b\n    key: \"k\"\n\x7d\n".toList := ⟨rfl, rfl⟩

end BlockMarkup
