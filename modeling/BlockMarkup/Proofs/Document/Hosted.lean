import BlockMarkup.Proofs.Document.Placed

/-!
# BlockMarkup.Proofs.Document.Hosted

The expressions of a document. `Hosted items n` says that the node `n` is made of the expression in one
of the contexts among the items; all expressions of a transcript are, at any depth
(`hosted_bodyNodes`).
-/

namespace BlockMarkup

/-- The modes that an expression is read in. -/
def Mode.isValue (m : Mode) : Bool := m = .attribute || m = .spread || m = .rawExpression

/-- The items of the expression in a context, without what ends the context. -/
def Mode.expressionItems (m : Mode) (sub : List Item) : List Item :=
  match m with
  | .attribute => valueItems sub
  | .rawExpression => sub.dropLast
  | _ => sub

/-- The node is made of the expression in a context among the items. -/
def Hosted (items : List Item) (n : Node) : Prop :=
  ∃ m sub t, (m, sub) ∈ Item.contextsAll items ∧ m.isValue = true ∧
    (m = .rawExpression → (Item.closedBy? ['\x7d'] sub).isSome = true) ∧
    n = expressionNode (m.expressionItems sub) t

section

variable {n : Node} {items : List Item} {t : Token}

/-! ## Expressions below one node -/

theorem below_of_cls {l : Label} {cs : List Node} (hl : l.cls ≠ .of .expression)
    (h : n ∈ Tree.subtrees (.mk l cs)) (hn : n.cls = .of .expression) : ∃ c ∈ cs, n ∈ c.subtrees := by
  rw [Tree.subtrees, List.mem_cons, Tree.mem_subtreesAll] at h
  rcases h with rfl | h
  · exact absurd hn hl
  · exact h

theorem not_below_leaf {l : Label} (hl : l.cls ≠ .of .expression) (h : n ∈ Tree.subtrees (.mk l [])) :
    n.cls ≠ .of .expression := by
  intro hn
  obtain ⟨c, hc, -⟩ := below_of_cls hl h hn
  cases hc

theorem not_below_invalid {f : Flaw} {p : Option Nat} (h : n ∈ (Node.invalid f p).subtrees) :
    n.cls ≠ .of .expression := not_below_leaf (l := ⟨.of .invalid, _, _, _⟩) nofun h

theorem expressionNode_below (h : n ∈ (expressionNode items t).subtrees) :
    n = expressionNode items t := by
  have hleaf : ∃ l, expressionNode items t = .mk l [] := by
    unfold expressionNode
    simp only
    split
    · exact ⟨_, rfl⟩
    · split <;> exact ⟨_, rfl⟩
  obtain ⟨l, hl⟩ := hleaf
  rw [hl] at h ⊢
  exact List.mem_singleton.mp h

theorem valueNode_below (h : n ∈ (valueNode items t).subtrees) (hn : n.cls = .of .expression) :
    n = expressionNode items t := by
  rcases valueNode_eq items t with ⟨u, -, -, he⟩ | ⟨-, he⟩
  · rw [he] at h
    exact absurd hn (not_below_leaf (l := ⟨.of .string, _, _, _⟩) nofun h)
  · rw [he] at h
    exact expressionNode_below h

/-- Where nothing was read there is no expression. -/
theorem expressionNode_nil_ne (h : n = expressionNode [] t) : n.cls ≠ .of .expression := by
  rw [h]
  exact nofun

theorem attributeNode_below (h : n ∈ (attributeNode t items).subtrees)
    (hn : n.cls = .of .expression) : n = expressionNode (valueItems items) t := by
  unfold attributeNode at h
  simp only at h
  split at h
  · exact absurd hn (not_below_leaf (l := ⟨.of .key, _, _, _⟩) nofun h)
  · obtain ⟨c, hc, hbelow⟩ := below_of_cls (by
      rcases attributeKind_cases (nameOf t) ((valueNode (valueItems items) t).kind = .string) with
        he | he | he | he | he <;> simp [he, NodeClass.of]) h hn
    cases List.mem_singleton.mp hc
    exact valueNode_below hbelow hn

theorem fieldNode_below (h : n ∈ (fieldNode t items).subtrees) (hn : n.cls = .of .expression) :
    n = expressionNode (valueItems items) t := by
  unfold fieldNode at h
  obtain ⟨c, hc, hbelow⟩ := below_of_cls (by
    rcases fieldKind_cases (nameOf t) ((valueNode (valueItems items) t).kind = .string) with
      he | he | he <;> simp [he, NodeClass.of]) h hn
  cases List.mem_singleton.mp hc
  exact valueNode_below hbelow hn

theorem spreadNode_below (h : n ∈ (spreadNode t items).subtrees) (hn : n.cls = .of .expression) :
    n = expressionNode items t := by
  obtain ⟨c, hc, hbelow⟩ := below_of_cls (l := ⟨.of .spread, _, _, _⟩) nofun h hn
  cases List.mem_singleton.mp hc
  exact expressionNode_below hbelow

theorem rawExpressionNode_below (h : n ∈ (rawExpressionNode t items).subtrees)
    (hn : n.cls = .of .expression) : (Item.closedBy? ['\x7d'] items).isSome = true ∧
      n = expressionNode items.dropLast t := by
  unfold rawExpressionNode at h
  split at h
  · exact absurd hn (not_below_invalid h)
  · rename_i closing hclosing
    obtain ⟨c, hc, hbelow⟩ := below_of_cls (l := ⟨.of .rawExpression, _, _, _⟩) nofun h hn
    cases List.mem_singleton.mp hc
    exact ⟨by rw [hclosing]; rfl, expressionNode_below hbelow⟩

theorem not_below_decorationNode (h : n ∈ (decorationNode t items).subtrees) :
    n.cls ≠ .of .expression := by
  unfold decorationNode at h
  split at h
  · exact not_below_invalid h
  · split at h
    · exact not_below_invalid h
    · exact not_below_leaf (l := ⟨.of .decoration, _, _, _⟩) nofun h

theorem mem_of_mem_onlyFirst {k : Kind} {f : Flaw} {ns : List Node} (h : n ∈ onlyFirst k f ns) :
    n ∈ ns ∨ ∃ m ∈ ns, m.kind = k ∧ n = .invalid f m.label.ownStart? := by
  induction ns with
  | nil => cases h
  | cons m ns ih =>
    rw [onlyFirst] at h
    split at h
    · rcases List.mem_cons.mp h with rfl | h
      · exact .inl List.mem_cons_self
      · obtain ⟨m', hm', rfl⟩ := List.mem_map.mp h
        split
        · rename_i hk
          exact .inr ⟨m', List.mem_cons_of_mem _ hm', hk, rfl⟩
        · exact .inl (List.mem_cons_of_mem _ hm')
    · rcases List.mem_cons.mp h with rfl | h
      · exact .inl List.mem_cons_self
      · rcases ih h with hm | ⟨m', hm', hk, rfl⟩
        · exact .inl (List.mem_cons_of_mem _ hm)
        · exact .inr ⟨m', List.mem_cons_of_mem _ hm', hk, rfl⟩

theorem blockNode_below {k dup : Kind} {f : Flaw} {ns : List Node} (hk : k ≠ .expression)
    (h : n ∈ (blockNode k t items (onlyFirst dup f ns)).subtrees) (hn : n.cls = .of .expression) :
    n ∈ Tree.subtreesAll ns := by
  obtain ⟨c, hc, hbelow⟩ := below_of_cls (l := ⟨.of k, _, _, _⟩) (by simpa [NodeClass.of] using hk) h hn
  rcases List.mem_append.mp hc with hc | hc
  · rcases mem_of_mem_onlyFirst hc with hc | ⟨m, -, -, rfl⟩
    · exact Tree.mem_subtreesAll.mpr ⟨c, hc, hbelow⟩
    · exact absurd hn (not_below_invalid hbelow)
  · split at hc
    · cases List.mem_singleton.mp hc
      exact absurd hn (not_below_invalid hbelow)
    · cases hc

/-! ## Expressions of a body -/

theorem Hosted.mono {items' : List Item} (h : Hosted items n)
    (hsub : ∀ p ∈ Item.contextsAll items, p ∈ Item.contextsAll items') : Hosted items' n := by
  obtain ⟨m, sub, u, hmem, hrest⟩ := h
  exact ⟨m, sub, u, hsub _ hmem, hrest⟩

theorem Hosted.nested {m : Mode} {sub : List Item} (h : Hosted sub n) : Hosted (Item.nested m sub) n :=
  h.mono fun _ hp => Item.mem_contextsAll_nested.mpr (.inr hp)

theorem hosted_of_value {m : Mode} {sub : List Item} (hm : m.isValue = true)
    (hclosed : m = .rawExpression → (Item.closedBy? ['\x7d'] sub).isSome = true)
    (h : n = expressionNode (m.expressionItems sub) t) (hn : n.cls = .of .expression) :
    Hosted (Item.nested m sub) n := by
  refine ⟨m, sub, t, Item.mem_contextsAll_nested.mpr (.inl ⟨?_, rfl⟩), hm, hclosed, h⟩
  rintro rfl
  have hnil : m.expressionItems [] = [] := by cases m <;> rfl
  rw [hnil] at h
  exact expressionNode_nil_ne h hn

/-- The expressions in what a token that opens something is read as. -/
theorem hosted_of_opens {m inner : Mode} {sub : List Item} (hm : m.isBody = true)
    (hopens : Opens m t inner)
    (ih : inner.isBody = true → ∀ n : Node, n ∈ Tree.subtreesAll (bodyNodes inner sub) →
      n.cls = .of .expression → Hosted sub n) {b : Node}
    (hb : b ∈ nodeOf? m t sub (innerNodes t.cls (.context inner sub))) (h : n ∈ b.subtrees)
    (hn : n.cls = .of .expression) : Hosted (Item.nested inner sub) n := by
  rw [nodeOf?_of_opens hm hopens, innerNodes_of_opens hopens] at hb
  cases hopens with
  | decorator _ _ _ =>
    obtain rfl := Option.some.inj hb
    exact absurd hn (not_below_decorationNode h)
  | brace _ _ _ =>
    obtain rfl := Option.some.inj hb
    obtain ⟨hclosed, he⟩ := rawExpressionNode_below h hn
    exact hosted_of_value rfl (fun _ => hclosed) he hn
  | tag _ _ _ _ =>
    obtain rfl := Option.some.inj hb
    exact (ih rfl n (blockNode_below (k := .element) nofun h hn) hn).nested
  | path _ _ _ _ _ =>
    obtain rfl := Option.some.inj hb
    exact (ih rfl n (blockNode_below (k := .component) nofun h hn) hn).nested
  | name hm' _ _ _ =>
    rcases hm' with rfl | rfl
    · obtain rfl := Option.some.inj hb
      exact hosted_of_value rfl nofun (attributeNode_below h hn) hn
    · obtain rfl := Option.some.inj hb
      exact hosted_of_value rfl nofun (fieldNode_below h hn) hn
  | quotedName _ _ _ =>
    obtain rfl := Option.some.inj hb
    exact hosted_of_value rfl nofun (attributeNode_below h hn) hn
  | dots _ _ =>
    obtain rfl := Option.some.inj hb
    exact hosted_of_value rfl nofun (spreadNode_below h hn) hn
  | group hb' _ _ =>
    rw [hm] at hb'
    cases hb'

/-- All expressions in a body are hosted there. -/
theorem hosted_bodyNodes {m : Mode} {left : Bool} (h : Formed m items left) : m.isBody = true →
    ∀ n : Node, n ∈ Tree.subtreesAll (bodyNodes m items) → n.cls = .of .expression →
      Hosted items n := by
  induction h with
  | stop => intro _ n hn; cases hn
  | leave => intro _ n hn; cases hn
  | @stray m t rest items left hc hfirst hf ih =>
    intro hm n hn hcls
    have hbad : nodeOf? m t [] [] = some (.invalid (.unexpected t.text) (some t.pos)) := by
      cases m <;> simp_all [nodeOf?, Mode.isBody]
    rw [bodyNodes_token hf.startsWithToken (closesBlock_of_stray hfirst), hbad,
      Option.toList_some, List.singleton_append, Tree.subtreesAll, List.mem_append] at hn
    rcases hn with hn | hn
    · exact absurd hcls (not_below_invalid hn)
    · exact ih hm n hn hcls
  | @stay m r t items left hmove hmakes hf ih =>
    intro hm n hn hcls
    rw [bodyNodes_token hf.startsWithToken (closesBlock_of_stay hm hmove hmakes)] at hn
    rcases stays_in_body hm hmove hmakes with hc | ⟨hc, -⟩
    · have hnode : nodeOf? m t [] [] = none := by
        cases m <;> simp_all [nodeOf?, Mode.isBody]
      rw [hnode] at hn
      exact ih hm n hn hcls
    · have hnode : nodeOf? m t [] [] = some (textNode t) := by
        cases m <;> simp_all [nodeOf?, Mode.isBody]
      rw [hnode, Option.toList_some, List.singleton_append, Tree.subtreesAll, List.mem_append] at hn
      rcases hn with hn | hn
      · exact absurd hcls (not_below_leaf (l := ⟨.of .text, _, _, _⟩) (by rintro ⟨⟩) hn)
      · exact ih hm n hn hcls
  | @close m r t hmove hmakes =>
    intro hm n hn
    obtain ⟨hm', -, ht⟩ := closes_body hm hmove hmakes
    rcases hm' with rfl | rfl <;> simp [bodyNodes, closesBlock, ht, Tree.subtreesAll] at hn
  | @push m inner r t c back sub items subLeft left hmove hmakes hscan hsub _ hf ihsub ih =>
    intro hm n hn hcls
    have hopens := opens_of_makes hmove hmakes
    rw [bodyNodes_push hf.startsWithToken (closesBlock_of_opens hopens hm), Tree.mem_subtreesAll] at hn
    obtain ⟨b, hb, hn⟩ := hn
    rcases List.mem_append.mp hb with hb | hb
    · exact (hosted_of_opens hm hopens ihsub (Option.mem_toList.mp hb) hn hcls).mono
        fun p hp => Item.mem_contextsAll_push.mpr (.inl hp)
    · exact (ih hm n (Tree.mem_subtreesAll.mpr ⟨b, hb, hn⟩) hcls).mono
        fun p hp => Item.mem_contextsAll_push.mpr (.inr hp)

end
end BlockMarkup
