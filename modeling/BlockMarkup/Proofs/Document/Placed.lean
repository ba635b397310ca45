import BlockMarkup.Proofs.Document.Nodes

/-!
# BlockMarkup.Proofs.Document.Placed

The data model of documents: `Placed X m n` says that the node `n` may stand in a body of mode `m`,
with heads as `X` says where the markup leaves them open. All nodes of a flawless transcript are
placed (`placed_bodyNodes`).
-/

namespace BlockMarkup

open Text

/-- What the heads of expressions and decorations are like. -/
structure Heads where
  value : List Char → Prop
  spread : List Char → Prop
  raw : List Char → Prop
  decoration : List Char → Prop

def IsExpression (P : List Char → Prop) (n : Node) : Prop :=
  ∃ h, n.cls = .of .expression ∧ n.head = some h ∧ n.children = [] ∧ P h

def IsString (n : Node) : Prop :=
  ∃ b, n.cls = .of .string ∧ n.head = some b ∧ n.children = [] ∧ isQuotable b = true

/-- A name, or a string literal in the place of one. -/
def IsAttributeName (p : List Char) : Prop :=
  isName p = true ∨ ∃ b, p = quote b ∧ isQuotable b = true

inductive Placed (X : Heads) : Mode → Node → Prop where
  | text {m : Mode} {l : Label} {b : List Char} : l.cls = .of .text → l.head = some b →
      isQuotable b = true → Placed X m (.mk l [])
  | decoration {m : Mode} {l : Label} {s : List Char} : l.cls = .of .decoration →
      l.head = some s → X.decoration s → Placed X m (.mk l [])
  | rawExpression {m : Mode} {l : Label} {e : Node} : l.cls = .of .rawExpression →
      IsExpression X.raw e → Placed X m (.mk l [e])
  | element {m : Mode} {l : Label} {p : List Char} {cs : List Node} : l.cls = .of .element →
      l.head = some p → isTag p = true → (∀ c ∈ cs, Placed X .element c) →
      (cs.filter fun (c : Node) => c.kind = .key).length ≤ 1 → Placed X m (.mk l cs)
  | component {m : Mode} {l : Label} {p : List Char} {cs : List Node} : l.cls = .of .component →
      l.head = some p → isPath p = true → isTag p = false → (∀ c ∈ cs, Placed X .component c) →
      (cs.filter fun (c : Node) => c.kind = .spread).length ≤ 1 → Placed X m (.mk l cs)
  | key {l : Label} {b : List Char} : l.cls = .of .key → l.head = some b → isQuotable b = true →
      Placed X .element (.mk l [])
  | attr {l : Label} {p : List Char} {v : Node} : l.head = some p → IsAttributeName p →
      l.cls = .of (attributeKind p (v.kind = .string)) →
      (IsString v ∧ p ≠ "key".toList ∨ IsExpression X.value v) → Placed X .element (.mk l [v])
  | field {l : Label} {p : List Char} {v : Node} : l.head = some p → isName p = true →
      l.cls = .of (fieldKind p (v.kind = .string)) → (IsString v ∨ IsExpression X.value v) →
      Placed X .component (.mk l [v])
  | spread {l : Label} {e : Node} : l.cls = .of .spread → IsExpression X.spread e →
      Placed X .component (.mk l [e])

/-- In the contexts among the items, the heads are as `X` says. -/
structure Heads.Hold (X : Heads) (items : List Item) : Prop where
  value : ∀ {sub : List Item} {h : List Char}, (.attribute, sub) ∈ Item.contextsAll items →
    Item.isLoneString (valueItems sub) = false → Item.Spell (valueItems sub) h → X.value h
  spread : ∀ {sub : List Item} {h : List Char}, (.spread, sub) ∈ Item.contextsAll items →
    Item.Spell sub h → X.spread h
  raw : ∀ {sub : List Item} {h : List Char}, (.rawExpression, sub) ∈ Item.contextsAll items →
    Item.Spell sub.dropLast h → X.raw h
  decoration : ∀ {sub : List Item} {s o : List Char}, (.decoration, sub) ∈ Item.contextsAll items →
    (Item.closedBy? [']'] sub).isSome = true → Item.spellingAll sub = .ok s →
    (o = ['#', '['] ∨ o = ['#', '!', '[']) → X.decoration (o ++ s)

theorem Heads.Hold.mono {X : Heads} {items items' : List Item} (h : X.Hold items')
    (hsub : ∀ p ∈ Item.contextsAll items, p ∈ Item.contextsAll items') : X.Hold items where
  value hmem := h.value (hsub _ hmem)
  spread hmem := h.spread (hsub _ hmem)
  raw hmem := h.raw (hsub _ hmem)
  decoration hmem := h.decoration (hsub _ hmem)

/-- A context of which nothing is spelled may be left out of the items. -/
theorem Item.mem_contextsAll_of_spell {m : Mode} {sub own : List Item} {h : List Char}
    (hown : own ⊆ sub) (hs : Spell own h) : (m, sub) ∈ contextsAll (nested m sub) := by
  refine mem_contextsAll_nested.mpr (.inl ⟨?_, rfl⟩)
  rintro rfl
  obtain rfl := List.subset_nil.mp hown
  obtain ⟨s, hs, rfl, hne⟩ := hs
  cases hs
  exact hne rfl

/-! ## Names of tokens -/

theorem trimmed_of_isName {p : List Char} (h : isName p = true) : Trimmed p :=
  .of_forall (not_blank_of_isName h)

theorem trimmed_of_isPath {p : List Char} (h : isPath p = true) : Trimmed p :=
  .of_forall (not_blank_of_isPath h)

theorem isName_ne_nil {p : List Char} (h : isName p = true) : p ≠ [] := by
  rintro rfl
  cases h

theorem isPath_ne_nil {p : List Char} (h : isPath p = true) : p ≠ [] := by
  rintro rfl
  cases h

theorem trimmed_quote (b : List Char) : Trimmed (quote b) := by
  constructor
  · intro c hc
    cases hc
    decide
  · intro c hc
    rw [quote, ← List.cons_append, List.getLast?_concat] at hc
    cases hc
    decide

theorem dropLast_of_spells {t : Token} {p : List Char} {mark : Char} (h : t.Spells p mark) :
    ∃ w, t.text.dropLast = p ++ w ∧ ∀ c ∈ w, isBlank c = true := by
  obtain ⟨w, hw, hb⟩ := h
  exact ⟨w, by rw [hw, ← List.append_assoc, List.dropLast_concat], hb⟩

theorem nameOf_of_spells {t : Token} {p : List Char} {mark : Char} (h : t.Spells p mark)
    (hp : Trimmed p) : nameOf t = p := by
  obtain ⟨w, hw, hb⟩ := dropLast_of_spells h
  rw [nameOf, hw, stripEnd_append hb, stripEnd_of_last hp.last]

theorem blockNameOf_of_spells {t : Token} {p : List Char} {mark : Char} (h : t.Spells p mark)
    (hp : Trimmed p) (hne : p ≠ []) : blockNameOf t = p := by
  obtain ⟨w, hw, hb⟩ := dropLast_of_spells h
  rw [blockNameOf, hw, strip_append hp hne hb]

/-! ## String literals -/

theorem Mode.pattern_of_string (m : Mode) : ∀ r ∈ m.rules, r.effect = .emit .string →
    r.pattern = .string ∨ r.pattern = .lastString := by
  cases m <;> decide

theorem Mode.Makes.quote_of_string {m : Mode} {r : Rule} {t : Token} (h : m.Makes r t)
    (hc : t.cls = .string) : ∃ b, t.text = quote b ∧ isQuotable b = true := by
  obtain ⟨rest, hmatch⟩ := h.matched
  rcases m.pattern_of_string r h.mem (by rw [h.effect, hc]) with hp | hp
  · rw [hp] at hmatch
    exact eq_quote_of_string hmatch
  · rw [hp] at hmatch
    obtain ⟨k, hk, hn⟩ := Option.bind_eq_some_iff.mp hmatch
    rw [← Pattern.atLineEnd_eq_some hn] at hk
    exact eq_quote_of_string hk

theorem Formed.quote_of_string {m : Mode} {items : List Item} {left : Bool}
    (h : Formed m items left) {t : Token} (ht : .token t ∈ items) (hc : t.cls = .string) :
    ∃ b, t.text = quote b ∧ isQuotable b = true := by
  rcases h.origin t ht with ⟨hs, -⟩ | ⟨r, hmakes⟩
  · rw [hs] at hc
    cases hc
  · exact hmakes.quote_of_string hc

theorem mem_of_mem_valueItems {sub : List Item} {i : Item} (h : i ∈ valueItems sub) : i ∈ sub := by
  unfold valueItems at h
  split at h
  · exact List.dropLast_subset _ h
  · exact h

/-! ## Nodes of tokens -/

section

variable {X : Heads}

theorem isExpression_of_flawless {P : List Char → Prop} {items : List Item} {t : Token}
    (hP : ∀ h, Item.Spell items h → P h) (h : Flawless [expressionNode items t]) :
    IsExpression P (expressionNode items t) := by
  obtain ⟨s, hs, o, he⟩ := flawless_expressionNode_iff.mp h
  rw [he]
  exact ⟨s, rfl, rfl, rfl, hP s hs⟩

/-- A value that is read without a flaw is a string or an expression. -/
theorem value_of_flawless {c back : Cursor} {sub : List Item} {t : Token}
    (hX : X.Hold (Item.nested .attribute sub)) (hscan : Scans .attribute c sub back)
    (h : Flawless [valueNode (valueItems sub) t]) :
    IsString (valueNode (valueItems sub) t) ∨
      IsExpression X.value (valueNode (valueItems sub) t) := by
  rcases valueNode_eq (valueItems sub) t with ⟨u, hu, hc, he⟩ | ⟨hlone, he⟩
  · left
    have hmem : Item.token u ∈ (valueItems sub).filter fun i => !i.isBlank := by simp [hu]
    have hsub := mem_of_mem_valueItems (List.mem_filter.mp hmem).1
    obtain ⟨left, hf, -⟩ := hscan.formed
    obtain ⟨b, hb, hq⟩ := hf.quote_of_string hsub hc
    rw [he]
    exact ⟨b, rfl, by rw [hb, unquote_quote]; rfl, rfl, hq⟩
  · right
    have hstring : Item.isLoneString (valueItems sub) = false := by
      rw [← Bool.not_eq_true, Item.isLoneString_iff]
      exact fun ⟨u, hu, hc⟩ => hlone u hu hc
    rw [he] at h ⊢
    exact isExpression_of_flawless (fun s hs =>
      hX.value (Item.mem_contextsAll_of_spell (fun _ => mem_of_mem_valueItems) hs) hstring hs) h

theorem kind_of_isString {v : Node} (h : IsString v) : v.kind = .string := by
  obtain ⟨b, hc, -⟩ := h
  rw [Node.kind, ← Node.cls, hc]
  rfl

theorem kind_of_isExpression {P : List Char → Prop} {v : Node} (h : IsExpression P v) :
    v.kind = .expression := by
  obtain ⟨b, hc, -⟩ := h
  rw [Node.kind, ← Node.cls, hc]
  rfl

/-- The value of an expression is no string. -/
theorem kind_expressionNode_ne (items : List Item) (t : Token) :
    (expressionNode items t).kind ≠ .string := by
  unfold expressionNode
  simp only
  split
  · exact nofun
  · split <;> exact nofun

theorem placed_attributeNode {c back : Cursor} {sub : List Item} {t : Token} {p : List Char}
    (hX : X.Hold (Item.nested .attribute sub)) (hscan : Scans .attribute c sub back) (ht : nameOf t = p)
    (hp : IsAttributeName p) (h : Flawless [attributeNode t sub]) :
    Placed X .element (attributeNode t sub) := by
  unfold attributeNode at h ⊢
  simp only [ht] at h ⊢
  split at h
  · rename_i hkey
    have hstring : (valueNode (valueItems sub) t).kind = .string := hkey.2
    rw [if_pos hkey]
    rcases valueNode_eq (valueItems sub) t with ⟨u, hu, hc, he⟩ | ⟨-, he⟩
    · have hflawless : Flawless [valueNode (valueItems sub) t] := by
        rw [he]
        exact Flawless.singleton_iff.mpr ⟨rfl, .nil⟩
      rcases value_of_flawless hX hscan hflawless with ⟨b, -, hb, -, hq⟩ | hv
      · exact .key rfl hb hq
      · rw [kind_of_isExpression hv] at hstring
        cases hstring
    · rw [he] at hstring
      exact absurd hstring (kind_expressionNode_ne _ _)
  · rename_i hkey
    rw [if_neg hkey]
    have hv := value_of_flawless hX hscan (t := t) (Flawless.singleton_iff.mp h).2
    refine .attr rfl hp rfl ?_
    rcases hv with hv | hv
    · refine .inl ⟨hv, fun he => hkey ⟨he, ?_⟩⟩
      exact kind_of_isString hv
    · exact .inr hv

theorem placed_fieldNode {c back : Cursor} {sub : List Item} {t : Token} {p : List Char}
    (hX : X.Hold (Item.nested .attribute sub)) (hscan : Scans .attribute c sub back) (ht : nameOf t = p)
    (hp : isName p = true) (h : Flawless [fieldNode t sub]) :
    Placed X .component (fieldNode t sub) := by
  unfold fieldNode at h ⊢
  simp only [ht] at h ⊢
  exact .field rfl hp rfl (value_of_flawless hX hscan (Flawless.singleton_iff.mp h).2)

theorem placed_spreadNode {sub : List Item} {t : Token} (hX : X.Hold (Item.nested .spread sub))
    (h : Flawless [spreadNode t sub]) : Placed X .component (spreadNode t sub) :=
  .spread rfl (isExpression_of_flawless (fun _ hs =>
    hX.spread (Item.mem_contextsAll_of_spell (List.Subset.refl _) hs) hs)
    (Flawless.singleton_iff.mp h).2)

theorem placed_rawExpressionNode {m : Mode} {sub : List Item} {t : Token}
    (hX : X.Hold (Item.nested .rawExpression sub)) (h : Flawless [rawExpressionNode t sub]) :
    Placed X m (rawExpressionNode t sub) := by
  unfold rawExpressionNode at h ⊢
  split at h
  · exact absurd h (Flawless.not_invalid _ _)
  · exact .rawExpression rfl (isExpression_of_flawless (fun _ hs =>
      hX.raw (Item.mem_contextsAll_of_spell (List.dropLast_subset _) hs) hs)
      (Flawless.singleton_iff.mp h).2)

theorem placed_decorationNode {m : Mode} {sub : List Item} {t : Token}
    (hX : X.Hold (Item.nested .decoration sub))
    (ht : t.text = ['#', '['] ∨ t.text = ['#', '!', '[']) (h : Flawless [decorationNode t sub]) :
    Placed X m (decorationNode t sub) := by
  unfold decorationNode at h ⊢
  split at h
  · exact absurd h (Flawless.not_invalid _ _)
  · rename_i closing hclosing
    split at h
    · exact absurd h (Flawless.not_invalid _ _)
    · rename_i s hs
      have hmem : (.decoration, sub) ∈ Item.contextsAll (Item.nested .decoration sub) := by
        refine Item.mem_contextsAll_nested.mpr (.inl ⟨?_, rfl⟩)
        rintro rfl
        cases hclosing
      exact .decoration rfl rfl (hX.decoration hmem (by rw [hclosing]; rfl) hs ht)

/-- A block that is read without a flaw is closed. -/
theorem flawless_blockNode_iff {k : Kind} {t : Token} {items : List Item} {inner : List Node}
    (hk : k.isA .invalid = false) :
    Flawless [blockNode k t items inner] ↔
      (Item.closedBy? ['\x7d'] items).isSome = true ∧ Flawless inner := by
  unfold blockNode
  rw [Flawless.singleton_iff, Flawless.append_iff]
  cases hc : Item.closedBy? ['\x7d'] items with
  | none => simp [Flawless.not_invalid]
  | some closing => simp [Flawless.nil, NodeClass.of, Label.isA, NodeClass.isA, hk]

theorem blockNode_of_closed {k : Kind} {t : Token} {items : List Item} {inner : List Node}
    (h : (Item.closedBy? ['\x7d'] items).isSome = true) : ∃ o, blockNode k t items inner =
      .mk { cls := .of k, head := some (blockNameOf t), origin := o } inner := by
  obtain ⟨u, hu⟩ := Option.isSome_iff_exists.mp h
  exact ⟨some ⟨[t], [u]⟩, by simp [blockNode, hu]⟩

theorem placed_element {m : Mode} {t : Token} {sub : List Item} {p : List Char}
    (ht : t.Spells p '\x7b') (hp : isTag p = true)
    (ih : Flawless (bodyNodes .element sub) → ∀ n ∈ bodyNodes .element sub, Placed X .element n)
    (h : Flawless [blockNode .element t sub
      (onlyFirst .key .duplicateKey (bodyNodes .element sub))]) :
    Placed X m (blockNode .element t sub
      (onlyFirst .key .duplicateKey (bodyNodes .element sub))) := by
  obtain ⟨hclosed, hinner⟩ := (flawless_blockNode_iff rfl).mp h
  obtain ⟨o, ho⟩ : ∃ o, blockNode .element t sub
      (onlyFirst .key .duplicateKey (bodyNodes .element sub)) = _ :=
    blockNode_of_closed hclosed
  obtain ⟨hinner, hkeys⟩ := flawless_onlyFirst_iff.mp hinner
  have hp' := isName_of_isTag hp
  rw [ho, onlyFirst_eq_self hkeys]
  exact .element rfl (congrArg some (blockNameOf_of_spells ht (trimmed_of_isName hp')
    (isName_ne_nil hp'))) hp (ih hinner) hkeys

theorem placed_component {m : Mode} {t : Token} {sub : List Item} {p : List Char}
    (ht : t.Spells p '\x7b') (hp : isPath p = true) (htag : isTag p = false)
    (ih : Flawless (bodyNodes .component sub) →
      ∀ n ∈ bodyNodes .component sub, Placed X .component n)
    (h : Flawless [blockNode .component t sub
      (onlyFirst .spread .secondSpread (bodyNodes .component sub))]) :
    Placed X m (blockNode .component t sub
      (onlyFirst .spread .secondSpread (bodyNodes .component sub))) := by
  obtain ⟨hclosed, hinner⟩ := (flawless_blockNode_iff rfl).mp h
  obtain ⟨o, ho⟩ : ∃ o, blockNode .component t sub
      (onlyFirst .spread .secondSpread (bodyNodes .component sub)) = _ :=
    blockNode_of_closed hclosed
  obtain ⟨hinner, hspreads⟩ := flawless_onlyFirst_iff.mp hinner
  rw [ho, onlyFirst_eq_self hspreads]
  exact .component rfl (congrArg some (blockNameOf_of_spells ht (trimmed_of_isPath hp)
    (isPath_ne_nil hp))) hp htag (ih hinner) hspreads

/-- What a token that opens something is read as has its place in the body. -/
theorem placed_of_opens {m inner : Mode} {c back : Cursor} {t : Token} {sub : List Item}
    (hX : X.Hold (Item.nested inner sub)) (hm : m.isBody = true) (hopens : Opens m t inner)
    (hscan : Scans inner c sub back)
    (ih : inner.isBody = true → Flawless (bodyNodes inner sub) →
      ∀ n ∈ bodyNodes inner sub, Placed X inner n)
    (h : Flawless (nodeOf? m t sub (innerNodes t.cls (.context inner sub))).toList) :
    ∀ n ∈ nodeOf? m t sub (innerNodes t.cls (.context inner sub)), Placed X m n := by
  rw [nodeOf?_of_opens hm hopens, innerNodes_of_opens hopens] at h ⊢
  cases hopens with
  | decorator _ _ ht =>
    rintro _ ⟨⟩
    exact placed_decorationNode hX ht h
  | brace _ _ _ =>
    rintro _ ⟨⟩
    exact placed_rawExpressionNode hX h
  | tag _ _ ht hp =>
    rintro _ ⟨⟩
    exact placed_element ht hp (ih rfl) h
  | path _ _ ht hp htag =>
    rintro _ ⟨⟩
    exact placed_component ht hp htag (ih rfl) h
  | name hm' _ ht hp =>
    have hname := nameOf_of_spells ht (trimmed_of_isName hp)
    rcases hm' with rfl | rfl
    · rintro _ ⟨⟩
      exact placed_attributeNode hX hscan hname (.inl hp) h
    · rintro _ ⟨⟩
      exact placed_fieldNode hX hscan hname hp h
  | quotedName _ ht hb =>
    rintro _ ⟨⟩
    exact placed_attributeNode hX hscan (nameOf_of_spells ht (trimmed_quote _))
      (.inr ⟨_, rfl, hb⟩) h
  | dots _ _ =>
    rintro _ ⟨⟩
    exact placed_spreadNode hX h
  | group hb _ _ =>
    rw [hm] at hb
    cases hb

/-- All nodes of a body that is read without a flaw have their place in it. -/
theorem placed_bodyNodes {m : Mode} {items : List Item} {left : Bool} (h : Formed m items left) :
    X.Hold items → m.isBody = true → Flawless (bodyNodes m items) →
      ∀ n ∈ bodyNodes m items, Placed X m n := by
  induction h with
  | stop => intro _ _ _ n hn; cases hn
  | leave => intro _ _ _ n hn; cases hn
  | @stray m t rest items left hc hfirst hf ih =>
    intro hX hm hfl
    have hbad : ∀ inner, nodeOf? m t [] inner = some (.invalid (.unexpected t.text) (some t.pos)) := by
      intro inner
      cases m <;> simp_all [nodeOf?, Mode.isBody]
    rw [bodyNodes_token hf.startsWithToken (closesBlock_of_stray hfirst), hbad] at hfl
    exact absurd hfl (Flawless.not_invalid _ _)
  | @stay m r t items left hmove hmakes hf ih =>
    intro hX hm hfl
    have hcb : closesBlock m t = false := closesBlock_of_stay hm hmove hmakes
    rw [bodyNodes_token hf.startsWithToken hcb] at hfl ⊢
    rw [Flawless.append_iff] at hfl
    intro n hn
    rcases List.mem_append.mp hn with hn | hn
    · rcases stays_in_body hm hmove hmakes with hc | ⟨hc, b, hb, hq⟩
      · have hnode : nodeOf? m t [] [] = none := by
          cases m <;> simp_all [nodeOf?, Mode.isBody]
        rw [hnode] at hn
        cases hn
      · have hnode : nodeOf? m t [] [] = some (textNode t) := by
          cases m <;> simp_all [nodeOf?, Mode.isBody]
        rw [hnode] at hn
        cases List.mem_singleton.mp hn
        exact .text rfl (by rw [hb, unquote_quote]) hq
    · exact ih (hX.mono fun _ hp => hp) hm hfl.2 n hn
  | @close m r t hmove hmakes =>
    intro _ hm _ n hn
    obtain ⟨hm', -, ht⟩ := closes_body hm hmove hmakes
    rcases hm' with rfl | rfl <;> simp [bodyNodes, closesBlock, ht] at hn
  | @push m inner r t c back sub items subLeft left hmove hmakes hscan hsub _ hf ihsub ih =>
    intro hX hm hfl
    have hopens := opens_of_makes hmove hmakes
    rw [bodyNodes_push hf.startsWithToken (closesBlock_of_opens hopens hm)] at hfl ⊢
    rw [Flawless.append_iff] at hfl
    intro n hn
    rcases List.mem_append.mp hn with hn | hn
    · have hnested : X.Hold (Item.nested inner sub) :=
        hX.mono fun _ hp => Item.mem_contextsAll_push.mpr (.inl hp)
      have hsubs : X.Hold sub :=
        hnested.mono fun _ hp => Item.mem_contextsAll_nested.mpr (.inr hp)
      exact placed_of_opens hnested hm hopens hscan (ihsub hsubs) hfl.1 n (Option.mem_toList.mp hn)
    · have hitems : X.Hold items := hX.mono fun _ hp => Item.mem_contextsAll_push.mpr (.inr hp)
      exact ih hitems hm hfl.2 n hn

end
end BlockMarkup
