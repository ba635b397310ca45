import BlockMarkup.Proofs.Document.Flawless
import BlockMarkup.Proofs.Token.Sound

/-!
# BlockMarkup.Proofs.Document.Nodes

The nodes of a body item by item (`bodyNodes_token`, `bodyNodes_push`), and when an expression or a
value is read without a flaw (`flawless_expressionNode_iff`, `valueNode_eq`).
-/

namespace BlockMarkup

open Text

theorem bodyNodes_token {m : Mode} {t : Token} {items : List Item} (h : StartsWithToken items)
    (hc : closesBlock m t = false) :
    bodyNodes m (.token t :: items) = (nodeOf? m t [] []).toList ++ bodyNodes m items := by
  cases items with
  | nil => simp [bodyNodes, hc]
  | cons i is =>
    cases i with
    | token u => simp only [bodyNodes]
    | context k sub => exact absurd rfl (h k sub is)

theorem innerNodes_nil (o : TokenClass) (k : Mode) : innerNodes o (.context k []) = [] := by
  cases o <;> simp [innerNodes, bodyNodes, onlyFirst]

theorem bodyNodes_push {m inner : Mode} {t : Token} {sub items : List Item}
    (h : StartsWithToken items) (hc : closesBlock m t = false) :
    bodyNodes m (.token t :: (Item.nested inner sub ++ items)) =
      (nodeOf? m t sub (innerNodes t.cls (.context inner sub))).toList ++ bodyNodes m items := by
  cases sub with
  | nil =>
    rw [innerNodes_nil]
    exact bodyNodes_token h hc
  | cons i is => simp only [Item.nested, List.singleton_append, bodyNodes]

theorem closesBlock_iff {m : Mode} {t : Token} :
    closesBlock m t = true ↔ (m = .element ∨ m = .component) ∧ t.text = ['\x7d'] := by
  simp [closesBlock]

theorem closesBlock_of_opens {m inner : Mode} {t : Token} (h : Opens m t inner)
    (hm : m.isBody = true) : closesBlock m t = false := by
  have hlast : ∀ (p w : List Char) (c : Char), c ≠ '\x7d' → p ++ (w ++ [c]) ≠ ['\x7d'] := by
    intro p w c hc he
    have := congrArg List.getLast? he
    rw [← List.append_assoc, List.getLast?_concat, List.getLast?_singleton] at this
    exact hc (Option.some.inj this)
  have hspells : ∀ (p : List Char) (c : Char), c ≠ '\x7d' → t.Spells p c → closesBlock m t = false := by
    rintro p c hc ⟨w, hw, -⟩
    simp [closesBlock, hw, hlast p w c hc]
  cases h with
  | decorator _ _ ht => rcases ht with ht | ht <;> simp [closesBlock, ht]
  | brace _ _ ht => simp [closesBlock, ht]
  | tag _ _ ht _ => exact hspells _ _ (by decide) ht
  | path _ _ ht _ _ => exact hspells _ _ (by decide) ht
  | name _ _ ht _ => exact hspells _ _ (by decide) ht
  | quotedName _ ht _ => exact hspells _ _ (by decide) ht
  | dots _ ht => simp [closesBlock, ht]
  | group hb _ _ => rw [hm] at hb; cases hb

/-- A token that stays in its body does not close it. -/
theorem closesBlock_of_stay {m : Mode} {r : Rule} {t : Token} (hm : m.isBody = true)
    (hmove : r.move = .stay) (h : m.Makes r t) : closesBlock m t = false := by
  obtain ⟨rest, hfirst⟩ := h.first
  cases hb : closesBlock m t with
  | false => rfl
  | true =>
    obtain ⟨hm', ht⟩ := closesBlock_iff.mp hb
    rw [ht] at hfirst
    rcases hm' with rfl | rfl <;> cases hfirst <;> cases hmove

theorem closesBlock_of_stray {m : Mode} {t : Token} {rest : List Char}
    (h : Rule.first? m.rules (t.text ++ rest) = none) : closesBlock m t = false := by
  cases hb : closesBlock m t with
  | false => rfl
  | true =>
    obtain ⟨hm', ht⟩ := closesBlock_iff.mp hb
    rw [ht] at h
    rcases hm' with rfl | rfl <;> cases h

/-- The node of a token of mode `m` that opens a context of mode `inner`. -/
def openedNode (m inner : Mode) (t : Token) (sub : List Item) (ns : List Node) : Option Node :=
  match inner with
  | .decoration => some (decorationNode t sub)
  | .rawExpression => some (rawExpressionNode t sub)
  | .element => some (blockNode .element t sub ns)
  | .component => some (blockNode .component t sub ns)
  | .attribute => some (if m = .element then attributeNode t sub else fieldNode t sub)
  | .spread => some (spreadNode t sub)
  | _ => none

theorem nodeOf?_of_opens {m inner : Mode} {t : Token} (hm : m.isBody = true)
    (h : Opens m t inner) (sub : List Item) (ns : List Node) :
    nodeOf? m t sub ns = openedNode m inner t sub ns := by
  cases h with
  | decorator _ hc _ | brace _ hc _ | tag _ hc _ _ | path _ hc _ _ _ =>
    cases m <;> simp_all [nodeOf?, openedNode, Mode.isBody]
  | name hm' hc _ _ => rcases hm' with rfl | rfl <;> simp [nodeOf?, openedNode, hc]
  | quotedName hc _ _ => simp [nodeOf?, openedNode, hc]
  | dots hc _ => simp [nodeOf?, openedNode, hc]
  | group hb _ _ =>
    rw [hm] at hb
    cases hb

/-- The nodes in the context that a token opens. -/
theorem innerNodes_of_opens {m inner : Mode} {t : Token} (h : Opens m t inner) (sub : List Item) :
    innerNodes t.cls (.context inner sub) =
      match inner with
      | .element => onlyFirst .key .duplicateKey (bodyNodes .element sub)
      | .component => onlyFirst .spread .secondSpread (bodyNodes .component sub)
      | _ => [] := by
  cases h with
  | decorator _ hc _ | brace _ hc _ | tag _ hc _ _ | path _ hc _ _ _ | name _ hc _ _
  | quotedName hc _ _ | dots hc _ | group _ hc _ => simp [hc, innerNodes]

/-! ## Expressions and values -/

/-- The items of an expression spell `h`. -/
def Item.Spell (items : List Item) (h : List Char) : Prop :=
  ∃ s, Item.spellingAll (Item.dropTrailing items) = .ok s ∧ strip s = h ∧ h ≠ []

theorem flawless_invalid_iff (f : Flaw) (p : Option Nat) : Flawless [.invalid f p] ↔ False :=
  iff_false_intro (Flawless.not_invalid f p)

theorem isA_of_expression : (Kind.expression).isA .invalid = false := by decide

/-- An expression is read without a flaw if its items spell a text, and that text is its head. -/
theorem flawless_expressionNode_iff {items : List Item} {t : Token} :
    Flawless [expressionNode items t] ↔ ∃ h, Item.Spell items h ∧ ∃ o, expressionNode items t =
      .mk { cls := .of .expression, head := some h, origin := o } [] := by
  unfold expressionNode Item.Spell
  simp only
  split
  · rename_i e he
    simp [flawless_invalid_iff, he]
  · rename_i s hs
    split
    · rename_i hnil
      simp [flawless_invalid_iff, hs, hnil]
    · rename_i h hne
      constructor
      · intro _
        exact ⟨strip s, ⟨s, hs, rfl, hne⟩, _, rfl⟩
      · intro _
        exact Flawless.singleton_iff.mpr ⟨isA_of_expression, .nil⟩

/-- The value that items spell: a string where a string literal stands alone. -/
theorem valueNode_eq (items : List Item) (t : Token) :
    (∃ u, items.filter (fun i => !i.isBlank) = [.token u] ∧ u.cls = .string ∧ valueNode items t =
      .mk { cls := .of .string, head := some (unquote u.text), origin := some ⟨[u], []⟩ } []) ∨
    ((∀ u, items.filter (fun i => !i.isBlank) = [.token u] → u.cls ≠ .string) ∧
      valueNode items t = expressionNode items t) := by
  unfold valueNode
  split
  · rename_i u hu
    split
    · rename_i hc
      exact .inl ⟨u, hu, hc, rfl⟩
    · rename_i hc
      refine .inr ⟨fun v hv => ?_, rfl⟩
      rw [hu] at hv
      cases hv
      exact hc
  · rename_i hne
    exact .inr ⟨fun u hu => absurd hu (hne u), rfl⟩

theorem attributeKind_cases (p : List Char) (isString : Bool) :
    attributeKind p isString = .customTextAttribute ∨
      attributeKind p isString = .customExpressionAttribute ∨
      attributeKind p isString = .textAttribute ∨ attributeKind p isString = .eventHandler ∨
      attributeKind p isString = .expressionAttribute := by
  unfold attributeKind
  split
  · simp
  · simp
  · simp
  · split <;> simp

theorem attributeKind_of_isName {p : List Char} (hp : isName p = true) (isString : Bool) :
    attributeKind p isString =
      if isString then .textAttribute
      else if isHandlerName p then .eventHandler
      else .expressionAttribute := by
  have hhead : (p.head? == some '"') = false := by
    cases p with
    | nil => rfl
    | cons c p =>
      have hc : c ≠ '"' := by
        rintro rfl
        rw [isName, Bool.and_eq_true] at hp
        exact absurd hp.1 (by decide)
      simpa using hc
  unfold attributeKind
  rw [hhead]
  cases isString <;> rfl

theorem fieldKind_cases (p : List Char) (isString : Bool) :
    fieldKind p isString = .formattedField ∨ fieldKind p isString = .handlerField ∨
      fieldKind p isString = .expressionField := by
  unfold fieldKind
  split
  · simp
  · split <;> simp

theorem unquote_quote (b : List Char) : unquote (quote b) = b := by
  simp [unquote, quote]

end BlockMarkup
