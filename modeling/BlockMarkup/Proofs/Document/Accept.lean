import BlockMarkup.Proofs.Document.Placed
import BlockMarkup.Proofs.Document.Spelled

/-!
# BlockMarkup.Proofs.Document.Accept

The reader accepts a text if and only if its tokens are in order: no flaw of the tokens is lost on
the way to the document, and nothing else is a flaw (`isOk_read_iff_soundTree`).
-/

namespace BlockMarkup

/-! ## Nodes of tokens that open something -/

theorem isA_invalid_attributeKind (p : List Char) (isString : Bool) :
    (attributeKind p isString).isA .invalid = false := by
  rcases attributeKind_cases p isString with h | h | h | h | h <;> rw [h] <;> rfl

theorem isA_invalid_fieldKind (p : List Char) (isString : Bool) :
    (fieldKind p isString).isA .invalid = false := by
  rcases fieldKind_cases p isString with h | h | h <;> rw [h] <;> rfl

theorem flawless_attributeNode_iff {t : Token} {sub : List Item} :
    Flawless [attributeNode t sub] ↔ Flawless [valueNode (valueItems sub) t] := by
  unfold attributeNode
  simp only
  split
  · rename_i hkey
    have hstring : (valueNode (valueItems sub) t).kind = .string := hkey.2
    refine iff_of_true (Flawless.singleton_iff.mpr ⟨rfl, .nil⟩) ?_
    rcases valueNode_eq (valueItems sub) t with ⟨u, -, -, he⟩ | ⟨-, he⟩
    · rw [he]
      exact Flawless.singleton_iff.mpr ⟨rfl, .nil⟩
    · rw [he] at hstring
      exact absurd hstring (kind_expressionNode_ne _ _)
  · rw [Flawless.singleton_iff]
    exact and_iff_right (isA_invalid_attributeKind _ _)

theorem flawless_fieldNode_iff {t : Token} {sub : List Item} :
    Flawless [fieldNode t sub] ↔ Flawless [valueNode (valueItems sub) t] := by
  unfold fieldNode
  rw [Flawless.singleton_iff]
  exact and_iff_right (isA_invalid_fieldKind _ _)

theorem flawless_spreadNode_iff {t : Token} {sub : List Item} :
    Flawless [spreadNode t sub] ↔ Flawless [expressionNode sub t] := by
  unfold spreadNode
  rw [Flawless.singleton_iff]
  exact and_iff_right rfl

theorem flawless_rawExpressionNode_iff {t : Token} {sub : List Item} :
    Flawless [rawExpressionNode t sub] ↔ (Item.closedBy? ['\x7d'] sub).isSome = true ∧
      Flawless [expressionNode sub.dropLast t] := by
  unfold rawExpressionNode
  split
  · rename_i hc
    simp [hc, flawless_invalid_iff]
  · rename_i closing hc
    rw [Flawless.singleton_iff, hc]
    exact and_congr_left fun _ => iff_of_true rfl rfl

theorem flawless_decorationNode_iff {t : Token} {sub : List Item} :
    Flawless [decorationNode t sub] ↔ (Item.closedBy? [']'] sub).isSome = true ∧
      Item.Spelled sub := by
  unfold decorationNode
  split
  · rename_i hc
    simp [hc, flawless_invalid_iff]
  · rename_i closing hc
    split
    · rename_i e he
      simp [flawless_invalid_iff, Item.Spelled, he]
    · rename_i s hs
      rw [hc]
      exact iff_of_true (Flawless.singleton_iff.mpr ⟨rfl, .nil⟩) ⟨rfl, s, hs⟩

/-- A token that opens something is in order if what it opens is as it should be. -/
theorem soundToken_iff_of_opens {m inner : Mode} {t : Token} (hm : m.isBody = true)
    (h : Opens m t inner) (sub : List Item) : SoundToken m t sub ↔
      match inner with
      | .element | .component => (Item.closedBy? ['\x7d'] sub).isSome = true
      | .rawExpression =>
        (Item.closedBy? ['\x7d'] sub).isSome = true ∧ Item.HasValue sub.dropLast
      | .decoration => (Item.closedBy? [']'] sub).isSome = true
      | .attribute => Item.HasValue (valueItems sub)
      | .spread => Item.HasValue sub
      | _ => True := by
  cases h with
  | decorator _ hc ht =>
    refine ⟨fun hs => hs.decorator ht hc, fun h => ?_⟩
    constructor <;> simp_all
  | brace _ hc ht =>
    refine ⟨fun hs => hs.brace hm hc ht, fun h => ?_⟩
    constructor <;> simp_all
  | tag _ hc _ _ =>
    refine ⟨fun hs => hs.block (.inl hc), fun h => ?_⟩
    constructor <;> simp_all
  | path _ hc _ _ _ =>
    refine ⟨fun hs => hs.block (.inr hc), fun h => ?_⟩
    constructor <;> simp_all
  | name _ hc _ _ =>
    refine ⟨fun hs => hs.name hc, fun h => ?_⟩
    constructor <;> simp_all
  | quotedName hc _ _ =>
    refine ⟨fun hs => hs.name hc, fun h => ?_⟩
    constructor <;> simp_all
  | dots hc _ =>
    refine ⟨fun hs => hs.dots hc, fun h => ?_⟩
    constructor <;> simp_all
  | group hb _ _ =>
    rw [hm] at hb
    cases hb

/-! ## Keys and spreads -/

theorem kind_valueNode_iff {items : List Item} {t : Token} :
    (valueNode items t).kind = .string ↔ Item.isLoneString items = true := by
  rw [Item.isLoneString_iff]
  rcases valueNode_eq items t with ⟨u, hu, hc, he⟩ | ⟨hne, he⟩
  · exact iff_of_true (by rw [he]; rfl) ⟨u, hu, hc⟩
  · refine iff_of_false ?_ fun ⟨u, hu, hc⟩ => hne u hu hc
    rw [he]
    exact kind_expressionNode_ne _ _

theorem kind_attributeNode_iff {t : Token} {sub : List Item} (hc : t.cls = .name) :
    (attributeNode t sub).kind = .key ↔ isStringKey (t, sub) = true := by
  have hkey : isStringKey (t, sub) = true ↔
      nameOf t = "key".toList ∧ (valueNode (valueItems sub) t).kind = .string := by
    simp [isStringKey, hc, kind_valueNode_iff]
  rw [hkey]
  unfold attributeNode
  simp only
  split
  · rename_i h
    exact iff_of_true rfl h
  · rename_i h
    refine iff_of_false (fun hk => ?_) h
    have hk' : attributeKind (nameOf t) ((valueNode (valueItems sub) t).kind = .string) = .key := hk
    rcases attributeKind_cases (nameOf t) ((valueNode (valueItems sub) t).kind = .string) with
      h | h | h | h | h <;> (rw [h] at hk'; cases hk')

theorem kind_rawExpressionNode (t : Token) (sub : List Item) :
    (rawExpressionNode t sub).kind = .rawExpression ∨ (rawExpressionNode t sub).kind = .invalid := by
  unfold rawExpressionNode
  split
  · exact .inr rfl
  · exact .inl rfl

theorem kind_decorationNode (t : Token) (sub : List Item) :
    (decorationNode t sub).kind = .decoration ∨ (decorationNode t sub).kind = .invalid := by
  unfold decorationNode
  split
  · exact .inr rfl
  · split
    · exact .inr rfl
    · exact .inl rfl

/-- What a token makes where its class has no meaning of the mode's own. -/
theorem kind_nodeOf? {m : Mode} {t : Token} {sub : List Item} {ns : List Node} {n : Node}
    (h : n ∈ nodeOf? m t sub ns) (hname : t.cls ≠ .name) (hdots : t.cls ≠ .operator) :
    n.kind = .text ∨ n.kind = .element ∨ n.kind = .component ∨ n.kind = .rawExpression ∨
      n.kind = .decoration ∨ n.kind = .invalid := by
  have hraw := kind_rawExpressionNode t sub
  have hdecoration := kind_decorationNode t sub
  cases hc : t.cls <;> cases m <;> simp [nodeOf?, hc] at h hname hdots <;> subst h
  all_goals first
    | exact .inl rfl
    | exact .inr (.inl rfl)
    | exact .inr (.inr (.inl rfl))
    | (rcases hraw with h | h <;> simp [h])
    | (rcases hdecoration with h | h <;> simp [h])
    | exact .inr (.inr (.inr (.inr (.inr rfl))))

/-- In an element, keys are made of strings with the name of a key. -/
theorem kind_nodeOf?_element {t : Token} {sub : List Item} {ns : List Node} {n : Node}
    (h : n ∈ nodeOf? .element t sub ns) : n.kind = .key ↔ isStringKey (t, sub) = true := by
  by_cases hname : t.cls = .name
  · have hnode : nodeOf? .element t sub ns = some (attributeNode t sub) := by simp [nodeOf?, hname]
    rw [hnode] at h
    cases h
    exact kind_attributeNode_iff hname
  · refine iff_of_false ?_ (by simp [isStringKey, hname])
    by_cases hdots : t.cls = .operator
    · simp [nodeOf?, hdots] at h
      subst h
      rintro ⟨⟩
    · rcases kind_nodeOf? h hname hdots with h | h | h | h | h | h <;> rw [h] <;> decide

/-- In a component, spreads are made of dots. -/
theorem kind_nodeOf?_component {t : Token} {sub : List Item} {ns : List Node} {n : Node}
    (h : n ∈ nodeOf? .component t sub ns) : n.kind = .spread ↔ t.cls = .operator := by
  by_cases hdots : t.cls = .operator
  · refine iff_of_true ?_ hdots
    simp [nodeOf?, hdots] at h
    subst h
    rfl
  · refine iff_of_false ?_ hdots
    by_cases hname : t.cls = .name
    · simp [nodeOf?, hname] at h
      subst h
      intro hk
      have hk' : fieldKind (nameOf t) ((valueNode (valueItems sub) t).kind = .string) = .spread := hk
      rcases fieldKind_cases (nameOf t) ((valueNode (valueItems sub) t).kind = .string) with
        h | h | h <;> (rw [h] at hk'; cases hk')
    · rcases kind_nodeOf? h hname hdots with h | h | h | h | h | h <;> rw [h] <;> decide

/-- As many nodes of a kind as tokens of a sort, where each such token makes such a node. -/
theorem Formed.length_filter_bodyNodes {m : Mode} {items : List Item} {left : Bool} {k : Kind}
    {q : Token × List Item → Bool} (h : Formed m items left) (hm : m.isBody = true)
    (hq : ∀ t sub ns,
      ((nodeOf? m t sub ns).toList.filter fun (n : Node) => n.kind = k).length =
        if q (t, sub) then 1 else 0)
    (hclose : ∀ t, t.cls = .bracket → q (t, []) = false) :
    ((bodyNodes m items).filter fun (n : Node) => n.kind = k).length =
      ((Item.opened items).filter q).length := by
  have hcons : ∀ (t : Token) (sub : List Item) (ps : List (Token × List Item)),
      (((t, sub) :: ps).filter q).length = (if q (t, sub) then 1 else 0) + (ps.filter q).length := by
    intro t sub ps
    cases hb : q (t, sub) with
    | true => rw [List.filter_cons_of_pos hb, List.length_cons, if_pos rfl, Nat.add_comm]
    | false => rw [List.filter_cons_of_neg (by rw [hb]; exact nofun), if_neg nofun, Nat.zero_add]
  induction h with
  | stop => rfl
  | leave => rfl
  | @stray m t rest items left hs hfirst hf ih =>
    rw [bodyNodes_token hf.startsWithToken (closesBlock_of_stray hfirst),
      opened_token hf.startsWithToken, List.filter_append, List.length_append, hcons, hq, ih hm hq]
  | @stay m r t items left hmove hmakes hf ih =>
    rw [bodyNodes_token hf.startsWithToken (closesBlock_of_stay hm hmove hmakes),
      opened_token hf.startsWithToken, List.filter_append, List.length_append, hcons, hq, ih hm hq]
  | @close m r t hmove hmakes =>
    obtain ⟨hm', hc, ht⟩ := closes_body hm hmove hmakes
    have hnil : bodyNodes m [.token t] = [] := by
      simp [bodyNodes, closesBlock_iff.mpr ⟨hm', ht⟩]
    rw [hnil, Item.opened, hcons, hclose t hc]
    rfl
  | @push m inner r t c back sub items subLeft left hmove hmakes _ _ _ hf _ ih =>
    rw [bodyNodes_push hf.startsWithToken (closesBlock_of_opens (opens_of_makes hmove hmakes) hm),
      opened_push hf.startsWithToken, List.filter_append, List.length_append, hcons, hq, ih hm hq]

/-- The keys of an element are as many as its tokens of keys. -/
theorem Formed.length_keys {items : List Item} {left : Bool} (h : Formed .element items left) :
    ((bodyNodes .element items).filter fun (n : Node) => n.kind = .key).length =
      ((Item.opened items).filter isStringKey).length := by
  refine h.length_filter_bodyNodes rfl (fun t sub ns => ?_) fun t hc => by simp [isStringKey, hc]
  cases hn : nodeOf? .element t sub ns with
  | none =>
    have hc : t.cls ≠ .name := by
      intro hc
      simp [nodeOf?, hc] at hn
    simp [isStringKey, hc]
  | some n =>
    have := kind_nodeOf?_element (Option.mem_def.mpr hn)
    cases hb : isStringKey (t, sub) <;> simp_all

theorem Formed.length_spreads {items : List Item} {left : Bool} (h : Formed .component items left) :
    ((bodyNodes .component items).filter fun (n : Node) => n.kind = .spread).length =
      ((Item.opened items).filter fun p => p.1.cls = .operator).length := by
  refine h.length_filter_bodyNodes rfl (fun t sub ns => ?_) fun t hc => by simp [hc]
  cases hn : nodeOf? .component t sub ns with
  | none =>
    have hc : t.cls ≠ .operator := by
      intro hc
      simp [nodeOf?, hc] at hn
    simp [hc]
  | some n =>
    have := kind_nodeOf?_component (Option.mem_def.mpr hn)
    by_cases hc : t.cls = .operator <;> simp_all

/-! ## Bodies -/

/-- The end of the text is not in the middle of a value. -/
def endsOutsideValue (inner : Mode) (left : Bool) : Prop :=
  inner = .attribute ∨ inner = .spread → left = true

/-- What a token opens is read without a flaw if it is in order. -/
theorem flawless_openedNode_iff {m inner : Mode} {t : Token} {sub : List Item} {left : Bool}
    (hm : m.isBody = true) (hopens : Opens m t inner) (hsub : Formed inner sub left)
    (hend : endsOutsideValue inner left)
    (ih : inner.isBody = true → left = true →
      (Flawless (bodyNodes inner sub) ↔ SoundItems inner sub)) :
    Flawless (nodeOf? m t sub (innerNodes t.cls (.context inner sub))).toList ↔
      SoundToken m t sub ∧ SoundTree inner sub := by
  rw [nodeOf?_of_opens hm hopens, innerNodes_of_opens hopens, soundToken_iff_of_opens hm hopens]
  have hvisible := hsub.visible
  cases hopens with
  | decorator _ _ _ =>
    simp only [openedNode, Option.toList_some]
    rw [flawless_decorationNode_iff]
    refine and_congr_right fun hclosed => ?_
    rw [hsub.spelled_iff rfl (hsub.closed_decoration_iff.mp hclosed),
      soundTree_iff_soundItems (by decide) (by decide)]
  | brace _ _ _ =>
    simp only [openedNode, Option.toList_some]
    rw [flawless_rawExpressionNode_iff, and_assoc]
    refine and_congr_right fun hclosed => ?_
    have hbrace := hsub.closed_iff (.inr (.inr rfl))
    rw [flawless_expressionNode_iff_spelled (hvisible.of_subset fun _ hi => List.dropLast_subset _ hi),
      hsub.spelled_dropLast_iff (Mode.leavesAt_brace (.inr (.inr rfl))) (by decide) hclosed,
      hsub.spelled_iff rfl (hbrace.mp hclosed), soundTree_iff_soundItems (by decide) (by decide),
      and_comm]
  | tag _ _ _ _ =>
    simp only [openedNode, Option.toList_some]
    rw [flawless_blockNode_iff rfl]
    refine and_congr_right fun hclosed => ?_
    rw [flawless_onlyFirst_iff, hsub.length_keys,
      ih rfl ((hsub.closed_iff (.inl rfl)).mp hclosed), soundTree_iff, SoundItems]
    constructor
    · rintro ⟨⟨htokens, hbelow⟩, hkeys⟩
      exact ⟨⟨htokens, fun _ => hkeys, (by rintro ⟨⟩)⟩, hbelow⟩
    · rintro ⟨hsound, hbelow⟩
      exact ⟨⟨hsound.token, hbelow⟩, hsound.key rfl⟩
  | path _ _ _ _ _ =>
    simp only [openedNode, Option.toList_some]
    rw [flawless_blockNode_iff rfl]
    refine and_congr_right fun hclosed => ?_
    rw [flawless_onlyFirst_iff, hsub.length_spreads,
      ih rfl ((hsub.closed_iff (.inr (.inl rfl))).mp hclosed), soundTree_iff, SoundItems]
    constructor
    · rintro ⟨⟨htokens, hbelow⟩, hspreads⟩
      exact ⟨⟨htokens, (by rintro ⟨⟩), fun _ => hspreads⟩, hbelow⟩
    · rintro ⟨hsound, hbelow⟩
      exact ⟨⟨hsound.token, hbelow⟩, hsound.spread rfl⟩
  | name _ _ _ _ | quotedName _ _ _ =>
    simp only [openedNode, Option.toList_some]
    have hnode : ∀ b : Prop, [Decidable b] →
        (Flawless [if b then attributeNode t sub else fieldNode t sub] ↔
          Flawless [valueNode (valueItems sub) t]) := by
      intro b _
      split
      · exact flawless_attributeNode_iff
      · exact flawless_fieldNode_iff
    rw [hnode, flawless_valueNode_iff (hvisible.of_subset fun _ => mem_of_mem_valueItems),
      hsub.spelled_valueItems_iff, hsub.spelled_iff rfl (hend (.inl rfl)),
      soundTree_iff_soundItems (by decide) (by decide), and_comm]
  | dots _ _ =>
    simp only [openedNode, Option.toList_some]
    rw [flawless_spreadNode_iff, flawless_expressionNode_iff_spelled hvisible,
      hsub.spelled_iff rfl (hend (.inr rfl)), soundTree_iff_soundItems (by decide) (by decide),
      and_comm]
  | group hb _ _ =>
    rw [hm] at hb
    cases hb

/-- A body that a match left, or that of a whole text, is read without a flaw if and only if its
tokens are in order. -/
theorem Formed.flawless_iff {m : Mode} {items : List Item} {left : Bool}
    (h : Formed m items left) : m.isBody = true → m = .root ∨ left = true →
      (Flawless (bodyNodes m items) ↔ SoundItems m items) := by
  induction h with
  | stop => exact fun _ _ => iff_of_true .nil (soundItems_nil _)
  | leave => exact fun _ _ => iff_of_true .nil (soundItems_nil _)
  | @stray m t rest items left hs hfirst hf ih =>
    intro hm _
    have hbad : nodeOf? m t [] [] = some (.invalid (.unexpected t.text) (some t.pos)) := by
      cases m <;> simp_all [nodeOf?, Mode.isBody]
    rw [bodyNodes_token hf.startsWithToken (closesBlock_of_stray hfirst), hbad,
      soundItems_token hf.startsWithToken]
    exact iff_of_false (Flawless.not_invalid _ _) fun h => h.1.matched hs
  | @stay m r t items left hmove hmakes hf ih =>
    intro hm hleft
    have hnode : Flawless (nodeOf? m t [] []).toList := by
      rcases stays_in_body hm hmove hmakes with hc | ⟨hc, -⟩
      · have : nodeOf? m t [] [] = none := by cases m <;> simp_all [nodeOf?, Mode.isBody]
        rw [this]
        exact .nil
      · have : nodeOf? m t [] [] = some (textNode t) := by
          cases m <;> simp_all [nodeOf?, Mode.isBody]
        rw [this]
        exact Flawless.singleton_iff.mpr ⟨rfl, .nil⟩
    have hcls : t.cls ≠ .stray := by
      rcases stays_in_body hm hmove hmakes with hc | ⟨hc, -⟩ <;> rw [hc] <;> decide
    rw [bodyNodes_token hf.startsWithToken (closesBlock_of_stay hm hmove hmakes),
      Flawless.append_iff, soundItems_token hf.startsWithToken,
      soundToken_plain_iff hmakes (.inl hmove), ih hm hleft]
    simp [hnode, hcls]
  | @close m r t hmove hmakes =>
    intro hm _
    obtain ⟨hm', hc, ht⟩ := closes_body hm hmove hmakes
    have hnil : bodyNodes m [.token t] = [] := by
      simp [bodyNodes, closesBlock_iff.mpr ⟨hm', ht⟩]
    rw [hnil, soundItems_token startsWithToken_nil, soundToken_plain_iff hmakes (.inr hmove)]
    exact iff_of_true .nil ⟨by rw [hc]; decide, soundItems_nil _⟩
  | @push m inner r t c back sub items subLeft left hmove hmakes _ hsub hrest hf ihsub ih =>
    intro hm hleft
    have hopens := opens_of_makes hmove hmakes
    have hend : endsOutsideValue inner subLeft := by
      intro hinner
      cases hb : subLeft with
      | true => rfl
      | false =>
        obtain rfl : m = .root := by
          rcases hleft with hroot | hl
          · exact hroot
          · rw [(hrest hb).2] at hl
            cases hl
        rcases hinner with rfl | rfl
        · cases hopens with
          | name hm' _ _ _ => rcases hm' with he | he <;> cases he
        · cases hopens
    rw [bodyNodes_push hf.startsWithToken (closesBlock_of_opens hopens hm), Flawless.append_iff,
      soundItems_push hf.startsWithToken, ih hm hleft,
      flawless_openedNode_iff hm hopens hsub hend fun hb hl => ihsub hb (.inr hl)]

/-- A text is accepted if and only if its tokens are in order, in every context. -/
theorem isOk_read_iff_soundTree (origin : Bool) (text : List Char) :
    (∃ d, read origin text = .ok d) ↔ SoundTree .root (lex .root text) := by
  obtain ⟨left, hf⟩ := formed_lex isBottom_root text
  rw [isOk_read_iff, hf.flawless_iff rfl (.inl rfl),
    soundTree_iff_soundItems (by decide) (by decide)]

end BlockMarkup
