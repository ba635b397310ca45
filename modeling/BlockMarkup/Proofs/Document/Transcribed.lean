import BlockMarkup.Proofs.Document.Expressions

/-!
# BlockMarkup.Proofs.Document.Transcribed

Reading without a flaw, as a judgment: `Transcribed text m items ns` says that the items of a body of
mode `m` in the text make the nodes `ns`, each by the rule of its kind and with the tokens it keeps.
What is read without a flaw is read by these rules (`Scans.transcribed`).
-/

namespace BlockMarkup

open Text

/-- From `c` on, the items are those of the expression `s`, which stands at position `p`. -/
def Item.Express (c : Cursor) (items : List Item) (p : Nat) (s : List Char) : Prop :=
  ∃ w r : List Char, Expresses c (dropTrailing items) w s r ∧ p = c.pos + w.length

/-- The label of a node that was read from tokens. -/
def Label.keeping (k : Kind) (head : Option (List Char)) (opening : List Token)
    (closing : List Token := []) : Label :=
  { cls := .of k, head, origin := some ⟨opening, closing⟩ }

/-- The expression `s` with the tokens it keeps. -/
def Item.expressed (items : List Item) (s : List Char) : Node :=
  .mk (.keeping .expression (some s) (ownTokens (dropTrailing items))) []

/-- The value of an attribute or a field, read from `c` on. -/
inductive Values (c : Cursor) (items : List Item) : Node → Prop where
  | string {t : Token} {b : List Char} : .token t ∈ items → t.text = quote b →
      Values c items (.mk (.keeping .string (some b) [t]) [])
  | expression {p : Nat} {s : List Char} : Item.Express c items p s →
      Values c items (Item.expressed items s)

theorem Values.children_eq_nil {c : Cursor} {items : List Item} {v : Node} (h : Values c items v) :
    v.children = [] := by
  cases h <;> rfl

/-- The node of a token of mode `m` with the items of a context of mode `inner` that is read from `c`
on, where no body is in there. -/
inductive Opened : Mode → Mode → Token → Cursor → List Item → Node → Prop where
  | decoration {m : Mode} {t u : Token} {c : Cursor} {sub : List Item} {s : List Char} :
      Item.closedBy? [']'] sub = some u → Item.spellingAll sub = .ok s →
      Opened m .decoration t c sub (.mk (.keeping .decoration (some (t.text ++ s)) [t] [u]) [])
  | rawExpression {m : Mode} {t u : Token} {c : Cursor} {sub : List Item} {p : Nat}
      {s : List Char} : t.text = ['\x7b'] → Item.closedBy? ['\x7d'] sub = some u →
      Item.Express c sub.dropLast p s → Opened m .rawExpression t c sub
        (.mk (.keeping .rawExpression none [t] [u]) [Item.expressed sub.dropLast s])
  | key {t : Token} {c : Cursor} {sub : List Item} {b : List Char} :
      Opened .element .attribute t c sub (.mk (.keeping .key (some b) [t]) [])
  | attr {t : Token} {c : Cursor} {sub : List Item} {v : Node} : Values c (valueItems sub) v →
      Opened .element .attribute t c sub (.mk (.keeping
        (attributeKind (nameOf t) (v.kind = .string)) (some (nameOf t)) [t]) [v])
  | field {t : Token} {c : Cursor} {sub : List Item} {v : Node} : Values c (valueItems sub) v →
      Opened .component .attribute t c sub (.mk (.keeping
        (fieldKind (nameOf t) (v.kind = .string)) (some (nameOf t)) [t]) [v])
  | spread {t : Token} {c : Cursor} {sub : List Item} {p : Nat} {s : List Char} :
      Item.Express c sub p s → Opened .component .spread t c sub
        (.mk (.keeping .spread none [t]) [Item.expressed sub s])

/-- The kind of the node whose body is read in a mode. -/
def Mode.blockKind? : Mode → Option Kind
  | .element => some .element
  | .component => some .component
  | _ => none

/-- The items of a body of mode `m` are read as the nodes, and none of them is a flaw. -/
inductive Transcribed (text : List Char) : Mode → List Item → List Node → Prop where
  | nil {m : Mode} : Transcribed text m [] []
  | close {m : Mode} {t : Token} : t.text = ['\x7d'] → Transcribed text m [.token t] []
  | separator {m : Mode} {t : Token} {items : List Item} {ns : List Node} : t.cls = .separator →
      Transcribed text m items ns → Transcribed text m (.token t :: items) ns
  | string {m : Mode} {t : Token} {b : List Char} {items : List Item} {ns : List Node} :
      t.text = quote b → Transcribed text m items ns →
      Transcribed text m (.token t :: items) (.mk (.keeping .text (some b) [t]) [] :: ns)
  | opened {m inner : Mode} {t : Token} {c back : Cursor} {sub items : List Item} {n : Node}
      {ns : List Node} : c.In text → c.pos = t.stop → Scans inner c sub back →
      Opened m inner t c sub n → Transcribed text m items ns →
      Transcribed text m (.token t :: (Item.nested inner sub ++ items)) (n :: ns)
  | block {m inner : Mode} {k : Kind} {t u : Token} {p : List Char} {sub items : List Item}
      {cs ns : List Node} : inner.blockKind? = some k → t.Spells p '\x7b' →
      Item.closedBy? ['\x7d'] sub = some u → Transcribed text inner sub cs →
      Transcribed text m items ns → Transcribed text m (.token t :: (Item.nested inner sub ++ items))
        (.mk (.keeping k (some p) [t] [u]) cs :: ns)

/-! ## Reading by the rules -/

section

variable {text : List Char} {m inner : Mode} {c back : Cursor} {sub : List Item} {t : Token}

theorem SoundTree.items {items : List Item} (h : SoundTree m items) : SoundItems m items :=
  ⟨(soundTree_iff.mp h).1.token, (soundTree_iff.mp h).2⟩

/-- An expression that is read without a flaw. -/
theorem express_of_flawless (hscan : Scans m c sub back) (hm : m.isValue = true)
    (hclosed : m = .rawExpression → (Item.closedBy? ['\x7d'] sub).isSome = true)
    (hsound : SoundItems m sub) (h : Flawless [expressionNode (m.expressionItems sub) t]) :
    ∃ p s, Item.Express c (m.expressionItems sub) p s ∧
      expressionNode (m.expressionItems sub) t = Item.expressed (m.expressionItems sub) s := by
  obtain ⟨s, hspell, -⟩ := flawless_expressionNode_iff.mp h
  obtain ⟨w, r, hexpresses⟩ := hscan.expresses hm hclosed hsound hspell
  exact ⟨_, s, ⟨w, r, hexpresses, rfl⟩, expressionNode_of_spell t hspell⟩

theorem values_of_flawless (hscan : Scans .attribute c sub back) (hsound : SoundItems .attribute sub)
    (h : Flawless [valueNode (valueItems sub) t]) :
    Values c (valueItems sub) (valueNode (valueItems sub) t) := by
  rcases valueNode_eq (valueItems sub) t with ⟨u, hu, hc, he⟩ | ⟨-, he⟩
  · have hmem : Item.token u ∈ (valueItems sub).filter fun i => !i.isBlank := by simp [hu]
    replace hmem := (List.mem_filter.mp hmem).1
    obtain ⟨left, hf, -⟩ := hscan.formed
    obtain ⟨b, hb, -⟩ := hf.quote_of_string (mem_of_mem_valueItems hmem) hc
    rw [he, hb, unquote_quote]
    exact .string hmem hb
  · rw [he] at h ⊢
    obtain ⟨p, s, hexpress, hs⟩ := express_of_flawless (m := .attribute) hscan rfl nofun hsound h
    rw [Mode.expressionItems] at hs
    rw [hs]
    exact .expression hexpress

theorem opened_attributeNode (hscan : Scans .attribute c sub back)
    (hsound : SoundItems .attribute sub) (h : Flawless [attributeNode t sub]) :
    Opened .element .attribute t c sub (attributeNode t sub) := by
  unfold attributeNode at h ⊢
  simp only at h ⊢
  split at h
  · rename_i hkey
    rw [if_pos hkey]
    have hstring : (valueNode (valueItems sub) t).kind = .string := hkey.2
    rcases valueNode_eq (valueItems sub) t with ⟨u, -, -, he⟩ | ⟨-, he⟩
    · rw [he]
      exact .key
    · rw [he] at hstring
      exact absurd hstring (kind_expressionNode_ne _ _)
  · rename_i hkey
    rw [if_neg hkey]
    exact .attr (values_of_flawless hscan hsound (Flawless.singleton_iff.mp h).2)

theorem opened_decorationNode (h : Flawless [decorationNode t sub]) :
    Opened m .decoration t c sub (decorationNode t sub) := by
  unfold decorationNode at h ⊢
  split at h
  · exact absurd h (Flawless.not_invalid _ _)
  · rename_i u hu
    split at h
    · exact absurd h (Flawless.not_invalid _ _)
    · rename_i s hs
      exact .decoration hu hs

theorem opened_rawExpressionNode (ht : t.text = ['\x7b']) (hscan : Scans .rawExpression c sub back)
    (hsound : SoundItems .rawExpression sub) (h : Flawless [rawExpressionNode t sub]) :
    Opened m .rawExpression t c sub (rawExpressionNode t sub) := by
  unfold rawExpressionNode at h ⊢
  split at h
  · exact absurd h (Flawless.not_invalid _ _)
  · rename_i u hu
    obtain ⟨p, s, hexpress, he⟩ := express_of_flawless (m := .rawExpression) (t := t) hscan rfl
      (fun _ => by rw [hu]; rfl) hsound (Flawless.singleton_iff.mp h).2
    rw [Mode.expressionItems] at he
    simp only [he]
    exact .rawExpression ht hu hexpress

/-- A block that is read without a flaw keeps the nodes inside its braces. -/
theorem transcribed_block {k dup : Kind} {f : Flaw} {p : List Char} {items : List Item}
    {ns : List Node} (hk : inner.blockKind? = some k) (ht : t.Spells p '\x7b')
    (hname : blockNameOf t = p)
    (hinner : Flawless (bodyNodes inner sub) → Transcribed text inner sub (bodyNodes inner sub))
    (h : Flawless [blockNode k t sub (onlyFirst dup f (bodyNodes inner sub))])
    (hrest : Transcribed text m items ns) :
    Transcribed text m (.token t :: (Item.nested inner sub ++ items))
      (blockNode k t sub (onlyFirst dup f (bodyNodes inner sub)) :: ns) := by
  have hvalid : k.isA .invalid = false := by
    cases inner <;> cases hk <;> rfl
  obtain ⟨hclosed, hnodes⟩ := (flawless_blockNode_iff hvalid).mp h
  obtain ⟨hnodes, hdup⟩ := flawless_onlyFirst_iff.mp hnodes
  obtain ⟨u, hu⟩ := Option.isSome_iff_exists.mp hclosed
  rw [onlyFirst_eq_self hdup]
  have hblock : blockNode k t sub (bodyNodes inner sub) =
      .mk (.keeping k (some p) [t] [u]) (bodyNodes inner sub) := by
    simp [blockNode, hu, hname, Label.keeping]
  rw [hblock]
  exact .block hk ht hu (hinner hnodes) hrest

/-- The node of a token that opens something, in front of the other nodes. -/
theorem transcribed_of_opens {items : List Item} {ns : List Node} (hm : m.isBody = true)
    (hopens : Opens m t inner) (hc : c.In text) (hpos : c.pos = t.stop)
    (hscan : Scans inner c sub back) (hsound : SoundItems inner sub)
    (ih : inner.isBody = true → Flawless (bodyNodes inner sub) →
      Transcribed text inner sub (bodyNodes inner sub))
    (h : Flawless (nodeOf? m t sub (innerNodes t.cls (.context inner sub))).toList)
    (hrest : Transcribed text m items ns) :
    Transcribed text m (.token t :: (Item.nested inner sub ++ items))
      ((nodeOf? m t sub (innerNodes t.cls (.context inner sub))).toList ++ ns) := by
  rw [nodeOf?_of_opens hm hopens, innerNodes_of_opens hopens] at h ⊢
  cases hopens with
  | decorator _ _ _ => exact .opened hc hpos hscan (opened_decorationNode h) hrest
  | brace _ _ ht => exact .opened hc hpos hscan (opened_rawExpressionNode ht hscan hsound h) hrest
  | tag _ _ ht hp =>
    have hp' := isName_of_isTag hp
    exact transcribed_block rfl ht
      (blockNameOf_of_spells ht (trimmed_of_isName hp') (isName_ne_nil hp')) (ih rfl) h hrest
  | path _ _ ht hp _ =>
    exact transcribed_block rfl ht
      (blockNameOf_of_spells ht (trimmed_of_isPath hp) (isPath_ne_nil hp)) (ih rfl) h hrest
  | name hm' _ _ _ =>
    rcases hm' with rfl | rfl
    · exact .opened hc hpos hscan (opened_attributeNode hscan hsound h) hrest
    · exact .opened hc hpos hscan
        (.field (values_of_flawless hscan hsound (Flawless.singleton_iff.mp h).2)) hrest
  | quotedName _ _ _ => exact .opened hc hpos hscan (opened_attributeNode hscan hsound h) hrest
  | dots _ _ =>
    obtain ⟨p, s, hexpress, he⟩ :=
      express_of_flawless (m := .spread) hscan rfl nofun hsound (Flawless.singleton_iff.mp h).2
    have hspread := Opened.spread (t := t) hexpress
    rw [← he] at hspread
    exact .opened hc hpos hscan hspread hrest
  | group hb _ _ =>
    rw [hm] at hb
    cases hb

/-- A token that opens nothing, in front of the other nodes. -/
theorem transcribed_of_stays {r : Rule} {items : List Item} (hm : m.isBody = true)
    (hmove : r.move = .stay) (hmakes : m.Makes r t) (hstart : StartsWithToken items)
    (hrest : Transcribed text m items (bodyNodes m items)) :
    Transcribed text m (.token t :: items) (bodyNodes m (.token t :: items)) := by
  rw [bodyNodes_token hstart (closesBlock_of_stay hm hmove hmakes)]
  rcases stays_in_body hm hmove hmakes with hc | ⟨hc, b, hb, -⟩
  · have hnode : nodeOf? m t [] [] = none := by
      cases m <;> simp_all [nodeOf?, Mode.isBody]
    rw [hnode]
    exact .separator hc hrest
  · have hnode : nodeOf? m t [] [] = some (textNode t) := by
      cases m <;> simp_all [nodeOf?, Mode.isBody]
    rw [hnode, textNode, hb, unquote_quote]
    exact .string hb hrest

end

/-- What is read without a flaw is read by the rules. -/
theorem Scans.transcribed {text : List Char} {m : Mode} {c stop : Cursor} {items : List Item}
    (h : Scans m c items stop) : m.isBody = true → c.In text → SoundItems m items →
      Flawless (bodyNodes m items) → Transcribed text m items (bodyNodes m items) := by
  induction h with
  | @stop m c hs =>
    intro _ _ hsound _
    have hnil : c.rest = [] := by
      by_contra hne
      have htake := c.take_eq .stray (List.length_pos_iff.mpr hne) (Nat.le_refl _)
      rw [htake] at hsound
      exact hsound.not_stray _ List.mem_cons_self rfl
    rw [hnil, List.length_nil, c.take_zero]
    exact .nil
  | @stay m c stop h items hs hmove hscan ih =>
    intro hm hc hsound hfl
    have hskipped := Mode.Hit.skipped_eq_zero hs fun t ht =>
      hsound.not_stray t (List.mem_append_left _ ht)
    obtain ⟨left, hf, -⟩ := hscan.formed
    have hin := Mode.Hit.in_after hs hc
    rcases Mode.Hit.items_of_skipped hs hskipped with ⟨-, hitems⟩ | ⟨t, hitems, hmakes⟩
    · rw [hitems, List.nil_append] at hsound hfl ⊢
      exact ih hm hin hsound hfl
    · rw [hitems, List.singleton_append] at hsound hfl ⊢
      rw [bodyNodes_token hf.startsWithToken (closesBlock_of_stay hm hmove hmakes)] at hfl
      exact transcribed_of_stays hm hmove hmakes hf.startsWithToken
        (ih hm hin ((soundItems_token hf.startsWithToken).mp hsound).2 (Flawless.append_iff.mp hfl).2)
  | @pop m c h hs hmove =>
    intro hm _ hsound _
    have hskipped := Mode.Hit.skipped_eq_zero hs hsound.not_stray
    rcases Mode.Hit.items_of_skipped hs hskipped with ⟨-, hitems⟩ | ⟨t, hitems, hmakes⟩
    · rw [hitems]
      exact .nil
    · obtain ⟨hm', -, ht⟩ := closes_body hm hmove hmakes
      have hclose : closesBlock m t = true := closesBlock_iff.mpr ⟨hm', ht⟩
      rw [hitems, bodyNodes, if_pos hclose]
      exact .close ht
  | @push m inner c back stop h sub items hs hmove hsub hrest ihsub ih =>
    intro hm hc hsound hfl
    have hskipped := Mode.Hit.skipped_eq_zero hs fun t ht =>
      hsound.not_stray t (List.mem_append_left _ (List.mem_append_left _ ht))
    obtain ⟨cls, hemit⟩ : ∃ cls, h.rule.effect = .emit cls := by
      cases he : h.rule.effect with
      | skip => exact absurd he (m.emits_of_push inner _ (Mode.search_sound hs).mem hmove)
      | emit cls => exact ⟨cls, rfl⟩
    obtain ⟨u, hne, -, hpos, hfirst, hitems⟩ := Mode.Hit.token_of_start hs hemit hskipped
    have hmakes : m.Makes h.rule ⟨c.pos, u, cls⟩ := ⟨hemit, ⟨_, hfirst⟩, hne⟩
    have hopens := opens_of_makes hmove hmakes
    have hin := Mode.Hit.in_after hs hc
    obtain ⟨left, hf, -⟩ := hrest.formed
    rw [hitems, List.append_assoc, List.singleton_append] at hsound hfl ⊢
    obtain ⟨⟨-, htree⟩, hsound⟩ := (soundItems_push hf.startsWithToken).mp hsound
    rw [bodyNodes_push hf.startsWithToken (closesBlock_of_opens hopens hm)] at hfl ⊢
    obtain ⟨hnode, hbehind⟩ := Flawless.append_iff.mp hfl
    exact transcribed_of_opens hm hopens hin hpos hsub htree.items
      (fun hb => ihsub hb hin htree.items) hnode
      (ih hm (hsub.located hin).1 hsound hbehind)

/-- The nodes of a text that is read, and the tokens they are made of. -/
theorem transcribed_of_read {origin : Bool} {text : List Char} {d : Node}
    (h : read origin text = .ok d) :
    Transcribed text .root (lex .root text) (bodyNodes .root (lex .root text)) := by
  have hflawless := isOk_read_iff.mp ⟨d, h⟩
  obtain ⟨left, hf⟩ := formed_lex isBottom_root text
  obtain ⟨stop, hscan, -⟩ := scans_lex isBottom_root text
  exact hscan.transcribed rfl (Cursor.in_start text) ((hf.flawless_iff rfl (.inl rfl)).mp hflawless)
    hflawless

end BlockMarkup
