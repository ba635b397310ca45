import BlockMarkup.Proofs.Document.Placed
import BlockMarkup.Proofs.Document.Reading
import BlockMarkup.Proofs.Document.Spelled

/-!
# BlockMarkup.Proofs.Document.Line

What each kind of line is read as. How far an expression goes is up to the lexer, so the lines of
expressions are read back under a condition on the text of the expression: `IsValueText`,
`IsSpreadText`, `IsDecorationText`.
-/

namespace BlockMarkup

open Text

/-- In front of a comma at the end of a line, the text is read as an expression of this text. -/
def IsValueText (s : List Char) : Prop :=
  ∀ (c : Cursor) (more : List Char), c.rest = ' ' :: (s ++ ',' :: '\n' :: more) →
    ∃ items c', Scans .attribute c items c' ∧ c'.rest = '\n' :: more ∧
      Item.Spell (valueItems items) s ∧ Item.isLoneString (valueItems items) = false

/-- At the end of a line, the text is read as a spread expression of this text. -/
def IsSpreadText (s : List Char) : Prop :=
  ∀ (c : Cursor) (more : List Char), c.rest = s ++ '\n' :: more →
    ∃ items c', Scans .spread c items c' ∧ c'.rest = '\n' :: more ∧ Item.Spell items s

/-- The text starts a decoration and is read as the whole of it. -/
def IsDecorationText (s : List Char) : Prop :=
  ∃ o body, s = o ++ body ∧ (o = ['#', '['] ∨ o = ['#', '!', '[']) ∧
    ∀ (c : Cursor) (more : List Char), c.rest = body ++ '\n' :: more →
      ∃ items c', Scans .decoration c items c' ∧ c'.rest = '\n' :: more ∧
        (Item.closedBy? [']'] items).isSome = true ∧ Item.spellingAll items = .ok body

/-! ## String values -/

theorem quote_eq (b : List Char) : quote b = '"' :: (b ++ ['"']) := rfl

theorem blank_space : ∀ x ∈ [' '], isBlank x = true := by
  intro x hx
  cases List.mem_singleton.mp hx
  decide

theorem quote_ne_nil (b : List Char) : quote b ≠ [] := nofun

theorem length_quote (b : List Char) : (quote b).length = b.length + 2 := by
  simp [quote]

/-- The space in front of a value. -/
theorem reads_space {c : Cursor} {s : List Char} (h : c.rest = ' ' :: s)
    (hs : ∀ x ∈ s.head?, isBlank x = false) :
    Reads .attribute c [.token ⟨c.pos, [' '], .blank⟩] ⟨c.pos + 1, s⟩ := by
  refine Reads.stay_text (u := [' ']) (r := ⟨.blanks, .emit .blank, .stay⟩) h nofun ?_ rfl rfl
  rw [List.singleton_append, Rule.first?_eq_filter]
  have hmany : Pattern.blanks.length? (' ' :: s) = some 1 := by
    show Pattern.many isBlank ([' '] ++ s) = some [' '].length
    rw [Pattern.many_eq_some, takeWhile_append_stop blank_space hs]
    exact ⟨rfl, Nat.one_pos⟩
  exact Rule.first?_cons_some (r := ⟨.blanks, .emit .blank, .stay⟩) hmany

/-- A string literal and a comma behind it. -/
theorem scans_string_comma {c : Cursor} {b more : List Char} (hb : isQuotable b = true)
    (h : c.rest = ' ' :: (quote b ++ ',' :: '\n' :: more)) :
    ∃ u v w c', Scans .attribute c [.token u, .token v, .token w] c' ∧ c'.rest = '\n' :: more ∧
      u.cls = .blank ∧ v.cls = .string ∧ v.text = quote b ∧ w.text = [','] := by
  have hstring : Pattern.stringLength? (quote b ++ ',' :: '\n' :: more) = some (quote b).length := by
    rw [length_quote]
    exact Pattern.stringLength?_iff.mpr ⟨b, ',' :: '\n' :: more, by simp [quote], hb, rfl⟩
  have hfirst : Rule.first? Mode.attribute.rules (quote b ++ ',' :: '\n' :: more) =
      some ((quote b).length, ⟨.string, .emit .string, .stay⟩) := by
    have hlast : Pattern.lastString.length? (quote b ++ ',' :: '\n' :: more) = none := by
      simp only [Pattern.length?, hstring, Option.bind_some, Pattern.atLineEnd, List.drop_left]
      rfl
    rw [quote_eq, List.cons_append] at hstring hlast ⊢
    rw [Rule.first?_eq_filter]
    exact (Rule.first?_cons_none hlast).trans (Rule.first?_cons_some hstring)
  have hspace := reads_space h (by rintro x ⟨⟩; decide)
  have hvalue := Reads.stay_text (c := ⟨c.pos + 1, quote b ++ ',' :: '\n' :: more⟩)
    rfl (quote_ne_nil b) hfirst rfl rfl
  have hcomma : Scans .attribute ⟨c.pos + 1 + (quote b).length, ',' :: '\n' :: more⟩ _ _ :=
    Scans.leave_text (u := [',']) (r := ⟨.separator, .emit .separator, .pop⟩) rfl (by decide)
      (by rw [List.singleton_append, Rule.first?_eq_filter]; rfl) rfl rfl
  exact ⟨_, _, _, _, (hspace.trans hvalue) _ _ hcomma, rfl, rfl, rfl, rfl, rfl⟩

/-- A string literal at the end of a line. -/
theorem scans_last_string {c : Cursor} {b more : List Char} (hb : isQuotable b = true)
    (h : c.rest = ' ' :: (quote b ++ '\n' :: more)) :
    ∃ u v c', Scans .attribute c [.token u, .token v] c' ∧ c'.rest = '\n' :: more ∧
      u.cls = .blank ∧ v.cls = .string ∧ v.text = quote b := by
  have hfirst : Rule.first? Mode.attribute.rules (quote b ++ '\n' :: more) =
      some ((quote b).length, ⟨.lastString, .emit .string, .pop⟩) := by
    have hstring : Pattern.stringLength? (quote b ++ '\n' :: more) = some (quote b).length := by
      rw [length_quote]
      exact Pattern.stringLength?_iff.mpr ⟨b, '\n' :: more, by simp [quote], hb, rfl⟩
    have hlast : Pattern.lastString.length? (quote b ++ '\n' :: more) = some (quote b).length := by
      simp only [Pattern.length?, hstring, Option.bind_some, Pattern.atLineEnd, List.drop_left]
      rfl
    rw [quote_eq, List.cons_append] at hlast ⊢
    rw [Rule.first?_eq_filter]
    exact Rule.first?_cons_some hlast
  have hspace := reads_space h (by rintro x ⟨⟩; decide)
  have hvalue := Scans.leave_text (c := ⟨c.pos + 1, quote b ++ '\n' :: more⟩)
    rfl (quote_ne_nil b) hfirst rfl rfl
  exact ⟨_, _, _, hspace _ _ hvalue, rfl, rfl, rfl, rfl⟩

/-! ## Values -/

/-- The value of items that are a lone string literal. -/
theorem forgetOrigin_valueNode_string {items : List Item} {t u : Token} {b : List Char}
    (h : items.filter (fun i => !i.isBlank) = [.token u]) (hc : u.cls = .string)
    (hu : u.text = quote b) : (valueNode items t).forgetOrigin = Node.textual .string b := by
  rcases valueNode_eq items t with ⟨v, hv, -, he⟩ | ⟨hne, -⟩
  · rw [h] at hv
    cases hv
    rw [he, hu, unquote_quote]
    rfl
  · exact absurd hc (hne u h)

theorem forgetOrigin_expressionNode {items : List Item} {t : Token} {s : List Char}
    (h : Item.Spell items s) : (expressionNode items t).forgetOrigin = Node.textual .expression s := by
  obtain ⟨u, hu, hstrip, hne⟩ := h
  subst hstrip
  unfold expressionNode
  simp only [hu]
  rfl

theorem forgetOrigin_valueNode_expression {items : List Item} {t : Token} {s : List Char}
    (h : Item.Spell items s) (hlone : Item.isLoneString items = false) :
    (valueNode items t).forgetOrigin = Node.textual .expression s := by
  rcases valueNode_eq items t with ⟨u, hu, hc, -⟩ | ⟨-, he⟩
  · rw [Item.isLoneString_iff.mpr ⟨u, hu, hc⟩] at hlone
    cases hlone
  · rw [he]
    exact forgetOrigin_expressionNode h

/-! ## Lines of bodies -/

section

variable {m : Mode} {margin : List Char}

theorem mode_of_name {m : Mode} (h : m = .element ∨ m = .component) : m.isBody = true := by
  rcases h with rfl | rfl <;> rfl

theorem reading_text (hm : m.isBody = true) (hmargin : ∀ x ∈ margin, isBlank x = true)
    {b : List Char} (hb : isQuotable b = true) :
    Reading m (margin ++ (quote b ++ ['\n'])) [Node.textual .text b] := by
  refine Reading.line hm hmargin (quote_ne_nil b) ?_ fun c more hc hmore => ?_
  · rintro x ⟨⟩
    exact ⟨by decide, by decide⟩
  · have hfollow : ∀ x ∈ (stripStart ('\n' :: more)).head?, x ≠ ':' := hmore
    have hfirst := Mode.first?_string hm hb fun _ => Pattern.quotedName_none hb hfollow
    rw [← length_quote] at hfirst
    refine ⟨_, _, rfl, Reads.stay_text hc (quote_ne_nil b) hfirst rfl rfl, ?_⟩
    have hnode : nodeOf? m ⟨c.pos, quote b, .string⟩ [] [] =
        some (textNode ⟨c.pos, quote b, .string⟩) := by
      rcases Mode.isBody_iff.mp hm with rfl | rfl | rfl <;> rfl
    have hyields := Yields.token' (by simp [closesBlock, quote]) hnode
    rwa [textNode, unquote_quote] at hyields

theorem reading_decoration (hm : m.isBody = true) (hmargin : ∀ x ∈ margin, isBlank x = true)
    {s : List Char} (hs : IsDecorationText s) :
    Reading m (margin ++ (s ++ ['\n'])) [Node.textual .decoration s] := by
  obtain ⟨o, body, rfl, ho, hbody⟩ := hs
  have hne : o ≠ [] := by rcases ho with rfl | rfl <;> exact nofun
  refine Reading.line hm hmargin (List.append_ne_nil_of_left_ne_nil hne _) ?_
    fun c more hc hmore => ?_
  · rcases ho with rfl | rfl <;> rintro x ⟨⟩ <;> exact ⟨by decide, by decide⟩
  · rw [List.append_assoc] at hc
    obtain ⟨items, c', hscan, hc', hclosed, hspell⟩ :=
      hbody ⟨c.pos + o.length, body ++ '\n' :: more⟩ more rfl
    refine ⟨_, c', hc', Reads.push_text hc hne (Mode.first?_decorator hm ho _) rfl rfl hscan, ?_⟩
    have hopens : Opens m ⟨c.pos, o, .decorator⟩ .decoration := .decorator hm rfl ho
    have hyields := Yields.of_opens (n := decorationNode ⟨c.pos, o, .decorator⟩ items) hm hopens rfl
    obtain ⟨u, hu⟩ := Option.isSome_iff_exists.mp hclosed
    simp only [decorationNode, hu, hspell] at hyields
    exact hyields

/-- A name with a colon, and what the attribute mode makes of the rest of the line. -/
theorem reads_name (hm : m = .element ∨ m = .component) {p : List Char} (hp : isName p = true)
    {c c' : Cursor} {s : List Char} {sub : List Item} (hc : c.rest = p ++ ':' :: s)
    (hs : ∀ x ∈ s.head?, x ≠ ':') (hsub : Scans .attribute ⟨c.pos + (p.length + 1), s⟩ sub c') :
    Reads m c (.token ⟨c.pos, p ++ [':'], .name⟩ :: Item.nested .attribute sub) c' := by
  have hlen : (p ++ [':']).length = p.length + 1 := by simp
  have hsplit : p ++ ':' :: s = (p ++ [':']) ++ s := by simp
  have hfirst := Mode.first?_name (w := []) hm hp nofun hs
  rw [List.nil_append, List.length_nil, Nat.add_zero, hsplit, ← hlen] at hfirst
  rw [hsplit] at hc
  rw [← hlen] at hsub
  exact Reads.push_text hc (by simp) hfirst rfl rfl hsub

theorem nameOf_colon {p : List Char} (hp : isName p = true) (pos : Nat) :
    nameOf ⟨pos, p ++ [':'], .name⟩ = p := by
  rw [nameOf, List.dropLast_concat, stripEnd_of_last (trimmed_of_isName hp).last]

theorem opens_name (hm : m = .element ∨ m = .component) {p : List Char} (hp : isName p = true)
    (pos : Nat) : Opens m ⟨pos, p ++ [':'], .name⟩ .attribute :=
  .name hm rfl ⟨[], rfl, nofun⟩ hp

/-- The line of a name and a value, read back from what the attribute mode makes of it. -/
theorem reading_name (hm : m = .element ∨ m = .component) (hmargin : ∀ x ∈ margin, isBlank x = true)
    {p v : List Char} (hp : isName p = true) {n : Node}
    (hv : ∀ (c : Cursor) (more : List Char), c.rest = ' ' :: (v ++ '\n' :: more) →
      ∃ items c', Scans .attribute c items c' ∧ c'.rest = '\n' :: more ∧ ∀ t, nameOf t = p →
        (if m = .element then attributeNode t items else fieldNode t items).forgetOrigin = n) :
    Reading m (margin ++ (p ++ [':', ' '] ++ v ++ ['\n'])) [n] := by
  have hbody := mode_of_name hm
  refine Reading.line hbody hmargin (by simp) ?_ fun c more hc _ => ?_
  · intro x hx
    cases p with
    | nil => cases hp
    | cons d p =>
      cases hx
      rw [isName, Bool.and_eq_true] at hp
      refine ⟨isBlank_eq_false_of_startsName hp.1, ?_⟩
      rintro rfl
      exact absurd hp.1 (by decide)
  · have hsplit : c.rest = p ++ ':' :: (' ' :: (v ++ '\n' :: more)) := by
      rw [hc]
      simp
    obtain ⟨items, c', hscan, hc', hnode⟩ := hv ⟨c.pos + (p.length + 1), _⟩ more rfl
    have hreads := reads_name hm hp hsplit (by rintro x ⟨⟩; decide) hscan
    have hyields := Yields.of_opens
      (n := if m = .element then attributeNode _ items else fieldNode _ items)
      hbody (opens_name hm hp c.pos) rfl
    rw [hnode _ (nameOf_colon hp c.pos)] at hyields
    exact ⟨_, c', hc', hreads, hyields⟩

theorem forgetOrigin_attributeNode {t : Token} {items : List Item} {p : List Char} {v : Node}
    (ht : nameOf t = p) (hv : (valueNode (valueItems items) t).forgetOrigin = v)
    (hkey : ¬ (p = "key".toList ∧ v.kind = .string)) :
    (attributeNode t items).forgetOrigin =
      .mk { cls := .of (attributeKind p (v.kind = .string)), head := some p } [v] := by
  subst hv
  rw [Node.kind_forgetOrigin] at hkey ⊢
  unfold attributeNode
  simp only [ht]
  rw [if_neg (by simpa using hkey)]
  rfl

theorem forgetOrigin_attributeNode_key {t : Token} {items : List Item} {b : List Char}
    (ht : nameOf t = "key".toList)
    (hv : (valueNode (valueItems items) t).forgetOrigin = Node.textual .string b) :
    (attributeNode t items).forgetOrigin = Node.textual .key b := by
  have hkind : (valueNode (valueItems items) t).kind = .string := by
    rw [← Node.kind_forgetOrigin, hv]
    rfl
  have hhead : (valueNode (valueItems items) t).head = some b := by
    rw [← Node.head_forgetOrigin, hv]
    rfl
  unfold attributeNode
  simp only [ht, hkind, hhead]
  rfl

theorem forgetOrigin_fieldNode {t : Token} {items : List Item} {p : List Char} {v : Node}
    (ht : nameOf t = p) (hv : (valueNode (valueItems items) t).forgetOrigin = v) :
    (fieldNode t items).forgetOrigin =
      .mk { cls := .of (fieldKind p (v.kind = .string)), head := some p } [v] := by
  subst hv
  rw [Node.kind_forgetOrigin]
  unfold fieldNode
  simp only [ht]
  rfl

/-- What stands behind a name is read as the value `v`. -/
def IsValueOf (s : List Char) (v : Node) : Prop :=
  ∀ (c : Cursor) (more : List Char), c.rest = ' ' :: (s ++ '\n' :: more) →
    ∃ items c', Scans .attribute c items c' ∧ c'.rest = '\n' :: more ∧
      ∀ t, (valueNode (valueItems items) t).forgetOrigin = v

theorem isValueOf_string {b : List Char} (hb : isQuotable b = true) :
    IsValueOf (quote b ++ [',']) (Node.textual .string b) := by
  intro c more hc
  rw [List.append_assoc] at hc
  obtain ⟨u, v, w, c', hscan, hc', hu, hv, hvt, hw⟩ := scans_string_comma hb hc
  refine ⟨_, c', hscan, hc', fun t => ?_⟩
  have hitems : valueItems [.token u, .token v, .token w] = [.token u, .token v] := by
    simp [valueItems, Item.closedBy?, hw]
  rw [hitems]
  refine forgetOrigin_valueNode_string (u := v) ?_ hv hvt
  simp [Item.isBlank, hu, hv]

theorem isValueOf_last_string {b : List Char} (hb : isQuotable b = true) :
    IsValueOf (quote b) (Node.textual .string b) := by
  intro c more hc
  obtain ⟨u, v, c', hscan, hc', hu, hv, hvt⟩ := scans_last_string hb hc
  refine ⟨_, c', hscan, hc', fun t => ?_⟩
  have hitems : valueItems [.token u, .token v] = [.token u, .token v] := by
    simp [valueItems, Item.closedBy?, hvt, quote]
  rw [hitems]
  refine forgetOrigin_valueNode_string (u := v) ?_ hv hvt
  simp [Item.isBlank, hu, hv]

theorem isValueOf_expression {s : List Char} (hs : IsValueText s) :
    IsValueOf (s ++ [',']) (Node.textual .expression s) := by
  intro c more hc
  rw [List.append_assoc] at hc
  obtain ⟨items, c', hscan, hc', hspell, hlone⟩ := hs c more hc
  exact ⟨items, c', hscan, hc', fun t => forgetOrigin_valueNode_expression hspell hlone⟩

theorem reading_attribute (hmargin : ∀ x ∈ margin, isBlank x = true) {p s : List Char} {v : Node}
    (hp : isName p = true) (hs : IsValueOf s v) (hkey : ¬ (p = "key".toList ∧ v.kind = .string)) :
    Reading .element (margin ++ (p ++ [':', ' '] ++ s ++ ['\n']))
      [.mk { cls := .of (attributeKind p (v.kind = .string)), head := some p } [v]] := by
  refine reading_name (.inl rfl) hmargin hp fun c more hc => ?_
  obtain ⟨items, c', hscan, hc', hv⟩ := hs c more hc
  exact ⟨items, c', hscan, hc', fun t ht => forgetOrigin_attributeNode ht (hv t) hkey⟩

theorem reading_key (hmargin : ∀ x ∈ margin, isBlank x = true) {b s : List Char}
    (hs : IsValueOf s (Node.textual .string b)) :
    Reading .element (margin ++ ("key".toList ++ [':', ' '] ++ s ++ ['\n']))
      [Node.textual .key b] := by
  refine reading_name (.inl rfl) hmargin (by decide) fun c more hc => ?_
  obtain ⟨items, c', hscan, hc', hv⟩ := hs c more hc
  exact ⟨items, c', hscan, hc', fun t ht => forgetOrigin_attributeNode_key ht (hv t)⟩

theorem reading_field (hmargin : ∀ x ∈ margin, isBlank x = true) {p s : List Char} {v : Node}
    (hp : isName p = true) (hs : IsValueOf s v) :
    Reading .component (margin ++ (p ++ [':', ' '] ++ s ++ ['\n']))
      [.mk { cls := .of (fieldKind p (v.kind = .string)), head := some p } [v]] := by
  refine reading_name (.inr rfl) hmargin hp fun c more hc => ?_
  obtain ⟨items, c', hscan, hc', hv⟩ := hs c more hc
  exact ⟨items, c', hscan, hc', fun t ht => forgetOrigin_fieldNode ht (hv t)⟩

theorem reading_spread (hmargin : ∀ x ∈ margin, isBlank x = true) {s : List Char}
    (hs : IsSpreadText s) :
    Reading .component (margin ++ (['.', '.'] ++ s ++ ['\n']))
      [.mk { cls := .of .spread } [Node.textual .expression s]] := by
  refine Reading.line rfl hmargin (by simp) ?_ fun c more hc _ => ?_
  · rintro x ⟨⟩
    exact ⟨by decide, by decide⟩
  · rw [List.append_assoc] at hc
    obtain ⟨items, c', hscan, hc', hspell⟩ := hs ⟨c.pos + 2, s ++ '\n' :: more⟩ more rfl
    have hreads := Reads.push_text hc nofun (Mode.first?_dots _) rfl rfl hscan
    have hopens : Opens .component ⟨c.pos, ['.', '.'], .operator⟩ .spread := .dots rfl rfl
    have hyields := Yields.of_opens (m := .component) (n := spreadNode _ items) rfl hopens rfl
    refine ⟨_, c', hc', hreads, ?_⟩
    have hnode : (spreadNode ⟨c.pos, ['.', '.'], .operator⟩ items).forgetOrigin =
        .mk { cls := .of .spread } [Node.textual .expression s] := by
      rw [spreadNode, Node.forgetOrigin_mk, List.map_singleton, forgetOrigin_expressionNode hspell]
      rfl
    rwa [hnode] at hyields

/-! ## Blocks -/

theorem follows_closer (hmargin : ∀ x ∈ margin, isBlank x = true) (more : List Char) :
    Follows (margin ++ '\x7d' :: more) := by
  intro x hx
  rw [stripStart_append hmargin, stripStart_of_head (by rintro y ⟨⟩; decide)] at hx
  cases hx
  decide

/-- What stands between the braces of a block, up to the closing one. -/
theorem scans_block {inner : Mode} (hinner : inner = .element ∨ inner = .component)
    (hmargin : ∀ x ∈ margin, isBlank x = true) {s more : List Char} {ns : List Node}
    (hs : Reading inner s ns) {c : Cursor}
    (hc : c.rest = '\n' :: (s ++ (margin ++ '\x7d' :: '\n' :: more))) :
    ∃ items c', Scans inner c items c' ∧ c'.rest = '\n' :: more ∧
      (Item.closedBy? ['\x7d'] items).isSome = true ∧
      (bodyNodes inner items).map Node.forgetOrigin = ns := by
  have hbody := mode_of_name hinner
  have hnewline : ∀ x ∈ ['\n'], isBlank x = true := by
    intro x hx
    cases List.mem_singleton.mp hx
    decide
  obtain ⟨w, items, c₁, hc₁, hw, hreads, hyields⟩ :=
    hs.reads c ['\n'] _ hc hnewline (follows_closer hmargin _)
  rw [← List.append_assoc] at hc₁
  obtain ⟨c₂, hc₂, hblanks⟩ := reads_blanks hbody hc₁ (List.forall_mem_append.mpr ⟨hw, hmargin⟩)
    (by rintro x ⟨⟩; decide)
  have hclose := Scans.leave_text (u := ['\x7d']) hc₂ nofun (Mode.first?_closer hinner _) rfl rfl
  refine ⟨_, _, (hreads.trans hblanks) _ _ hclose, rfl, ?_, ?_⟩
  · simp [Item.closedBy?]
  · rw [List.append_nil, hyields.nodes _ (Yields.startsWithToken_token _ _)]
    have hnil : bodyNodes inner [.token ⟨c₂.pos, ['\x7d'], .bracket⟩] = [] := by
      rcases hinner with rfl | rfl <;> rfl
    rw [hnil, List.map_nil, List.append_nil]

theorem reading_block (hm : m.isBody = true) {inner : Mode}
    (hinner : inner = .element ∨ inner = .component) (hmargin : ∀ x ∈ margin, isBlank x = true)
    {u s : List Char} {r : Rule} {cls : TokenClass} {ns : List Node} {n : Node} (hne : u ≠ [])
    (hhead : ∀ x ∈ u.head?, isBlank x = false ∧ x ≠ ':')
    (hfirst : ∀ t, Rule.first? m.rules (u ++ t) = some (u.length, r))
    (hemit : r.effect = .emit cls) (hmove : r.move = .push inner)
    (hopens : ∀ pos, Opens m ⟨pos, u, cls⟩ inner) (hs : Reading inner s ns)
    (hn : ∀ pos sub, (Item.closedBy? ['\x7d'] sub).isSome = true →
      (bodyNodes inner sub).map Node.forgetOrigin = ns →
      ∃ n', openedNode m inner ⟨pos, u, cls⟩ sub (innerNodes cls (.context inner sub)) = some n' ∧
        n'.forgetOrigin = n) :
    Reading m (margin ++ (u ++ ['\n']) ++ s ++ (margin ++ (['\x7d'] ++ ['\n']))) [n] := by
  have htext : margin ++ (u ++ ['\n']) ++ s ++ (margin ++ (['\x7d'] ++ ['\n'])) =
      margin ++ ((u ++ '\n' :: (s ++ (margin ++ ['\x7d']))) ++ ['\n']) := by
    simp
  rw [htext]
  refine Reading.line hm hmargin (List.append_ne_nil_of_left_ne_nil hne _) ?_
    fun c more hc _ => ?_
  · intro x hx
    cases u with
    | nil => exact absurd rfl hne
    | cons d u => exact hhead x hx
  · have hsplit : c.rest = u ++ ('\n' :: (s ++ (margin ++ '\x7d' :: '\n' :: more))) := by
      rw [hc]
      simp
    obtain ⟨items, c', hscan, hc', hclosed, hnodes⟩ :=
      scans_block hinner hmargin hs
        (c := ⟨c.pos + u.length, '\n' :: (s ++ (margin ++ '\x7d' :: '\n' :: more))⟩) rfl
    obtain ⟨n', hn', he⟩ := hn c.pos items hclosed hnodes
    have hyields := Yields.of_opens hm (hopens c.pos) hn'
    rw [he] at hyields
    exact ⟨_, c', hc', Reads.push_text hsplit hne (hfirst _) hemit hmove hscan, hyields⟩

/-- A closed block, without the tokens it was read from. -/
theorem forgetOrigin_blockNode {k : Kind} {t : Token} {sub : List Item} {ns : List Node}
    (h : (Item.closedBy? ['\x7d'] sub).isSome = true) : (blockNode k t sub ns).forgetOrigin =
      .mk { cls := .of k, head := some (blockNameOf t) } (ns.map Node.forgetOrigin) := by
  obtain ⟨u, hu⟩ := Option.isSome_iff_exists.mp h
  simp only [blockNode, hu]
  rw [Node.forgetOrigin_mk]
  simp [Node.withoutOrigin]

theorem head_of_isPath {p : List Char} (hp : isPath p = true) (t : List Char) :
    ∀ x ∈ (p ++ t).head?, isBlank x = false ∧ x ≠ ':' := by
  intro x hx
  cases p with
  | nil => cases hp
  | cons d p =>
    cases hx
    rw [isPath, Bool.and_eq_true] at hp
    refine ⟨isBlank_eq_false_of_startsName hp.1, ?_⟩
    rintro rfl
    exact absurd hp.1 (by decide)

theorem blockNameOf_brace {p : List Char} (hp : isPath p = true) (pos : Nat) (cls : TokenClass) :
    blockNameOf ⟨pos, p ++ [' ', '\x7b'], cls⟩ = p :=
  have hspells : Token.Spells ⟨pos, p ++ [' ', '\x7b'], cls⟩ p '\x7b' := ⟨[' '], rfl, blank_space⟩
  blockNameOf_of_spells hspells (trimmed_of_isPath hp) (isPath_ne_nil hp)

theorem reading_element (hm : m.isBody = true) (hmargin : ∀ x ∈ margin, isBlank x = true)
    {p s : List Char} {ns : List Node} (hp : isTag p = true) (hs : Reading .element s ns)
    (hkeys : (ns.filter fun (n : Node) => n.kind = .key).length ≤ 1) :
    Reading m (margin ++ (p ++ [' ', '\x7b'] ++ ['\n']) ++ s ++ (margin ++ (['\x7d'] ++ ['\n'])))
      [.mk { cls := .of .element, head := some p } ns] := by
  have hpath := isPath_of_isTag hp
  refine reading_block hm (.inl rfl) hmargin (by simp) (head_of_isPath hpath _)
    (r := ⟨.tag, .emit .tag, .push .element⟩) ?_ rfl rfl ?_ hs ?_
  · intro t
    have hfirst := Mode.first?_tag (t := t) hm hp blank_space
    simpa using hfirst
  · exact fun pos => .tag hm rfl ⟨[' '], rfl, blank_space⟩ hp
  · intro pos sub hclosed hnodes
    have honly : onlyFirst .key .duplicateKey (bodyNodes .element sub) = bodyNodes .element sub := by
      apply onlyFirst_eq_self
      rw [← length_filter_kind_forgetOrigin, hnodes]
      exact hkeys
    refine ⟨_, rfl, ?_⟩
    rw [forgetOrigin_blockNode hclosed, blockNameOf_brace hpath, innerNodes, honly, hnodes]

theorem reading_component (hm : m.isBody = true) (hmargin : ∀ x ∈ margin, isBlank x = true)
    {p s : List Char} {ns : List Node} (hp : isPath p = true) (htag : isTag p = false)
    (hs : Reading .component s ns)
    (hspreads : (ns.filter fun (n : Node) => n.kind = .spread).length ≤ 1) :
    Reading m (margin ++ (p ++ [' ', '\x7b'] ++ ['\n']) ++ s ++ (margin ++ (['\x7d'] ++ ['\n'])))
      [.mk { cls := .of .component, head := some p } ns] := by
  refine reading_block hm (.inr rfl) hmargin (by simp) (head_of_isPath hp _)
    (r := ⟨.path, .emit .path, .push .component⟩) ?_ rfl rfl ?_ hs ?_
  · intro t
    have hfirst := Mode.first?_path (t := t) hm hp htag blank_space
    simpa using hfirst
  · exact fun pos => .path hm rfl ⟨[' '], rfl, blank_space⟩ hp htag
  · intro pos sub hclosed hnodes
    have honly : onlyFirst .spread .secondSpread (bodyNodes .component sub) =
        bodyNodes .component sub := by
      apply onlyFirst_eq_self
      rw [← length_filter_kind_forgetOrigin, hnodes]
      exact hspreads
    refine ⟨_, rfl, ?_⟩
    rw [forgetOrigin_blockNode hclosed, blockNameOf_brace hp, innerNodes, honly, hnodes]

end
end BlockMarkup
