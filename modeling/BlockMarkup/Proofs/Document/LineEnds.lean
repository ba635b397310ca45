import BlockMarkup.Proofs.Document.Role
import BlockMarkup.Proofs.Document.Slices
import BlockMarkup.Proofs.Expression.Gaps

/-!
# BlockMarkup.Proofs.Document.LineEnds

Where the end of a line ends a value. A spread stops at a line feed outside of brackets, and the value
of an attribute or a field stops behind a string literal that closes its line, unless there is white
space other than spaces and tabs on that line first (`line_ends_of_read`). A text without such white
space has no line end inside a value that should have ended there (`line_ends_of_plain`).
-/

namespace BlockMarkup

open Text Lexeme

/-- White space other than spaces, tabs and line feeds. -/
def isOtherBlank (c : Char) : Bool := isBlank c && !Pattern.isSpace c && c ≠ '\n'

theorem isSpace_of_not_isOtherBlank {c : Char} (h : isOtherBlank c = false) (hc : isBlank c = true)
    (hfeed : c ≠ '\n') : Pattern.isSpace c = true := by
  simpa [isOtherBlank, hc, hfeed] using h

/-- Each line feed of the text has other white space in front of it. -/
def Covered (u : List Char) : Prop := ∀ a b, u = a ++ '\n' :: b → ∃ c ∈ a, isOtherBlank c = true

theorem Covered.append {u v : List Char} (hu : Covered u) (hv : Covered v) : Covered (u ++ v) := by
  intro a b h
  rcases List.append_eq_append_iff.mp h with ⟨a', rfl, rfl⟩ | ⟨b', rfl, hb⟩
  · obtain ⟨c, hc, hother⟩ := hv a' b rfl
    exact ⟨c, List.mem_append_right _ hc, hother⟩
  · cases b' with
    | nil =>
      obtain ⟨c, hc, -⟩ := hv [] b hb.symm
      cases hc
    | cons d b' =>
      obtain rfl := (List.cons.inj hb).1
      exact hu a b' rfl

/-- Tokens of these classes may hold line feeds for any reason. -/
def freeClasses : List TokenClass := [.rawString, .string, .char, .comment]

/-- Outside of brackets, literals and comments, each line feed of the expression stands in white space
and has other white space in front of it. -/
def OnLine (s : List Char) : Prop := ∀ t : Token, .token t ∈ lex .expression s → '\n' ∈ t.text →
  t.cls ∈ freeClasses ∨ t.cls = .blank ∧ Covered t.text

/-- On the line in front of `s` there is nothing more than the white space `a` and a line comment. -/
structure LineRest (a s : List Char) : Prop where
  blank : ∀ c ∈ a, isBlank c = true ∧ c ≠ '\n'
  ends : ∃ u b, s = a ++ (u ++ '\n' :: b) ∧ (u = [] ∨ ∃ v, u = '/' :: '/' :: v)

/-- Where the line ends in front of `s`, there is other white space on it first. -/
def KeepsLine (s : List Char) : Prop := ∀ a, LineRest a s → ∃ c ∈ a, isOtherBlank c = true

/-- Outside of brackets, a string literal does not close a line in the expression, but for other white
space. -/
def StringsGoOn (s : List Char) : Prop :=
  ∀ t : Token, .token t ∈ lex .expression s → t.cls = .string → KeepsLine (s.drop t.stop)

/-! ## Tokens with line feeds -/

theorem Mode.Makes.class_of_feed {r : Rule} {t : Token} (h : Mode.expression.Makes r t)
    (hfeed : '\n' ∈ t.text) : t.cls ∈ freeClasses ∨ t.cls = .blank := by
  obtain ⟨rest, hmatch⟩ := h.matched
  have hrules : ∀ r ∈ Mode.expression.rules,
      r.effect ∈ (.blank :: freeClasses).map Effect.emit ∨
        r.pattern ∈ [Pattern.looseMark, .quote, .groupOpener, .run] := by decide
  have hone : ∀ q : Char → Bool, q '\n' = false →
      Pattern.one q (t.text ++ rest) ≠ some t.text.length := by
    intro q hq he
    obtain ⟨c, hc, hqc⟩ := eq_of_one he
    rw [hc, List.mem_singleton] at hfeed
    rw [← hfeed, hq] at hqc
    cases hqc
  rcases hrules r h.mem with heffect | hpattern
  · obtain ⟨cls, hcls, he⟩ := List.mem_map.mp heffect
    cases he.trans h.effect
    exact (List.mem_cons.mp hcls).symm
  · simp only [List.mem_cons, List.not_mem_nil, or_false] at hpattern
    rcases hpattern with hp | hp | hp | hp <;> rw [hp] at hmatch
    · exact absurd hmatch (hone _ rfl)
    · exact absurd hmatch (hone _ rfl)
    · exact absurd hmatch (hone _ rfl)
    · simp only [Pattern.length?] at hmatch
      split at hmatch
      · rename_i n hmany
        cases hmatch
        obtain ⟨hrun, -⟩ := takeWhile_eq_of_length (Pattern.many_eq_some.mp hmany).1
        exact absurd (hrun _ hfeed) (by decide)
      · exact absurd hmatch (hone _ rfl)

/-- Of the tokens of an expression, only literals, comments and white space hold line feeds. -/
theorem class_of_feed {s : List Char} {t : Token} (ht : .token t ∈ lex .expression s)
    (hfeed : '\n' ∈ t.text) : t.cls ∈ freeClasses ∨ t.cls = .blank := by
  obtain ⟨left, hformed⟩ := formed_lex isBottom_expression s
  rcases hformed.origin t ht with ⟨-, rest, hnone⟩ | ⟨r, hmakes⟩
  · obtain ⟨c, v, hv⟩ := List.exists_cons_of_ne_nil (List.ne_nil_of_mem hfeed)
    rw [hv] at hnone
    exact absurd hnone (Rule.first?_ne_none (.inl rfl) _)
  · exact hmakes.class_of_feed hfeed

/-- White space in a spread holds only spaces and tabs, or starts with other white space. -/
theorem Mode.Makes.spread_blank {r : Rule} {t : Token} (h : Mode.spread.Makes r t)
    (ht : t.cls = .blank) :
    (∀ c ∈ t.text, Pattern.isSpace c = true) ∨ ∃ d v, t.text = d :: v ∧ isOtherBlank d = true := by
  obtain ⟨rest, hfirst⟩ := h.first
  have hrules : ∀ r ∈ Mode.spread.rules, r.effect = .emit .blank →
      r = ⟨.spaces, .emit .blank, .stay⟩ ∨ r = ⟨.blanks, .emit .blank, .stay⟩ := by decide
  rcases hrules r h.mem (by rw [h.effect, ht]) with rfl | rfl
  · exact .inl (takeWhile_eq_of_length (Pattern.many_eq_some.mp (Rule.first?_eq_some hfirst).2).1).1
  · obtain ⟨hblank, -⟩ := takeWhile_eq_of_length
      (Pattern.many_eq_some.mp (Rule.first?_eq_some hfirst).2).1
    obtain ⟨d, v, hv⟩ := List.exists_cons_of_ne_nil h.nonempty
    -- The rules in front of it, for a line end and for spaces and tabs, do not match.
    have hsplit : Mode.spread.rules = Mode.spread.rules.take 2 ++ Mode.spread.rules.drop 2 := rfl
    rw [hsplit] at hfirst
    have hbefore := Rule.first?_append_none hfirst (by decide)
    have hfeed : d ≠ '\n' := by
      have hnone := hbefore ⟨.spreadEnd, .skip, .pop⟩ (by decide)
      rw [hv] at hnone
      rintro rfl
      cases hnone
    have hspace : Pattern.isSpace d = false := by
      have hnone := hbefore ⟨.spaces, .emit .blank, .stay⟩ (by decide)
      rw [hv] at hnone
      by_contra hspace
      rw [Bool.not_eq_false] at hspace
      simp [Pattern.length?, Pattern.many, List.takeWhile_cons_of_pos hspace] at hnone
    have hblank : isBlank d = true := hblank d (by rw [hv]; exact List.mem_cons_self)
    exact .inr ⟨d, v, hv, by simp [isOtherBlank, hblank, hspace, hfeed]⟩

theorem Mode.Makes.covered {r : Rule} {t : Token} (h : Mode.spread.Makes r t)
    (ht : t.cls = .blank) : Covered t.text := by
  intro a b hab
  rcases h.spread_blank ht with hspaces | ⟨d, v, hv, hother⟩
  · have hfeed : Pattern.isSpace '\n' = true := hspaces '\n' (by rw [hab]; simp)
    cases hfeed
  · rw [hv] at hab
    cases a with
    | nil =>
      obtain rfl := (List.cons.inj hab).1
      cases hother
    | cons e a =>
      obtain rfl := (List.cons.inj hab).1
      exact ⟨d, List.mem_cons_self, hother⟩

/-! ## Spreads -/

/-- What holds of the white space that the context of an expression finds holds of the white space of
the expression on its own. -/
theorem Expresses.gaps {c : Cursor} {items : List Item} {w s r : List Char} {Q : List Char → Prop}
    (h : Expresses c items w s r) (hjoin : ∀ {a b}, Q a → Q b → Q (a ++ b))
    (hQ : Item.Gaps Q items) : Item.Gaps Q (lex .expression s) := by
  obtain ⟨d, v, rfl⟩ := List.exists_cons_of_ne_nil h.nonempty
  obtain ⟨front, own, rfl, -, hpieces⟩ := h.pieces.behind_blanks rfl h.blank (h.trimmed.head d rfl)
  exact (hpieces.truncate (u := []) rfl).blank_of_lex hjoin hQ.right

theorem onLine_of_express {c back : Cursor} {sub : List Item} {p : Nat} {s : List Char}
    (hscan : Scans .spread c sub back) (h : Item.Express c sub p s) : OnLine s := by
  obtain ⟨w, r, h, -⟩ := h
  obtain ⟨left, hformed, -⟩ := hscan.formed
  have hgaps : Item.Gaps Covered (Item.dropTrailing sub) := by
    intro t ht hc
    rcases hformed.origin t (Item.mem_of_mem_dropTrailing ht) with ⟨hstray, -⟩ | ⟨r, hmakes⟩
    · rw [hstray] at hc
      cases hc
    · exact hmakes.covered hc
  intro t ht hfeed
  exact (class_of_feed ht hfeed).imp_right fun hc => ⟨hc, h.gaps .append hgaps t ht hc⟩

/-! ## Strings at line ends -/

theorem LineRest.append {a s : List Char} (h : LineRest a s) (t : List Char) : LineRest a (s ++ t) := by
  obtain ⟨u, b, rfl, hu⟩ := h.ends
  exact ⟨h.blank, u, b ++ t, by simp, hu⟩

/-- Where there are only spaces and tabs, the lexer finds the end of the line. -/
theorem LineRest.atLineEnd {a s : List Char} {n : Nat} (h : LineRest a (s.drop n))
    (ha : ∀ c ∈ a, isOtherBlank c = false) : Pattern.atLineEnd s n = some n := by
  have hspace : ∀ c ∈ a, Pattern.isSpace c = true := fun c hc =>
    isSpace_of_not_isOtherBlank (ha c hc) (h.blank c hc).1 (h.blank c hc).2
  obtain ⟨u, b, hs, hu⟩ := h.ends
  unfold Pattern.atLineEnd
  rw [hs, List.dropWhile_append_of_pos hspace]
  rcases hu with rfl | ⟨v, rfl⟩
  · rfl
  · simp [Pattern.isSpace]

/-- A string literal that does not end its context does not close its line. -/
theorem Mode.Hit.keepsLine {c : Cursor} {h : Mode.Hit} {u : List Char}
    (hfirst : Rule.first? Mode.attribute.rules (u ++ (h.after c).rest) = some (u.length, h.rule))
    (hemit : h.rule.effect = .emit .string) (hmove : h.rule.move = .stay) :
    KeepsLine (h.after c).rest := by
  have hrules : ∀ r ∈ Mode.attribute.rules, r.effect = .emit .string → r.move = .stay →
      r = ⟨.string, .emit .string, .stay⟩ := by decide
  obtain ⟨hmem, hmatch⟩ := Rule.first?_eq_some hfirst
  have hrule := hrules h.rule hmem hemit hmove
  rw [hrule] at hfirst hmatch
  have hsplit : Mode.attribute.rules = Mode.attribute.rules.take 3 ++ Mode.attribute.rules.drop 3 :=
    rfl
  rw [hsplit] at hfirst
  have hlast := Rule.first?_append_none hfirst (by decide) ⟨.lastString, .emit .string, .pop⟩
    (by decide)
  have hstring : Pattern.stringLength? (u ++ (h.after c).rest) = some u.length := hmatch
  simp only [Pattern.length?, hstring, Option.bind_some] at hlast
  intro a hline
  by_contra hother
  have hline : LineRest a ((u ++ (h.after c).rest).drop u.length) := by rwa [List.drop_left]
  rw [hline.atLineEnd fun c hc => Bool.eq_false_iff.mpr fun h => hother ⟨c, hc, h⟩] at hlast
  cases hlast

/-- The token that a match makes stands behind what is passed over. -/
theorem Mode.Hit.of_mem {m : Mode} {c : Cursor} {h : Mode.Hit} (hs : m.search c.rest = some h)
    {t : Token} (ht : .token t ∈ h.items c) (hstray : t.cls ≠ .stray) :
    h.items c = c.take h.skipped .stray ++ [.token t] ∧ h.rule.effect = .emit t.cls ∧
      t.pos = (c.advance h.skipped).pos ∧
      (c.advance h.skipped).rest = t.text ++ (h.after c).rest ∧
      Rule.first? m.rules (t.text ++ (h.after c).rest) = some (t.text.length, h.rule) := by
  have hsound := Mode.search_sound hs
  rw [Mode.Hit.items] at ht ⊢
  replace ht := (List.mem_append.mp ht).resolve_left fun ht => hstray (Cursor.mem_take ht)
  cases hemit : h.rule.effect with
  | skip =>
    rw [hemit] at ht
    cases ht
  | emit cls =>
    have hpos : 0 < h.length := Pattern.length?_pos
      (m.looksAhead_of_emits _ hsound.mem (by rw [hemit]; rintro ⟨⟩)) hsound.matched
    have hle : h.length ≤ (c.advance h.skipped).rest.length := Pattern.length?_le hsound.matched
    rw [hemit, Cursor.emit, Cursor.take_eq _ cls hpos hle] at ht
    rw [Cursor.emit, Cursor.take_eq _ cls hpos hle]
    cases List.mem_singleton.mp ht
    have hsplit : (c.advance h.skipped).rest =
        (c.advance h.skipped).rest.take h.length ++ (h.after c).rest :=
      (List.take_append_drop _ _).symm
    refine ⟨rfl, rfl, rfl, hsplit, ?_⟩
    rw [← hsplit, List.length_take, Nat.min_eq_left hle]
    exact hsound.first

theorem Cursor.In.drop_stop {c : Cursor} {text rest : List Char} {t : Token} (hc : c.In text)
    (hpos : t.pos = c.pos) (hrest : c.rest = t.text ++ rest) : text.drop t.stop = rest := by
  obtain ⟨before, htext, hlength⟩ := hc
  rw [htext, hrest, Token.stop, hpos, hlength, ← List.append_assoc, ← List.length_append,
    List.drop_left]

/-- No string literal opens anything in a value. -/
theorem Mode.not_push_of_string (r : Rule) (hr : r ∈ Mode.attribute.rules)
    (he : r.effect = .emit .string) (inner : Mode) : r.move ≠ .push inner := by
  have hrules : ∀ r ∈ Mode.attribute.rules, r.effect = .emit .string →
      r.move = .stay ∨ r.move = .pop := by decide
  rcases hrules r hr he with h | h <;> (rw [h]; rintro ⟨⟩)

/-- A string literal in a value ends it, or does not close its line. -/
theorem Scans.keepsLine {m : Mode} {c back : Cursor} {sub : List Item} {text : List Char}
    (h : Scans m c sub back) : m = .attribute → c.In text → ∀ t, .token t ∈ sub → t.cls = .string →
      (∃ init, sub = init ++ [.token t]) ∨ KeepsLine (text.drop t.stop) := by
  have hstray : ∀ {t : Token}, t.cls = .string → t.cls ≠ .stray := by
    intro t hcls
    rw [hcls]
    exact nofun
  induction h with
  | stop _ =>
    intro _ _ t ht hcls
    exact absurd (Cursor.mem_take ht) (hstray hcls)
  | @stay m c stop h items hs hmove hrest ih =>
    rintro rfl hc t ht hcls
    rcases List.mem_append.mp ht with ht | ht
    · obtain ⟨-, hemit, hpos, hsplit, hfirst⟩ := Mode.Hit.of_mem hs ht (hstray hcls)
      rw [hcls] at hemit
      refine .inr ?_
      rw [(hc.advance (Mode.search_sound hs).skipped_lt.le).drop_stop hpos hsplit]
      exact Mode.Hit.keepsLine hfirst hemit hmove
    · rcases ih rfl (Mode.Hit.in_after hs hc) t ht hcls with ⟨init, rfl⟩ | hgo
      · exact .inl ⟨h.items c ++ init, (List.append_assoc _ _ _).symm⟩
      · exact .inr hgo
  | pop hs _ =>
    rintro rfl hc t ht hcls
    exact .inl ⟨_, (Mode.Hit.of_mem hs ht (hstray hcls)).1⟩
  | @push m inner c back stop h sub items hs hmove hsub _ _ ih =>
    rintro rfl hc t ht hcls
    rcases List.mem_append.mp ht with ht | ht
    · have ht := (List.mem_append.mp ht).resolve_right (Item.not_token_nested inner sub t)
      obtain ⟨-, hemit, -⟩ := Mode.Hit.of_mem hs ht (hstray hcls)
      rw [hcls] at hemit
      exact absurd hmove (Mode.not_push_of_string _ (Mode.search_sound hs).mem hemit inner)
    · rcases ih rfl (hsub.located (Mode.Hit.in_after hs hc)).1 t ht hcls with ⟨init, rfl⟩ | hgo
      · exact .inl ⟨_ ++ init, (List.append_assoc _ _ _).symm⟩
      · exact .inr hgo

theorem KeepsLine.of_append {s t : List Char} (h : KeepsLine (s ++ t)) : KeepsLine s :=
  fun a ha => h a (ha.append t)

theorem keepsLine_nil : KeepsLine [] := by
  intro a ha
  obtain ⟨u, b, hnil, -⟩ := ha.ends
  exact absurd hnil.symm (List.append_ne_nil_of_right_ne_nil a
    (List.append_ne_nil_of_right_ne_nil u (List.cons_ne_nil _ _)))

/-- No token ends behind the last one. -/
theorem Ordered.stop_le {p q : Nat} {init : List Item} {t u : Token}
    (h : Ordered p (Item.tokensAll (init ++ [.token t])) q)
    (hu : u ∈ Item.tokensAll (init ++ [.token t])) : u.stop ≤ t.stop := by
  have hsorted := h.sorted
  rw [Item.tokensAll_append] at hu hsorted
  have hlast : Item.tokensAll [.token t] = [t] := rfl
  rw [hlast] at hu hsorted
  rcases List.mem_append.mp hu with hu | hu
  · have hle := (List.pairwise_append.mp hsorted).2.2 u hu t List.mem_cons_self
    rw [Token.stop] at hle ⊢
    exact Nat.le_trans hle (Nat.le_add_right _ _)
  · rw [List.mem_singleton.mp hu]

/-- An expression ends with a token of its items. -/
theorem Expresses.exists_last {c : Cursor} {items : List Item} {w s r : List Char}
    (h : Expresses c items w s r) :
    ∃ t ∈ Item.tokensAll items, t.stop = c.pos + w.length + s.length := by
  obtain ⟨x, hx, hstop⟩ := (h.covers 0).last
  refine ⟨x.2, ?_, hstop⟩
  rw [← Item.map_leveledAll 0]
  exact List.mem_map_of_mem (List.mem_of_mem_filter hx)

theorem stringsGoOn_of_express {c back : Cursor} {sub : List Item} {p : Nat}
    {s text : List Char} (hscan : Scans .attribute c sub back) (hc : c.In text)
    (h : Item.Express c (valueItems sub) p s) : StringsGoOn s := by
  obtain ⟨w, r, h, -⟩ := h
  intro t ht hcls
  have hmem : .token (t.moved (c.pos + w.length)) ∈ sub :=
    mem_of_mem_valueItems (Item.mem_of_mem_dropTrailing (h.token_mem ht (by rw [hcls]; decide)))
  rcases hscan.keepsLine rfl hc _ hmem hcls with ⟨init, hlast⟩ | hgo
  · -- The value ends with the literal, and nothing of it stands behind.
    obtain ⟨u, hu, hstop⟩ := h.exists_last
    have hsub := (Item.tokensAll_sublist ((Item.dropTrailing_sublist _).trans
      (Item.valueItems_sublist sub))).subset hu
    have hordered := hscan.ordered
    rw [hlast] at hsub hordered
    have hle := hordered.stop_le hsub
    rw [hstop, Token.moved_stop, Nat.add_le_add_iff_left] at hle
    rw [List.drop_eq_nil_of_le hle]
    exact keepsLine_nil
  · obtain ⟨before, htext, hpos⟩ := hc
    have hsplit : text = (before ++ w) ++ (s ++ r) := by rw [htext, h.rest, List.append_assoc]
    rw [Token.moved_stop, ← List.drop_drop, hsplit, hpos, ← List.length_append, List.drop_left,
      List.drop_append] at hgo
    exact hgo.of_append

/-! ## Documents -/

/-- A line end ends the values of the node, but for other white space. -/
def Node.EndsAtLines (n : Node) : Prop := ∀ v : Node, v ∈ n.children → v.cls = .of .expression →
  ∀ s, v.head = some s → (n.cls = .of .spread → OnLine s) ∧
    (n.isA .attribute = true ∨ n.isA .field = true → StringsGoOn s)

theorem Node.endsAtLines_leaf {l : Label} : Node.EndsAtLines (.mk l []) := nofun

theorem Node.endsAtLines_of_kind {l : Label} {k : Kind} {cs : List Node} (hl : l.cls = .of k)
    (hspread : k ≠ .spread) (hattribute : k.isA .attribute = false) (hfield : k.isA .field = false) :
    Node.EndsAtLines (.mk l cs) := by
  intro v _ _ s _
  constructor
  · intro hc
    have hc : l.cls = .of .spread := hc
    rw [hl] at hc
    cases hc
    exact absurd rfl hspread
  · rw [Node.isA_of_cls (n := .mk l cs) hl, Node.isA_of_cls (n := .mk l cs) hl, hattribute, hfield]
    rintro (h | h) <;> cases h

/-- In a value that is read by the rules, strings do not close lines. -/
theorem Values.stringsGoOn {text s : List Char} {c back : Cursor} {sub : List Item} {v : Node}
    (h : Values c (valueItems sub) v) (hc : c.In text) (hscan : Scans .attribute c sub back)
    (hv : v.cls = .of .expression) (hs : v.head = some s) : StringsGoOn s := by
  cases h with
  | string _ _ => cases hv
  | expression hexpress =>
    cases hs
    exact stringsGoOn_of_express hscan hc hexpress

/-- An attribute or a field with its value. -/
theorem endsAtLines_value {text : List Char} {c back : Cursor} {sub : List Item} {k : Kind}
    {head : Option (List Char)} {t : Token} {v : Node} (hk : k ≠ .spread)
    (h : Values c (valueItems sub) v) (hc : c.In text) (hscan : Scans .attribute c sub back) :
    ∀ x ∈ Tree.subtrees (.mk (.keeping k head [t]) [v]), Node.EndsAtLines x := by
  obtain ⟨l, cs⟩ := v
  obtain rfl : cs = [] := h.children_eq_nil
  refine List.forall_mem_cons.mpr ⟨?_, List.forall_mem_singleton.mpr Node.endsAtLines_leaf⟩
  intro v hv hcls s hs
  obtain rfl := List.mem_singleton.mp hv
  refine ⟨fun hspread => ?_, fun _ => h.stringsGoOn hc hscan hcls hs⟩
  cases hspread
  exact absurd rfl hk

theorem Opened.endsAtLines {text : List Char} {m inner : Mode} {t : Token} {c back : Cursor}
    {sub : List Item} {n : Node} (h : Opened m inner t c sub n) (hc : c.In text)
    (hscan : Scans inner c sub back) : ∀ x : Node, x ∈ n.subtrees → x.EndsAtLines := by
  cases h with
  | decoration _ _ => exact List.forall_mem_singleton.mpr Node.endsAtLines_leaf
  | key => exact List.forall_mem_singleton.mpr Node.endsAtLines_leaf
  | rawExpression _ _ _ =>
    exact List.forall_mem_cons.mpr ⟨Node.endsAtLines_of_kind rfl nofun rfl rfl,
      List.forall_mem_singleton.mpr Node.endsAtLines_leaf⟩
  | @attr _ _ _ v hv =>
    refine endsAtLines_value (fun hk => ?_) hv hc hscan
    rcases attributeKind_cases (nameOf t) (v.kind = .string) with h | h | h | h | h <;>
      (rw [h] at hk; cases hk)
  | @field _ _ _ v hv =>
    refine endsAtLines_value (fun hk => ?_) hv hc hscan
    rcases fieldKind_cases (nameOf t) (v.kind = .string) with h | h | h <;> (rw [h] at hk; cases hk)
  | spread hexpress =>
    refine List.forall_mem_cons.mpr ⟨?_, List.forall_mem_singleton.mpr Node.endsAtLines_leaf⟩
    intro v hv _ s hs
    obtain rfl := List.mem_singleton.mp hv
    cases hs
    exact ⟨fun _ => onLine_of_express hscan hexpress, by rintro (h | h) <;> cases h⟩

theorem Transcribed.endsAtLines {text : List Char} {m : Mode} {items : List Item} {ns : List Node}
    (h : Transcribed text m items ns) : ∀ n : Node, n ∈ Tree.subtreesAll ns → n.EndsAtLines := by
  induction h with
  | nil | close _ => exact List.forall_mem_nil _
  | separator _ _ ih => exact ih
  | string _ _ ih => exact List.forall_mem_cons.mpr ⟨Node.endsAtLines_leaf, ih⟩
  | opened hc _ hscan hopened _ ih =>
    exact List.forall_mem_append.mpr ⟨hopened.endsAtLines hc hscan, ih⟩
  | @block m inner k t u p sub items cs ns hk _ _ _ _ ihsub ih =>
    have hkind : k = .element ∨ k = .component := by
      cases inner <;> cases hk
      · exact .inl rfl
      · exact .inr rfl
    rw [Tree.subtreesAll, Tree.subtrees, List.cons_append, List.forall_mem_cons,
      List.forall_mem_append]
    refine ⟨?_, ihsub, ih⟩
    rcases hkind with rfl | rfl <;> exact Node.endsAtLines_of_kind rfl nofun rfl rfl

theorem Node.EndsAtLines.forgetOrigin {n : Node} (h : n.EndsAtLines) :
    n.forgetOrigin.EndsAtLines := by
  intro v hv hcls s hs
  rw [children_forgetOrigin, Tree.mapAll_eq_map] at hv
  obtain ⟨u, hu, rfl⟩ := List.mem_map.mp hv
  rw [← Node.forgetOrigin] at hcls hs
  rw [cls_forgetOrigin] at hcls
  rw [head_forgetOrigin] at hs
  have hisA : ∀ k, n.forgetOrigin.isA k = n.isA k :=
    fun k => congrArg (fun c : NodeClass => c.isA k) n.cls_forgetOrigin
  rw [cls_forgetOrigin, hisA, hisA]
  exact h u hu hcls s hs

theorem endsAtLines_transcribe {origin : Bool} {text : List Char} {d : Node}
    (h : read origin text = .ok d) : ∀ n : Node, n ∈ (transcribe text).subtrees → n.EndsAtLines :=
  List.forall_mem_cons.mpr
    ⟨Node.endsAtLines_of_kind rfl nofun rfl rfl, (transcribed_of_read h).endsAtLines⟩

/-- In a text that is read, a line end ends the value of a spread, and a string literal in front of one
ends that of an attribute or a field, unless white space other than spaces and tabs hides it. -/
theorem line_ends_of_read {origin : Bool} {text : List Char} {d : Node}
    (h : read origin text = .ok d) : ∀ n : Node, n ∈ d.subtrees → n.EndsAtLines := by
  have hall := endsAtLines_transcribe h
  obtain rfl := read_eq_ok h
  cases origin with
  | true => exact hall
  | false =>
    intro n hn
    have hmap : n ∈ (transcribe text).forgetOrigin.subtrees := hn
    rw [Node.forgetOrigin, Tree.subtrees_map] at hmap
    obtain ⟨u, hu, rfl⟩ := List.mem_map.mp hmap
    exact (hall u hu).forgetOrigin

-- The carriage return hides the line feed: the literal is part of the spread, and no text follows.
example : (transcribe "A\x7b..x\r\n\"y\"\x7d".toList).subtrees.filterMap Node.head =
    ["A".toList, "x\r\n\"y\"".toList] := by decide +kernel

/-- A text whose white space consists of spaces, tabs and line feeds. -/
def Plain (text : List Char) : Prop := ∀ c ∈ text, isOtherBlank c = false

instance (text : List Char) : Decidable (Plain text) := List.decidableBAll _ text

/-- Without other white space, line feeds in an expression are inside of brackets, literals or
comments. -/
theorem OnLine.of_plain {s : List Char} (h : OnLine s) (hplain : Plain s) {t : Token}
    (ht : .token t ∈ lex .expression s) (hfeed : '\n' ∈ t.text) : t.cls ∈ freeClasses := by
  refine (h t ht hfeed).resolve_right fun ⟨_, hcovered⟩ => ?_
  obtain ⟨stop, hscan, -⟩ := scans_lex isBottom_expression s
  have hin := hscan.tokens_in (Cursor.in_start s) t (Item.mem_tokensAll_of_mem ht)
  obtain ⟨a, b, hab⟩ := List.append_of_mem hfeed
  obtain ⟨c, hc, hother⟩ := hcovered a b hab
  have hmem : c ∈ t.text := hab ▸ List.mem_append_left _ hc
  rw [← hin.extract_eq, List.extract] at hmem
  rw [hplain c (List.mem_of_mem_drop (List.mem_of_mem_take hmem))] at hother
  cases hother

/-- Without other white space, no string literal closes a line of an expression. -/
theorem StringsGoOn.of_plain {s : List Char} (h : StringsGoOn s) (hplain : Plain s) {t : Token}
    (ht : .token t ∈ lex .expression s) (hcls : t.cls = .string) (a : List Char) :
    ¬ LineRest a (s.drop t.stop) := by
  intro hline
  obtain ⟨c, hc, hother⟩ := h t ht hcls a hline
  obtain ⟨u, b, hs, -⟩ := hline.ends
  have hmem : c ∈ s.drop t.stop := hs ▸ List.mem_append_left _ hc
  rw [hplain c (List.mem_of_mem_drop hmem)] at hother
  cases hother

/-- In a text without white space other than spaces, tabs and line feeds, a spread has line feeds only
inside of brackets, literals and comments, and in the value of an attribute or a field no string
literal outside of brackets closes its line. -/
theorem line_ends_of_plain {origin : Bool} {text : List Char} {d n v : Node} {s : List Char}
    (hplain : Plain text) (h : read origin text = .ok d) (hn : n ∈ d.subtrees) (hv : v ∈ n.children)
    (hcls : v.cls = .of .expression) (hs : v.head = some s) :
    (n.cls = .of .spread → ∀ t : Token, .token t ∈ lex .expression s → '\n' ∈ t.text →
      t.cls ∈ freeClasses) ∧
    (n.isA .attribute = true ∨ n.isA .field = true → ∀ t : Token, .token t ∈ lex .expression s →
      t.cls = .string → ∀ a, ¬ LineRest a (s.drop t.stop)) := by
  obtain ⟨s', p, hs', -, hagrees⟩ := agreesAt_of_read h (Tree.subtrees_trans
    (Tree.mem_subtrees_of_mem_children hv) d hn) hcls
  rw [hs] at hs'
  cases hs'
  have hplain : Plain s := fun c hc =>
    hplain c (List.mem_of_mem_drop (List.mem_of_mem_take (hagrees.slice.symm ▸ hc)))
  obtain ⟨hspread, hvalue⟩ := line_ends_of_read h n hn v hv hcls s hs
  exact ⟨fun hk t => (hspread hk).of_plain hplain, fun hk t => (hvalue hk).of_plain hplain⟩

end BlockMarkup
