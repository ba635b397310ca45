import BlockMarkup.Proofs.Token.Formed
import BlockMarkup.Proofs.Token.Spelling
import BlockMarkup.Document.Body

/-!
# BlockMarkup.Proofs.Token.Opener

The tokens of each mode by what they do there: `Opens m t inner` says that the token `t` in mode `m`
opens a context of mode `inner`, and with which text. Every token in front of a context opens it
(`opens_of_makes`); the tokens of a body that open nothing are separators, string literals and
the closing brace.
-/

namespace BlockMarkup

open Text

/-- The modes of bodies. -/
def Mode.isBody : Mode → Bool
  | .root | .element | .component => true
  | _ => false

/-- The text of a token is `p`, then white space, then a mark. -/
def Token.Spells (t : Token) (p : List Char) (mark : Char) : Prop :=
  ∃ w, t.text = p ++ (w ++ [mark]) ∧ ∀ c ∈ w, isBlank c = true

/-- A text between double quotes. -/
def quote (s : List Char) : List Char := '"' :: (s ++ ['"'])

inductive Opens : Mode → Token → Mode → Prop where
  | decorator {m : Mode} {t : Token} : m.isBody = true → t.cls = .decorator →
      (t.text = ['#', '['] ∨ t.text = ['#', '!', '[']) → Opens m t .decoration
  | brace {m : Mode} {t : Token} : m.isBody = true → t.cls = .bracket → t.text = ['\x7b'] →
      Opens m t .rawExpression
  | tag {m : Mode} {t : Token} {p : List Char} : m.isBody = true → t.cls = .tag →
      t.Spells p '\x7b' → isTag p = true → Opens m t .element
  | path {m : Mode} {t : Token} {p : List Char} : m.isBody = true → t.cls = .path →
      t.Spells p '\x7b' → isPath p = true → isTag p = false → Opens m t .component
  | name {m : Mode} {t : Token} {p : List Char} : m = .element ∨ m = .component → t.cls = .name →
      t.Spells p ':' → isName p = true → Opens m t .attribute
  | quotedName {t : Token} {b : List Char} : t.cls = .name → t.Spells (quote b) ':' →
      isQuotable b = true → Opens .element t .attribute
  | dots {t : Token} : t.cls = .operator → t.text = ['.', '.'] → Opens .component t .spread
  | group {m : Mode} {t : Token} : m.isBody = false → t.cls = .bracket →
      (t.text = ['('] ∨ t.text = ['['] ∨ t.text = ['\x7b']) → Opens m t .group

/-! ## The rules of a mode by their moves -/

namespace Mode

theorem rule_of_push (m inner : Mode) : ∀ r ∈ m.rules, r.move = .push inner →
    (m.isBody = true ∧ r = ⟨.decorator, .emit .decorator, .push .decoration⟩) ∨
    (m.isBody = true ∧ r = ⟨.opener, .emit .bracket, .push .rawExpression⟩) ∨
    (m.isBody = true ∧ r = ⟨.tag, .emit .tag, .push .element⟩) ∨
    (m.isBody = true ∧ r = ⟨.path, .emit .path, .push .component⟩) ∨
    ((m = .element ∨ m = .component) ∧ r = ⟨.name, .emit .name, .push .attribute⟩) ∨
    (m = .element ∧ r = ⟨.quotedName, .emit .name, .push .attribute⟩) ∨
    (m = .component ∧ r = ⟨.dots, .emit .operator, .push .spread⟩) ∨
    (m.isBody = false ∧ r = ⟨.groupOpener, .emit .bracket, .push .group⟩) := by
  cases m <;> cases inner <;> decide

theorem rule_of_stay (m : Mode) : m.isBody = true → ∀ r ∈ m.rules, r.move = .stay →
    r.effect = .skip ∨ r = ⟨.separator, .emit .separator, .stay⟩ ∨
      r = ⟨.string, .emit .string, .stay⟩ := by
  cases m <;> decide

theorem rule_of_pop (m : Mode) : m.isBody = true → ∀ r ∈ m.rules, r.move = .pop →
    (m = .element ∨ m = .component) ∧ r = ⟨.closer, .emit .bracket, .pop⟩ := by
  cases m <;> decide

/-- In front of the rule for paths, every body tries the rule for tags. -/
theorem path_after_tag (m : Mode) : m.isBody = true → ∃ before after,
    m.rules = before ++ after ∧ (⟨.tag, .emit .tag, .push .element⟩ : Rule) ∈ before ∧
      (⟨.path, .emit .path, .push .component⟩ : Rule) ∉ before := by
  intro hm
  refine ⟨m.rules.dropLast, [⟨.path, .emit .path, .push .component⟩], ?_⟩
  cases m <;> first | decide | cases hm

end Mode

/-- What stands in front of the first matching rule does not match. -/
theorem Rule.first?_append_none {a b : List Rule} {s : List Char} {n : Nat} {r : Rule}
    (h : Rule.first? (a ++ b) s = some (n, r)) (hr : r ∉ a) :
    ∀ r' ∈ a, r'.pattern.length? s = none := by
  have hnone : Rule.first? a s = none := by
    cases ha : Rule.first? a s with
    | none => rfl
    | some x =>
      obtain ⟨n', r'⟩ := x
      rw [Rule.first?, List.findSome?_append] at h
      rw [Rule.first?] at ha
      rw [ha] at h
      cases h
      exact absurd (Rule.first?_eq_some ha).1 hr
  intro r' hr'
  have := List.findSome?_eq_none_iff.mp hnone r' hr'
  simpa using this

namespace Mode.Makes

variable {m inner : Mode} {r : Rule} {t : Token}

theorem mem (h : m.Makes r t) : r ∈ m.rules := (Rule.first?_eq_some h.first.choose_spec).1

theorem matched (h : m.Makes r t) : ∃ rest, r.pattern.length? (t.text ++ rest) = some t.text.length :=
  ⟨_, (Rule.first?_eq_some h.first.choose_spec).2⟩

theorem cls_eq {p : Pattern} {cls : TokenClass} {move : Move} (h : m.Makes ⟨p, .emit cls, move⟩ t) :
    t.cls = cls := by
  cases h.effect
  rfl

end Mode.Makes

/-- A text of known length is the front of what it stands in. -/
theorem eq_of_append_eq {s v p u : List Char} (h : s ++ v = p ++ u)
    (hl : s.length = p.length) : s = p := List.append_inj_left h hl

theorem Token.spells_of_eq {t : Token} {v p w u : List Char} {mark : Char}
    (h : t.text ++ v = p ++ (w ++ mark :: u)) (hw : ∀ c ∈ w, isBlank c = true)
    (hl : t.text.length = p.length + w.length + 1) : t.Spells p mark := by
  refine ⟨w, eq_of_append_eq (v := v) (u := u) ?_ ?_, hw⟩
  · rw [h]; simp
  · rw [hl]; simp only [List.length_append, List.length_cons, List.length_nil]; omega

theorem eq_of_one {q : Char → Bool} {s rest : List Char}
    (h : Pattern.one q (s ++ rest) = some s.length) : ∃ c, s = [c] ∧ q c = true := by
  obtain ⟨hl, c, u, hs, hc⟩ := Pattern.one_eq_some h
  exact ⟨c, eq_of_append_eq (p := [c]) hs hl, hc⟩

theorem eq_quote_of_string {s rest : List Char}
    (h : Pattern.stringLength? (s ++ rest) = some s.length) :
    ∃ b, s = quote b ∧ isQuotable b = true := by
  obtain ⟨b, u, hs, hb, hl⟩ := Pattern.stringLength?_iff.mp h
  refine ⟨b, eq_of_append_eq (v := rest) (u := u) ?_ ?_, hb⟩
  · rw [hs]; simp [quote]
  · rw [hl]; simp [quote]

/-- A token in front of a context opens it. -/
theorem opens_of_makes {m inner : Mode} {r : Rule} {t : Token} (hmove : r.move = .push inner)
    (h : m.Makes r t) : Opens m t inner := by
  obtain ⟨rest, hmatch⟩ := h.matched
  rcases m.rule_of_push inner r h.mem hmove with
    ⟨hm, rfl⟩ | ⟨hm, rfl⟩ | ⟨hm, rfl⟩ | ⟨hm, rfl⟩ | ⟨hm, rfl⟩ | ⟨rfl, rfl⟩ | ⟨rfl, rfl⟩ | ⟨hm, rfl⟩
  case inl =>
    cases hmove
    refine .decorator hm h.cls_eq ?_
    simp only [Pattern.length?] at hmatch
    split at hmatch
    · rename_i u hs
      exact .inl (eq_of_append_eq (p := ['#', '[']) hs (Option.some.inj hmatch).symm)
    · rename_i u hs
      exact .inr (eq_of_append_eq (p := ['#', '!', '[']) hs (Option.some.inj hmatch).symm)
    · cases hmatch
  case inr.inl =>
    cases hmove
    obtain ⟨c, hc, he⟩ := eq_of_one hmatch
    rw [decide_eq_true_eq] at he
    exact .brace hm h.cls_eq (by rw [hc, he])
  case inr.inr.inl =>
    cases hmove
    obtain ⟨p, w, u, hs, hp, hw, hl⟩ := Pattern.length?_tag_iff.mp hmatch
    exact .tag hm h.cls_eq (Token.spells_of_eq hs hw hl) hp
  case inr.inr.inr.inl =>
    cases hmove
    obtain ⟨rest', hfirst⟩ := h.first
    obtain ⟨before, after, hrules, htag, hpath⟩ := m.path_after_tag hm
    rw [hrules] at hfirst
    have hnone := Rule.first?_append_none hfirst hpath _ htag
    obtain ⟨p, w, u, hs, hp, hw, hl⟩ := Pattern.length?_path_iff.mp (Rule.first?_eq_some hfirst).2
    refine .path hm h.cls_eq (Token.spells_of_eq hs hw hl) hp ?_
    cases hp' : isTag p with
    | false => rfl
    | true =>
      rw [Pattern.length?_tag_iff.mpr ⟨p, w, u, hs, hp', hw, rfl⟩] at hnone
      cases hnone
  case inr.inr.inr.inr.inl =>
    cases hmove
    obtain ⟨p, w, u, hs, hp, hw, -, hl⟩ := Pattern.length?_name_iff.mp hmatch
    exact .name hm h.cls_eq (Token.spells_of_eq hs hw hl) hp
  case inr.inr.inr.inr.inr.inl =>
    cases hmove
    obtain ⟨b, w, u, hs, hb, hw, -, hl⟩ := Pattern.length?_quotedName_iff.mp hmatch
    refine .quotedName h.cls_eq (Token.spells_of_eq (v := rest) (w := w) (u := u) ?_ hw ?_) hb
    · rw [hs]; simp [quote]
    · rw [hl]; simp [quote]; omega
  case inr.inr.inr.inr.inr.inr.inl =>
    cases hmove
    refine .dots h.cls_eq ?_
    simp only [Pattern.length?] at hmatch
    split at hmatch
    · rename_i u hs
      exact eq_of_append_eq (p := ['.', '.']) hs (Option.some.inj hmatch).symm
    · cases hmatch
  case inr.inr.inr.inr.inr.inr.inr =>
    cases hmove
    obtain ⟨c, hc, he⟩ := eq_of_one hmatch
    simp only [Bool.or_eq_true, decide_eq_true_eq] at he
    refine .group hm h.cls_eq ?_
    rcases he with (rfl | rfl) | rfl
    · exact .inl hc
    · exact .inr (.inl hc)
    · exact .inr (.inr hc)

/-- A token of a body that opens nothing separates nodes or is a string literal. -/
theorem stays_in_body {m : Mode} {r : Rule} {t : Token} (hm : m.isBody = true)
    (hmove : r.move = .stay) (h : m.Makes r t) :
    t.cls = .separator ∨ (t.cls = .string ∧ ∃ b, t.text = quote b ∧ isQuotable b = true) := by
  rcases m.rule_of_stay hm r h.mem hmove with hr | rfl | rfl
  · have := h.effect
    rw [hr] at this
    cases this
  · exact .inl h.cls_eq
  · obtain ⟨rest, hmatch⟩ := h.matched
    exact .inr ⟨h.cls_eq, eq_quote_of_string hmatch⟩

/-- Only a closing brace leaves a body. -/
theorem closes_body {m : Mode} {r : Rule} {t : Token} (hm : m.isBody = true)
    (hmove : r.move = .pop) (h : m.Makes r t) :
    (m = .element ∨ m = .component) ∧ t.cls = .bracket ∧ t.text = ['\x7d'] := by
  obtain ⟨hm', rfl⟩ := m.rule_of_pop hm r h.mem hmove
  obtain ⟨rest, hmatch⟩ := h.matched
  obtain ⟨c, hc, he⟩ := eq_of_one hmatch
  rw [decide_eq_true_eq] at he
  exact ⟨hm', h.cls_eq, by rw [hc, he]⟩

end BlockMarkup
