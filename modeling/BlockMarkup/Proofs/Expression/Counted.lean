import BlockMarkup.Proofs.Document.Located
import BlockMarkup.Proofs.Expression.Counter

/-!
# BlockMarkup.Proofs.Expression.Counted

Values end where counting brackets says. The lexer leaves the context of a value after as many
characters as `Ending.extent` counts (`Ending.pos_of_value`), and in a whole text the value behind each
token that starts one is what is counted from there (`value_extent`).
-/

namespace BlockMarkup

open Text

namespace Ending

variable {e : Ending} {d : Nat} {m : Mode}

/-- What is passed over in front of a match is counted, and the match as `Steps` says. -/
theorem Inside.search {s : List Char} {h : Mode.Hit} (hin : e.Inside d m)
    (hs : m.search s = some h) :
    e.count d false 0 s = h.skipped + e.count d false 0 (s.drop h.skipped) ∧
      Steps e d (s.drop h.skipped) (some (h.length, h.rule)) := by
  induction s generalizing h with
  | nil => cases hs
  | cons c s ih =>
    have hsteps := hin.steps c s
    rw [Mode.search] at hs
    split at hs
    · rename_i n r hfirst
      cases hs
      rw [hfirst] at hsteps
      exact ⟨(Nat.zero_add _).symm, hsteps⟩
    · rename_i hfirst
      rw [hfirst] at hsteps
      obtain ⟨k, hk, rfl⟩ := Option.map_eq_some_iff.mp hs
      obtain ⟨hcount, hsteps'⟩ := ih hk
      cases hsteps with
      | pass hpass =>
        rw [List.drop_one, List.tail_cons] at hpass
        refine ⟨?_, hsteps'⟩
        simp only [List.drop_succ_cons]
        omega

/-- A text without any match is counted up to its end. -/
theorem Inside.search_none {s : List Char} (hin : e.Inside d m) (hs : m.search s = none) :
    e.count d false 0 s = s.length ∧ (0 < d → s = []) := by
  induction s with
  | nil => exact ⟨rfl, fun _ => rfl⟩
  | cons c s ih =>
    have hsteps := hin.steps c s
    rw [Mode.search] at hs
    split at hs
    · cases hs
    · rename_i hfirst
      rw [hfirst] at hsteps
      obtain ⟨hcount, -⟩ := ih (Option.map_eq_none_iff.mp hs)
      cases hsteps with
      | pass hpass =>
        rw [List.drop_one, List.tail_cons] at hpass
        refine ⟨?_, fun hpos => absurd hpos (Nat.lt_irrefl 0)⟩
        rw [hpass, hcount, List.length_cons, Nat.add_comm]

/-- What is counted behind a context with `d` brackets around it: nothing more where it is the value. -/
def countBehind (e : Ending) : Nat → List Char → Nat
  | 0, _ => 0
  | d + 1, s => e.count d false 0 s

/-- The count goes on behind a match that stays in its context. -/
theorem Inside.pos_of_stay {c : Cursor} {h : Mode.Hit} (hin : e.Inside d m)
    (hs : m.search c.rest = some h) (hmove : h.rule.move = .stay) :
    c.pos + e.count d false 0 c.rest = (h.after c).pos + e.count d false 0 (h.after c).rest := by
  obtain ⟨hcount, hsteps⟩ := hin.search hs
  rw [Mode.Hit.after_pos, Mode.Hit.after_rest, ← List.drop_drop]
  cases hsteps with
  | stay _ hn => omega
  | push hpush | leave hpush | finish hpush =>
    rw [hmove] at hpush
    cases hpush

/-- The count goes on in the group that a match opens. -/
theorem Inside.pos_of_push {c : Cursor} {h : Mode.Hit} {inner : Mode} (hin : e.Inside d m)
    (hs : m.search c.rest = some h) (hmove : h.rule.move = .push inner) : inner = .group ∧
      c.pos + e.count d false 0 c.rest =
        (h.after c).pos + e.count (d + 1) false 0 (h.after c).rest := by
  obtain ⟨hcount, hsteps⟩ := hin.search hs
  rw [Mode.Hit.after_pos, Mode.Hit.after_rest, ← List.drop_drop]
  cases hsteps with
  | push hpush hn =>
    rw [hmove] at hpush
    cases hpush
    exact ⟨rfl, by omega⟩
  | stay hother | leave hother | finish hother =>
    rw [hmove] at hother
    cases hother

/-- The count goes on behind a context that a match leaves. -/
theorem Inside.pos_of_pop {c : Cursor} {h : Mode.Hit} (hin : e.Inside d m)
    (hs : m.search c.rest = some h) (hmove : h.rule.move = .pop) :
    c.pos + e.count d false 0 c.rest = (h.after c).pos + e.countBehind d (h.after c).rest := by
  obtain ⟨hcount, hsteps⟩ := hin.search hs
  rw [Mode.Hit.after_pos, Mode.Hit.after_rest, ← List.drop_drop]
  cases hsteps with
  | leave _ hn =>
    rw [countBehind]
    omega
  | finish _ hn =>
    rw [countBehind]
    omega
  | stay hother | push hother =>
    rw [hmove] at hother
    cases hother

/-- The count goes through a context as the lexer does. -/
theorem pos_of_scans {c stop : Cursor} {items : List Item} (h : Scans m c items stop) :
    ∀ {d : Nat}, e.Inside d m →
      c.pos + e.count d false 0 c.rest = stop.pos + e.countBehind d stop.rest := by
  induction h with
  | @stop m c hs =>
    intro d hin
    obtain ⟨hcount, hnil⟩ := hin.search_none hs
    have hbehind : e.countBehind d (c.advance c.rest.length).rest = 0 := by
      cases d with
      | zero => rfl
      | succ d => simp [Cursor.advance, countBehind, count]
    rw [hcount, hbehind]
    rfl
  | stay hs hmove _ ih =>
    intro d hin
    rw [hin.pos_of_stay hs hmove]
    exact ih hin
  | pop hs hmove =>
    intro d hin
    exact hin.pos_of_pop hs hmove
  | push hs hmove _ _ ihsub ih =>
    intro d hin
    obtain ⟨rfl, hpos⟩ := hin.pos_of_push hs hmove
    rw [hpos, ihsub (d := d + 1) (.inr ⟨Nat.succ_pos d, rfl⟩)]
    exact ih hin

/-- A value ends where it is counted to end. -/
theorem pos_of_value {c stop : Cursor} {items : List Item} (h : Scans e.mode c items stop) :
    stop.pos = c.pos + e.extent c.rest := (pos_of_scans h (.inl ⟨rfl, rfl⟩)).symm

end Ending

/-! ## The text of a context -/

/-- The text of all tokens, one behind the other. -/
def Item.textAll (items : List Item) : List Char := (tokensAll items).flatMap fun t => t.text

theorem Item.textAll_append (is js : List Item) : textAll (is ++ js) = textAll is ++ textAll js := by
  rw [textAll, tokensAll_append, List.flatMap_append]
  rfl

theorem Cursor.textAll_take (c : Cursor) (n : Nat) (cls : TokenClass) :
    Item.textAll (c.take n cls) = c.rest.take n := by
  unfold Cursor.take
  split
  · rename_i h
    rw [h]
    rfl
  · simp [Item.textAll, Item.tokensAll, Item.tokens]

/-- In an expression, only what takes nothing is not kept. -/
theorem Mode.looksAhead_of_skip {m : Mode} : m.isBody = false → ∀ r ∈ m.rules, r.effect = .skip →
    r.pattern.looksAhead = true := by
  cases m <;> decide

theorem Pattern.length?_eq_zero {p : Pattern} {s : List Char} {n : Nat} (hp : p.looksAhead = true)
    (h : p.length? s = some n) : n = 0 := by
  cases p <;> simp only [looksAhead, Bool.false_eq_true] at hp
  · exact (ahead_eq_some h).1
  · exact (ahead_eq_some h).1

/-- The items hold all of the text from one place to another. -/
structure Spans (c : Cursor) (items : List Item) (c' : Cursor) : Prop where
  rest : c.rest = Item.textAll items ++ c'.rest
  pos : c'.pos = c.pos + (Item.textAll items).length

namespace Spans

variable {c c' c'' : Cursor} {is js : List Item}

theorem append (h : Spans c is c') (h' : Spans c' js c'') : Spans c (is ++ js) c'' := by
  constructor
  · rw [Item.textAll_append, List.append_assoc, ← h'.rest, h.rest]
  · rw [Item.textAll_append, List.length_append, h'.pos, h.pos, Nat.add_assoc]

theorem of_textAll {n : Nat} (h : Item.textAll is = c.rest.take n) (hn : n ≤ c.rest.length) :
    Spans c is (c.advance n) := by
  constructor
  · rw [h]
    exact (List.take_append_drop n c.rest).symm
  · rw [h, List.length_take, Nat.min_eq_left hn]
    rfl

end Spans

/-- A match in an expression keeps all of its text, and of the text in front of it. -/
theorem Mode.Hit.spans {m : Mode} {h : Mode.Hit} {c : Cursor} (hm : m.isBody = false)
    (hs : m.search c.rest = some h) : Spans c (h.items c) (h.after c) := by
  have hsound := Mode.search_sound hs
  have hfound : h.length ≤ (c.advance h.skipped).rest.length := Pattern.length?_le hsound.matched
  refine .append (.of_textAll (c.textAll_take _ _) (Nat.le_of_lt hsound.skipped_lt))
    (.of_textAll ?_ hfound)
  cases he : h.rule.effect with
  | skip =>
    rw [Pattern.length?_eq_zero (Mode.looksAhead_of_skip hm _ hsound.mem he) hsound.matched]
    rfl
  | emit cls => exact (c.advance h.skipped).textAll_take _ _

theorem Item.not_token_nested (m : Mode) (sub : List Item) (t : Token) : .token t ∉ nested m sub := by
  cases sub with
  | nil => exact List.not_mem_nil
  | cons i is => exact fun hmem => absurd (List.mem_singleton.mp hmem) nofun

theorem Item.textAll_nested (m : Mode) (sub : List Item) : textAll (nested m sub) = textAll sub := by
  rw [textAll, tokensAll_nested]
  rfl

/-- Only groups are opened in an expression. -/
theorem Mode.group_of_push {m : Mode} : m.isBody = false → ∀ r ∈ m.rules,
    r.move ≠ .stay → r.move ≠ .pop → r.move = .push .group := by
  cases m <;> decide

/-- The tokens of a context of an expression spell the text up to where it ends. -/
theorem Scans.spans {m : Mode} {c stop : Cursor} {items : List Item} (h : Scans m c items stop) :
    m.isBody = false → Spans c items stop := by
  induction h with
  | @stop m c hs =>
    intro _
    exact .of_textAll (c.textAll_take _ _) (Nat.le_refl _)
  | stay hs _ _ ih =>
    intro hm
    exact (Mode.Hit.spans hm hs).append (ih hm)
  | pop hs _ =>
    intro hm
    exact Mode.Hit.spans hm hs
  | @push m inner c back stop h sub items hs hmove _ _ ihsub ih =>
    intro hm
    have hgroup := Mode.group_of_push hm _ (Mode.search_sound hs).mem (by rw [hmove]; exact nofun)
      (by rw [hmove]; exact nofun)
    rw [hmove] at hgroup
    cases hgroup
    have hsub := ihsub rfl
    have hnested : Spans (h.after c) (Item.nested .group sub) back := by
      constructor
      · rw [Item.textAll_nested]
        exact hsub.rest
      · rw [Item.textAll_nested]
        exact hsub.pos
    exact ((Mode.Hit.spans hm hs).append hnested).append (ih hm)

/-! ## The values of a text -/

/-- The token starts a value with the ending `e`: the name of an attribute or a field, an opening brace
in a body, or the marks of a decoration. -/
def Ending.Starts : Ending → Mode → Token → Prop
  | .value, m, t => (m = .element ∨ m = .component) ∧ t.cls = .name
  | .brace, m, t => m.isBody = true ∧ t.cls = .bracket ∧ t.text = ['\x7b']
  | .bracket, m, t => m.isBody = true ∧ t.cls = .decorator

theorem Mode.bracket_of_body {m : Mode} : m.isBody = true → ∀ r ∈ m.rules,
    r.effect = .emit .bracket → r.pattern = .closer ∨ r.move = .push .rawExpression := by
  cases m <;> decide

theorem Mode.decorator_of_body {m : Mode} : m.isBody = true → ∀ r ∈ m.rules,
    r.effect = .emit .decorator → r.move = .push .decoration := by
  cases m <;> decide

namespace Ending.Starts

variable {e : Ending} {m : Mode} {t : Token}

theorem not_stray (h : e.Starts m t) : t.cls ≠ .stray := by
  intro hc
  cases e with
  | value => cases hc.symm.trans h.2
  | brace => cases hc.symm.trans h.2.1
  | bracket => cases hc.symm.trans h.2

/-- A token that starts a value was made by a rule that opens its context. -/
theorem move {r : Rule} (h : e.Starts m t) (hr : m.Makes r t) : r.move = .push e.mode := by
  have heffect := hr.effect
  cases e with
  | value =>
    obtain ⟨hm, hc⟩ := h
    rw [hc] at heffect
    have hrules : ∀ r ∈ m.rules, r.effect = .emit .name → r.move = .push .attribute := by
      rcases hm with rfl | rfl <;> decide
    exact hrules r hr.mem heffect
  | brace =>
    obtain ⟨hm, hc, htext⟩ := h
    rw [hc] at heffect
    rcases Mode.bracket_of_body hm r hr.mem heffect with hcloser | hmove
    · obtain ⟨rest, hmatch⟩ := hr.matched
      rw [hcloser, htext] at hmatch
      cases hmatch
    · exact hmove
  | bracket =>
    obtain ⟨hm, hc⟩ := h
    rw [hc] at heffect
    exact Mode.decorator_of_body hm r hr.mem heffect

end Ending.Starts

theorem Cursor.mem_take {c : Cursor} {n : Nat} {cls : TokenClass} {t : Token}
    (h : .token t ∈ c.take n cls) : t.cls = cls := by
  unfold Cursor.take at h
  split at h
  · cases h
  · cases List.mem_singleton.mp h
    rfl

/-- The tokens of a match are made by its rule, or what is passed over. -/
theorem Mode.Hit.makes_of_mem {m : Mode} {h : Mode.Hit} {c : Cursor} (hs : m.search c.rest = some h)
    {t : Token} (ht : .token t ∈ h.items c) : t.cls = .stray ∨ m.Makes h.rule t := by
  rcases List.mem_append.mp ht with ht | ht
  · exact .inl (Cursor.mem_take ht)
  · cases he : h.rule.effect with
    | skip =>
      rw [he] at ht
      cases ht
    | emit cls =>
      obtain ⟨u, hu, hmakes⟩ := Mode.Hit.emit_eq hs he
      rw [hu] at ht
      cases List.mem_singleton.mp ht
      exact .inr hmakes

/-- The token of a match that opens a context stands in front of it. -/
theorem Mode.Hit.items_of_push {m inner : Mode} {h : Mode.Hit} {c : Cursor}
    (hs : m.search c.rest = some h) (hmove : h.rule.move = .push inner) :
    ∃ t : Token, h.items c = c.take h.skipped .stray ++ [.token t] ∧ m.Makes h.rule t ∧
      t.stop = (h.after c).pos := by
  have hsound := Mode.search_sound hs
  obtain ⟨cls, he⟩ : ∃ cls, h.rule.effect = .emit cls := by
    cases he : h.rule.effect with
    | skip => exact absurd he (m.emits_of_push inner _ hsound.mem hmove)
    | emit cls => exact ⟨cls, rfl⟩
  obtain ⟨t, ht, hmakes⟩ := Mode.Hit.emit_eq hs he
  have hpos : 0 < h.length :=
    Pattern.length?_pos (m.looksAhead_of_emits _ hsound.mem (by rw [he]; exact nofun)) hsound.matched
  have hle : h.length ≤ (c.advance h.skipped).rest.length := Pattern.length?_le hsound.matched
  refine ⟨t, by rw [Mode.Hit.items, ht], hmakes, ?_⟩
  rw [he, Cursor.emit, Cursor.take_eq _ _ hpos hle] at ht
  cases ht
  rw [Token.stop, List.length_take, Nat.min_eq_left hle]
  rfl

/-- What does not hold an item is in front of it. -/
theorem append_eq_append_cons {α : Type} {xs ys before behind : List α} {a : α}
    (h : xs ++ ys = before ++ a :: behind) (ha : a ∉ xs) :
    ∃ before', before = xs ++ before' ∧ ys = before' ++ a :: behind := by
  induction xs generalizing before with
  | nil => exact ⟨before, rfl, h⟩
  | cons x xs ih =>
    rw [List.mem_cons, not_or] at ha
    obtain ⟨hx, hxs⟩ := ha
    cases before with
    | nil => exact absurd (List.cons.inj h).1.symm hx
    | cons b before =>
      obtain ⟨rfl, htail⟩ := List.cons.inj h
      obtain ⟨before', rfl, hys⟩ := ih htail hxs
      exact ⟨before', rfl, hys⟩

/-- Behind a token that starts a value there is the context of that value, and what is behind the value
is read in the context that the token stands in. -/
theorem Scans.value_behind {e : Ending} {m : Mode} {c stop : Cursor} {items : List Item}
    {text : List Char} (h : Scans m c items stop) (hc : c.In text) {before behind : List Item}
    {t : Token} (hitems : items = before ++ .token t :: behind) (ht : e.Starts m t) :
    ∃ (sub rest : List Item) (start back : Cursor), behind = Item.nested e.mode sub ++ rest ∧
      start.In text ∧ start.pos = t.stop ∧ Scans e.mode start sub back ∧
      Scans m back rest stop := by
  have hstray : ∀ {c : Cursor} {n : Nat}, .token t ∉ c.take n .stray :=
    fun hmem => ht.not_stray (Cursor.mem_take hmem)
  have hmove : ∀ {c : Cursor} {h : Mode.Hit}, m.search c.rest = some h →
      h.rule.move ≠ .push e.mode → .token t ∉ h.items c := by
    intro c h hs hne hmem
    exact (Mode.Hit.makes_of_mem hs hmem).elim ht.not_stray fun hmakes => hne (ht.move hmakes)
  induction h generalizing before with
  | stop _ =>
    rw [← List.append_nil (Cursor.take _ _ _)] at hitems
    obtain ⟨_, -, hnil⟩ := append_eq_append_cons hitems hstray
    exact absurd hnil.symm (List.append_ne_nil_of_right_ne_nil _ (List.cons_ne_nil _ _))
  | stay hs hstay _ ih =>
    obtain ⟨_, -, hrest⟩ := append_eq_append_cons hitems (hmove hs (by rw [hstay]; exact nofun))
    exact ih (Mode.Hit.in_after hs hc) hrest ht hmove
  | pop hs hpop =>
    rw [← List.append_nil (Mode.Hit.items _ _)] at hitems
    obtain ⟨_, -, hnil⟩ := append_eq_append_cons hitems (hmove hs (by rw [hpop]; exact nofun))
    exact absurd hnil.symm (List.append_ne_nil_of_right_ne_nil _ (List.cons_ne_nil _ _))
  | @push m inner c back stop h sub items hs hpush hsub hrest _ ih =>
    have hafter := Mode.Hit.in_after hs hc
    obtain ⟨u, hu, hmakes, hstop⟩ := Mode.Hit.items_of_push hs hpush
    rw [hu, List.append_assoc, List.append_assoc] at hitems
    obtain ⟨before', -, hitems⟩ := append_eq_append_cons hitems hstray
    cases before' with
    | nil =>
      obtain ⟨hut, rfl⟩ := List.cons.inj hitems
      cases hut
      have hinner := ht.move hmakes
      rw [hpush] at hinner
      cases hinner
      exact ⟨sub, items, h.after c, back, rfl, hafter, hstop.symm, hsub, hrest⟩
    | cons _ before' =>
      have hitems : Item.nested inner sub ++ items = before' ++ .token t :: behind :=
        (List.cons.inj hitems).2
      obtain ⟨_, -, hrest'⟩ := append_eq_append_cons hitems (Item.not_token_nested inner sub t)
      exact ih (hsub.located hafter).1 hrest' ht hmove

theorem Cursor.In.eq {c : Cursor} {text : List Char} (h : c.In text) :
    c = ⟨c.pos, text.drop c.pos⟩ := by
  obtain ⟨before, htext, hpos⟩ := h
  have hdrop : text.drop c.pos = c.rest := by rw [hpos, htext, List.drop_left]
  rw [hdrop]

/-- The values of attributes and fields, raw expressions and decorations in a text. Behind each token
that starts one there is the context of that value, whose tokens spell the text up to where counting
brackets says that the value ends. What follows in the context around it is read from there on. -/
theorem value_extent (text : List Char) :
    ∀ p ∈ Item.contexts (.context .root (lex .root text)), ∀ (e : Ending) (t : Token)
      (before behind : List Item), p.2 = before ++ .token t :: behind → e.Starts p.1 t →
      ∃ (n : Nat) (sub rest : List Item) (stop : Cursor), n = e.extent (text.drop t.stop) ∧
        behind = Item.nested e.mode sub ++ rest ∧
        Item.textAll sub = (text.drop t.stop).take n ∧
        Scans p.1 ⟨t.stop + n, text.drop (t.stop + n)⟩ rest stop := by
  intro p hp e t before behind hitems ht
  obtain ⟨stop, hscan, -⟩ := scans_lex isBottom_root text
  have hin := Cursor.in_start text
  obtain ⟨c, last, hc, hp⟩ : ∃ c last : Cursor, c.In text ∧ Scans p.1 c p.2 last := by
    rcases List.mem_cons.mp hp with rfl | hp
    · exact ⟨_, _, hin, hscan⟩
    · exact (hscan.located hin).2 p hp
  obtain ⟨sub, rest, start, back, hbehind, hstart, hpos, hsub, hrest⟩ := hp.value_behind hc hitems ht
  have hback := (hsub.located hstart).1.eq
  have hstart := hstart.eq
  have hend := Ending.pos_of_value hsub
  have hspans := hsub.spans (by cases e <;> rfl)
  rw [hpos] at hstart
  have hrest' : start.rest = text.drop t.stop := congrArg Cursor.rest hstart
  rw [hpos, hrest'] at hend
  refine ⟨e.extent (text.drop t.stop), sub, rest, last, rfl, hbehind, ?_, ?_⟩
  · have hlength : (Item.textAll sub).length = e.extent (text.drop t.stop) := by
      have := hspans.pos
      omega
    rw [← hlength, ← hrest', hspans.rest, List.take_left]
  · rw [← hend, ← hback]
    exact hrest

/-- A value with a closing brace in a string literal and in a comment, and a bracket that is closed by
one of another shape. -/
def sampleValueText : List Char := "a\x7bb:[\",\x7d\")/*\x7d*/,c\x7d".toList

def sampleName : Token := ⟨2, ['b', ':'], .name⟩

/-- What stands behind the name in the element of that text. -/
def sampleBehind : List Item :=
  [.context Ending.value.mode
    [.token ⟨4, ['['], .bracket⟩,
      .context .group [.token ⟨5, ['"', ',', '\x7d', '"'], .string⟩, .token ⟨9, [')'], .bracket⟩],
      .token ⟨10, ['/', '*', '\x7d', '*', '/'], .comment⟩, .token ⟨15, [','], .separator⟩],
    .token ⟨16, ['c'], .stray⟩, .token ⟨17, ['\x7d'], .bracket⟩]

theorem lex_sampleValueText : lex .root sampleValueText =
    [.token ⟨0, ['a', '\x7b'], .tag⟩, .context .element (.token sampleName :: sampleBehind)] := by
  rfl

theorem value_extent_sampleBehind :
    (.element, .token sampleName :: sampleBehind) ∈
      Item.contexts (.context .root (lex .root sampleValueText)) ∧
    Ending.value.Starts .element sampleName ∧
    ∃ (n : Nat) (sub rest : List Item) (stop : Cursor),
      n = Ending.value.extent (sampleValueText.drop sampleName.stop) ∧
      sampleBehind = Item.nested Ending.value.mode sub ++ rest ∧
      Item.textAll sub = (sampleValueText.drop sampleName.stop).take n ∧
      Scans .element ⟨sampleName.stop + n, sampleValueText.drop (sampleName.stop + n)⟩ rest stop := by
  have hmem : (.element, .token sampleName :: sampleBehind) ∈
      Item.contexts (.context .root (lex .root sampleValueText)) := by
    rw [lex_sampleValueText]
    simp [Item.contexts, Item.contextsAll]
  have hstarts : Ending.value.Starts .element sampleName := ⟨.inl rfl, rfl⟩
  exact ⟨hmem, hstarts,
    value_extent sampleValueText _ hmem .value _ [] sampleBehind rfl hstarts⟩

end BlockMarkup
