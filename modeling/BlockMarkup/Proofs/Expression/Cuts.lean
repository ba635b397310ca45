import BlockMarkup.Proofs.Expression.Lexing

/-!
# BlockMarkup.Proofs.Expression.Cuts

The tokens of an expression, apart from its brackets. `Cuts pos s ts` cuts a text into its tokens
other than white space by the rules of groups alone, and `levels` counts the brackets around each of
them. The two make up what lexing finds in any text, in order or not (`cuts_lex`).
-/

namespace BlockMarkup

open Text

namespace Item

mutual

/-- The tokens of an item, each with the number of contexts around it, counted from `d`. -/
def leveled (d : Nat) : Item → List (Nat × Token)
  | .token t => [(d, t)]
  | .context _ items => leveledAll (d + 1) items

def leveledAll (d : Nat) : List Item → List (Nat × Token)
  | [] => []
  | i :: is => leveled d i ++ leveledAll d is

end

mutual

theorem map_leveled (d : Nat) : (i : Item) → (leveled d i).map (·.2) = tokens i
  | .token _ => rfl
  | .context _ items => map_leveledAll (d + 1) items

theorem map_leveledAll (d : Nat) :
    (items : List Item) → (leveledAll d items).map (·.2) = tokensAll items
  | [] => rfl
  | i :: is => by
    rw [leveledAll, tokensAll, List.map_append, map_leveled d i, map_leveledAll d is]

end

/-- The tokens other than white space, with their levels. -/
def solid (d : Nat) (items : List Item) : List (Nat × Token) :=
  (leveledAll d items).filter fun p => p.2.cls ≠ .blank

/-- What a text means: its tokens other than white space and comments, apart from their places, with
their levels. -/
def substance (items : List Item) : List (Nat × Lexeme) :=
  ((leveledAll 0 items).filter fun p => p.2.cls ≠ .blank && p.2.cls ≠ .comment).map
    fun p => (p.1, p.2.lexeme)

theorem leveledAll_append (d : Nat) (is js : List Item) :
    leveledAll d (is ++ js) = leveledAll d is ++ leveledAll d js := by
  induction is with
  | nil => rfl
  | cons i is ih => rw [List.cons_append, leveledAll, leveledAll, ih, List.append_assoc]

theorem solid_append (d : Nat) (is js : List Item) :
    solid d (is ++ js) = solid d is ++ solid d js := by
  rw [solid, leveledAll_append, List.filter_append]
  rfl

theorem solid_context (d : Nat) (m : Mode) (sub is : List Item) :
    solid d (.context m sub :: is) = solid (d + 1) sub ++ solid d is := by
  rw [solid, leveledAll, leveled, List.filter_append]
  rfl

theorem solid_nested (d : Nat) (m : Mode) (sub : List Item) :
    solid d (nested m sub) = solid (d + 1) sub := by
  cases sub with
  | nil => rfl
  | cons i is =>
    show (leveledAll (d + 1) (i :: is) ++ []).filter _ = _
    rw [List.append_nil]
    rfl

theorem solid_blank (d : Nat) {t : Token} (ht : t.cls = .blank) (is : List Item) :
    solid d (.token t :: is) = solid d is := by
  show ((d, t) :: leveledAll d is).filter _ = _
  rw [List.filter_cons_of_neg (by simp [ht])]
  rfl

theorem solid_token (d : Nat) {t : Token} (ht : t.cls ≠ .blank) (is : List Item) :
    solid d (.token t :: is) = (d, t) :: solid d is := by
  show ((d, t) :: leveledAll d is).filter _ = _
  rw [List.filter_cons_of_pos (by simp [ht])]
  rfl

end Item

/-! ## Cutting a text -/

/-- The tokens of a text other than white space, by the rules of groups. -/
inductive Cuts : Nat → List Char → List Token → Prop where
  | nil {pos : Nat} : Cuts pos [] []
  | blank {pos : Nat} {c : Char} {s : List Char} {ts : List Token} : isBlank c = true →
      Cuts (pos + 1) s ts → Cuts pos (c :: s) ts
  | piece {pos : Nat} {u s : List Char} {r : Rule} {cls : TokenClass} {ts : List Token} : u ≠ [] →
      r.Takes u s → r.effect = .emit cls → cls ≠ .blank → Cuts (pos + u.length) s ts →
      Cuts pos (u ++ s) (⟨pos, u, cls⟩ :: ts)

namespace Rule

theorem Takes.mem {r : Rule} {u t : List Char} (h : r.Takes u t) : r ∈ Mode.group.rules :=
  (first?_eq_some h).1

theorem Takes.matched {r : Rule} {u t : List Char} (h : r.Takes u t) :
    r.pattern.length? (u ++ t) = some u.length := (first?_eq_some h).2

/-- Only white space starts with white space. -/
theorem Takes.head_not_blank {r : Rule} {u t : List Char} {cls : TokenClass} (h : r.Takes u t)
    (hemit : r.effect = .emit cls) (hcls : cls ≠ .blank) :
    ∃ c s, u ++ t = c :: s ∧ isBlank c = false := by
  have hplain : ∀ q ∈ Mode.group.rules, q.effect ≠ .emit .blank →
      q.pattern ≠ .blanks ∧ q.pattern ≠ .spaces ∧ q.pattern.looksAhead = false := by decide
  obtain ⟨h₁, h₂, h₃⟩ := hplain r h.mem (by rw [hemit]; simpa using hcls)
  exact Pattern.head_not_blank h₁ h₂ h₃ h.matched

/-- Two rules that take the front of a text are one, and so are their matches. -/
theorem Takes.unique {r q : Rule} {u v s t : List Char} (h : r.Takes u s) (h' : q.Takes v t)
    (he : u ++ s = v ++ t) : r = q ∧ u = v ∧ s = t := by
  rw [Takes, he, h'] at h
  simp only [Option.some.injEq, Prod.mk.injEq] at h
  obtain ⟨hu, hs⟩ := List.append_inj he h.1.symm
  exact ⟨h.2.symm, hu, hs⟩

end Rule

namespace Cuts

variable {pos : Nat} {s : List Char} {ts : List Token}

theorem inv_nil (h : Cuts pos [] ts) : ts = [] := by
  generalize hs : ([] : List Char) = s at h
  cases h with
  | nil => rfl
  | blank => cases hs
  | piece hne => exact absurd (List.append_eq_nil_iff.mp hs.symm).1 hne

theorem inv_blank {c : Char} (hc : isBlank c = true) (h : Cuts pos (c :: s) ts) :
    Cuts (pos + 1) s ts := by
  generalize hs : c :: s = t at h
  cases h with
  | nil => cases hs
  | blank _ h =>
    cases hs
    exact h
  | piece _ htakes hemit hcls _ =>
    obtain ⟨d, v, hv, hd⟩ := htakes.head_not_blank hemit hcls
    rw [← hs] at hv
    cases hv
    rw [hc] at hd
    cases hd

theorem inv_piece {u : List Char} {r : Rule} {cls : TokenClass} (htakes : r.Takes u s)
    (hemit : r.effect = .emit cls) (hcls : cls ≠ .blank) (h : Cuts pos (u ++ s) ts) :
    ∃ ts', ts = ⟨pos, u, cls⟩ :: ts' ∧ Cuts (pos + u.length) s ts' := by
  obtain ⟨d, v, hv, hd⟩ := htakes.head_not_blank hemit hcls
  generalize hs : u ++ s = t at h
  cases h with
  | nil =>
    rw [hs] at hv
    cases hv
  | blank hc _ =>
    rw [hs] at hv
    cases hv
    rw [hd] at hc
    cases hc
  | piece _ htakes' hemit' _ h =>
    obtain ⟨rfl, rfl, rfl⟩ := htakes.unique htakes' hs
    cases hemit.symm.trans hemit'
    exact ⟨_, rfl, h⟩

/-- There is one way to cut a text. -/
theorem deterministic {ts' : List Token} (h : Cuts pos s ts) (h' : Cuts pos s ts') : ts = ts' := by
  induction h generalizing ts' with
  | nil => exact h'.inv_nil.symm
  | blank hc _ ih => exact ih (h'.inv_blank hc)
  | piece _ htakes hemit hcls _ ih =>
    obtain ⟨ts'', rfl, h''⟩ := h'.inv_piece htakes hemit hcls
    rw [ih h'']

theorem blanks {w : List Char} (hw : ∀ c ∈ w, isBlank c = true) (h : Cuts (pos + w.length) s ts) :
    Cuts pos (w ++ s) ts := by
  induction w generalizing pos with
  | nil => exact h
  | cons c w ih =>
    refine .blank (hw c List.mem_cons_self) (ih (fun d hd => hw d (List.mem_cons_of_mem _ hd)) ?_)
    rwa [List.length_cons, Nat.add_comm w.length, ← Nat.add_assoc] at h

theorem inv_blanks {w : List Char} (hw : ∀ c ∈ w, isBlank c = true) (h : Cuts pos (w ++ s) ts) :
    Cuts (pos + w.length) s ts := by
  induction w generalizing pos with
  | nil => exact h
  | cons c w ih =>
    have hrest := ih (fun d hd => hw d (List.mem_cons_of_mem _ hd))
      (h.inv_blank (hw c List.mem_cons_self))
    rwa [List.length_cons, Nat.add_comm w.length, ← Nat.add_assoc]

/-- A token stands at its position in the text. -/
theorem exists_split (h : Cuts pos s ts) : ∀ t ∈ ts, ∃ a b, s = a ++ (t.text ++ b) ∧
    t.pos = pos + a.length := by
  induction h with
  | nil => exact nofun
  | @blank pos c s ts _ _ ih =>
    intro t ht
    obtain ⟨a, b, rfl, hpos⟩ := ih t ht
    exact ⟨c :: a, b, rfl, by rw [hpos, List.length_cons]; omega⟩
  | @piece pos u s r cls ts _ _ _ _ _ ih =>
    intro t ht
    rcases List.mem_cons.mp ht with rfl | ht
    · exact ⟨[], s, rfl, rfl⟩
    · obtain ⟨a, b, rfl, hpos⟩ := ih t ht
      exact ⟨u ++ a, b, by rw [List.append_assoc], by rw [hpos, List.length_append]; omega⟩

/-- A token starts with something else than white space. -/
theorem exists_head (h : Cuts pos s ts) : ∀ t ∈ ts, ∃ c v, t.text = c :: v ∧ isBlank c = false := by
  induction h with
  | nil => exact nofun
  | blank _ _ ih => exact ih
  | @piece pos u s r cls ts hne htakes hemit hcls _ ih =>
    rw [List.forall_mem_cons]
    refine ⟨?_, ih⟩
    obtain ⟨c, v, hv, hc⟩ := htakes.head_not_blank hemit hcls
    cases u with
    | nil => exact absurd rfl hne
    | cons d u =>
      cases hv
      exact ⟨c, u, rfl, hc⟩

end Cuts

/-! ## Brackets -/

/-- The tokens with the number of brackets around them, `d` around the first. A closing bracket that
closes nothing is a text like any other. -/
def levels : Nat → List Token → List (Nat × Token)
  | _, [] => []
  | d, t :: ts =>
    match t.lexeme.move, d with
    | .stay, d => (d, t) :: levels d ts
    | .push _, d => (d, t) :: levels (d + 1) ts
    | .pop, 0 => (0, { t with cls := .text }) :: levels 0 ts
    | .pop, d + 1 => (d + 1, t) :: levels d ts

section

variable {t : Token} {ts : List Token}

theorem levels_stay (d : Nat) (h : t.lexeme.move = .stay) :
    levels d (t :: ts) = (d, t) :: levels d ts := by simp only [levels, h]

theorem levels_push {m : Mode} (d : Nat) (h : t.lexeme.move = .push m) :
    levels d (t :: ts) = (d, t) :: levels (d + 1) ts := by simp only [levels, h]

theorem levels_loose (h : t.lexeme.move = .pop) :
    levels 0 (t :: ts) = (0, { t with cls := .text }) :: levels 0 ts := by simp only [levels, h]

theorem levels_pop (d : Nat) (h : t.lexeme.move = .pop) :
    levels (d + 1) (t :: ts) = (d + 1, t) :: levels d ts := by simp only [levels, h]

end

/-- The number of brackets behind the tokens, `d` in front of them. -/
def after : Nat → List Token → Nat
  | d, [] => d
  | d, t :: ts =>
    match t.lexeme.move with
    | .stay => after d ts
    | .push _ => after (d + 1) ts
    | .pop => after (d - 1) ts

section

variable {t : Token} {ts : List Token}

theorem after_stay (d : Nat) (h : t.lexeme.move = .stay) : after d (t :: ts) = after d ts := by
  simp only [after, h]

theorem after_push {m : Mode} (d : Nat) (h : t.lexeme.move = .push m) :
    after d (t :: ts) = after (d + 1) ts := by simp only [after, h]

theorem after_pop (d : Nat) (h : t.lexeme.move = .pop) :
    after d (t :: ts) = after (d - 1) ts := by simp only [after, h]

end

theorem after_append (d : Nat) (ts us : List Token) : after d (ts ++ us) = after (after d ts) us := by
  induction ts generalizing d with
  | nil => rfl
  | cons t ts ih =>
    rw [List.cons_append]
    cases h : t.lexeme.move with
    | stay => rw [after_stay d h, after_stay d h, ih]
    | push m => rw [after_push d h, after_push d h, ih]
    | pop => rw [after_pop d h, after_pop d h, ih]

theorem levels_append (d : Nat) (ts us : List Token) :
    levels d (ts ++ us) = levels d ts ++ levels (after d ts) us := by
  induction ts generalizing d with
  | nil => rfl
  | cons t ts ih =>
    rw [List.cons_append]
    cases h : t.lexeme.move with
    | stay => rw [levels_stay d h, levels_stay d h, after_stay d h, ih, List.cons_append]
    | push m => rw [levels_push d h, levels_push d h, after_push d h, ih, List.cons_append]
    | pop =>
      rw [after_pop d h]
      cases d with
      | zero => rw [levels_loose h, levels_loose h, ih, List.cons_append]
      | succ d =>
        rw [levels_pop d h, levels_pop d h, ih, List.cons_append]
        rfl

/-- The rule and the token it makes agree on what becomes of the nesting. -/
theorem Rule.Takes.move_eq {r : Rule} {u t : List Char} {cls : TokenClass} (h : r.Takes u t)
    (hemit : r.effect = .emit cls) : Lexeme.move ⟨u, cls⟩ = r.move := by
  have hrule : ∀ q ∈ Mode.group.rules, q.effect = .emit .bracket ∨ q.move = .stay := by decide
  by_cases hcls : cls = .bracket
  · have hclosed : ∀ q ∈ Mode.group.rules, q.effect = .emit .bracket →
        q.pattern.isClosed = true := by decide
    subst hcls
    have hu := (Pattern.length?_append_iff (hclosed r h.mem hemit) (Nat.le_refl _)).mp h.matched
    exact (Lexeme.move_of_closed h.mem hemit hu).symm
  · rcases hrule r h.mem with he | he
    · rw [hemit] at he
      exact absurd (Effect.emit.inj he) hcls
    · rw [he]
      by_contra hmove
      exact hcls (Lexeme.cls_of_move hmove)

/-! ## Lexing any text -/

/-- A mode that matches wherever it is tried. -/
theorem Rule.first?_ne_none {m : Mode} (hm : m = .expression ∨ m = .group) {c : Char}
    (s : List Char) : Rule.first? m.rules (c :: s) ≠ none := by
  intro hnone
  have hall : ∀ r ∈ m.rules, r.pattern.length? (c :: s) = none := by
    intro r hr
    have := List.findSome?_eq_none_iff.mp hnone r hr
    simpa using this
  have hblank : isBlank c = false := by
    have h := hall ⟨.blanks, .emit .blank, .stay⟩ (by rcases hm with rfl | rfl <;> decide)
    cases hc : isBlank c with
    | false => rfl
    | true => simp [Pattern.length?, Pattern.many, hc] at h
  have hopener := hall ⟨.groupOpener, .emit .bracket, .push .group⟩
    (by rcases hm with rfl | rfl <;> decide)
  have hquote := hall ⟨.quote, .emit .stray, .stay⟩ (by rcases hm with rfl | rfl <;> decide)
  have hmarks : c ≠ ')' ∧ c ≠ ']' ∧ c ≠ '\x7d' ∧ c ≠ ',' := by
    rcases hm with rfl | rfl
    · have h := hall ⟨.looseMark, .emit .text, .stay⟩ (by decide)
      simpa [Pattern.length?, Pattern.one, and_assoc] using h
    · have h := hall ⟨.groupCloser, .emit .bracket, .pop⟩ (by decide)
      have h' := hall ⟨.separator, .emit .text, .stay⟩ (by decide)
      simp only [Pattern.length?, Pattern.one, Bool.or_eq_true, decide_eq_true_eq, ite_eq_right_iff,
        reduceCtorEq, imp_false, not_or] at h h'
      exact ⟨h.1.1, h.1.2, h.2, h'⟩
  have hrun := hall ⟨.run, .emit .text, .stay⟩ (by rcases hm with rfl | rfl <;> decide)
  simp only [Pattern.length?, Pattern.one, Bool.or_eq_true, decide_eq_true_eq, ite_eq_right_iff,
    reduceCtorEq, imp_false, not_or] at hopener hquote
  have hends : Pattern.endsRun c = true := by
    cases hc : Pattern.endsRun c with
    | true => rfl
    | false => simp [Pattern.length?, Pattern.many, hc] at hrun
  simp only [Pattern.endsRun, hblank, Bool.false_or, List.contains_eq_mem, List.mem_cons,
    List.not_mem_nil, or_false, decide_eq_true_eq] at hends
  rcases hends with rfl | rfl | rfl | rfl | rfl | rfl | rfl | rfl | rfl | rfl
  case inr.inr.inr.inr.inr.inr.inr.inr.inl => cases hrun
  case inr.inr.inr.inr.inr.inr.inr.inr.inr => cases hrun
  all_goals simp_all

theorem Mode.search_eq_none {m : Mode} (hm : m = .expression ∨ m = .group) {s : List Char}
    (h : m.search s = none) : s = [] := by
  cases s with
  | nil => rfl
  | cons c s => exact absurd (Mode.first?_of_search_none h nofun) (Rule.first?_ne_none hm s)

/-- A match that passes nothing over takes a text right where it is tried. -/
theorem Mode.Hit.match_of_start {m : Mode} {c : Cursor} {h : Mode.Hit}
    (hs : m.search c.rest = some h) (hskipped : h.skipped = 0) :
    ∃ u, c.rest = u ++ (h.after c).rest ∧ u.length = h.length ∧
      (h.after c).pos = c.pos + u.length ∧
      Rule.first? m.rules (u ++ (h.after c).rest) = some (u.length, h.rule) ∧
      h.items c = c.emit u.length h.rule.effect := by
  have hsound := Mode.search_sound hs
  have hfirst := hsound.first
  have hle := hsound.le
  rw [hskipped, List.drop_zero] at hfirst
  rw [hskipped, Nat.zero_add] at hle
  have hlength : (c.rest.take h.length).length = h.length := by
    rw [List.length_take]
    omega
  have hafter : (h.after c).rest = c.rest.drop h.length := by
    rw [Mode.Hit.after_rest, hskipped, Nat.zero_add]
  refine ⟨c.rest.take h.length, ?_, hlength, ?_, ?_, ?_⟩
  · rw [hafter, List.take_append_drop]
  · rw [Mode.Hit.after_pos, hskipped, hlength, Nat.add_zero]
  · rw [hafter, List.take_append_drop, hlength, hfirst]
  · rw [Mode.Hit.items, hskipped, Cursor.take_zero, Cursor.advance_zero, hlength, List.nil_append]

/-- A match that passes nothing over is a token of its own, right where it is tried. -/
theorem Mode.Hit.token_of_start {m : Mode} {c : Cursor} {h : Mode.Hit} {cls : TokenClass}
    (hs : m.search c.rest = some h) (hemit : h.rule.effect = .emit cls) (hskipped : h.skipped = 0) :
    ∃ u, u ≠ [] ∧ c.rest = u ++ (h.after c).rest ∧ (h.after c).pos = c.pos + u.length ∧
      Rule.first? m.rules (u ++ (h.after c).rest) = some (u.length, h.rule) ∧
      h.items c = [.token ⟨c.pos, u, cls⟩] := by
  obtain ⟨u, hc, -, hpos, hfirst, hitems⟩ := Mode.Hit.match_of_start hs hskipped
  have hne : u ≠ [] := List.ne_nil_of_length_pos (Pattern.length?_pos
    (m.looksAhead_of_emits _ (Mode.search_sound hs).mem (by rw [hemit]; exact nofun))
    (Rule.first?_eq_some hfirst).2)
  refine ⟨u, hne, hc, hpos, hfirst, ?_⟩
  rw [hitems, hemit, Cursor.emit, Cursor.take_append cls hc hne]

/-- In an expression, every match is a token of its own. -/
theorem Mode.Hit.token_of_total {m : Mode} {c : Cursor} {h : Mode.Hit}
    (hm : m = .expression ∨ m = .group) (hs : m.search c.rest = some h) :
    ∃ u cls, u ≠ [] ∧ c.rest = u ++ (h.after c).rest ∧ (h.after c).pos = c.pos + u.length ∧
      Rule.first? m.rules (u ++ (h.after c).rest) = some (u.length, h.rule) ∧
      h.rule.effect = .emit cls ∧ h.items c = [.token ⟨c.pos, u, cls⟩] := by
  have hskip : ∀ r ∈ m.rules, r.effect ≠ .skip := by rcases hm with rfl | rfl <;> decide
  obtain ⟨cls, hemit⟩ : ∃ cls, h.rule.effect = .emit cls := by
    cases he : h.rule.effect with
    | skip => exact absurd he (hskip _ (Mode.search_sound hs).mem)
    | emit cls => exact ⟨cls, rfl⟩
  have hskipped : h.skipped = 0 := by
    by_contra hne
    have hnone := Mode.first?_of_skipped hs (Nat.pos_of_ne_zero hne)
    cases hrest : c.rest with
    | nil =>
      rw [hrest] at hs
      cases hs
    | cons d s =>
      rw [hrest] at hnone
      exact Rule.first?_ne_none hm s hnone
  obtain ⟨u, hne, hc, hpos, hfirst, hitems⟩ := Mode.Hit.token_of_start hs hemit hskipped
  exact ⟨u, cls, hne, hc, hpos, hfirst, hemit, hitems⟩

/-- The token of a match in an expression, by the rules of groups: it is the same but for a closing
bracket outside of all brackets. -/
theorem takes_of_first? {m : Mode} {u t : List Char} {r : Rule} {cls : TokenClass}
    (hm : m = .expression ∨ m = .group)
    (h : Rule.first? m.rules (u ++ t) = some (u.length, r)) (hemit : r.effect = .emit cls) :
    (∃ q : Rule, q.Takes u t ∧ q.effect = .emit cls ∧ Lexeme.move ⟨u, cls⟩ = r.move) ∨
    (m = .expression ∧ cls = .text ∧ ∃ q : Rule, q.Takes u t ∧
      q.effect = .emit .bracket ∧ Lexeme.move ⟨u, .bracket⟩ = .pop) := by
  rcases hm with rfl | rfl
  · by_cases hcloser : ∃ c ∈ [')', ']', '\x7d'], u = [c]
    · obtain ⟨c, hc, rfl⟩ := hcloser
      have hrule : r = ⟨.looseMark, .emit .text, .stay⟩ ∧
          Rule.Takes ⟨.groupCloser, .emit .bracket, .pop⟩ [c] t ∧
          Lexeme.move ⟨[c], .bracket⟩ = .pop := by
        simp only [List.mem_cons, List.not_mem_nil, or_false] at hc
        rcases hc with rfl | rfl | rfl <;> cases h <;> exact ⟨rfl, rfl, rfl⟩
      obtain ⟨rfl, htakes, hmove⟩ := hrule
      cases hemit
      exact .inr ⟨rfl, rfl, _, htakes, rfl, hmove⟩
    · obtain ⟨q, htakes, hemit', hmove⟩ := takes_of_first?_expression h hemit
        fun c hc hu => hcloser ⟨c, hc, hu⟩
      exact .inl ⟨q, htakes, hemit', (htakes.move_eq hemit').trans hmove⟩
  · exact .inl ⟨r, h, hemit, Rule.Takes.move_eq h hemit⟩

/-- No token is a stray mark. -/
def NoStray (ts : List Token) : Prop := ∀ t ∈ ts, t.cls ≠ .stray

/-- How the tokens `ts` of a context with `d` brackets around it end: with the bracket that closes the
context, or with the text. Where no bracket is left open and no mark is stray, they are in order. -/
inductive Ended (m : Mode) (d : Nat) (items : List Item) (stop : Cursor) (ts : List Token) : Prop where
  | closed : m = .group → after d ts + 1 = d → Item.isClosed items = true →
      (NoStray ts → SoundItems m items) → Ended m d items stop ts
  | text : stop.rest = [] → d ≤ after d ts → (after d ts = d → NoStray ts → SoundItems m items) →
      Ended m d items stop ts

section

variable {m : Mode} {d : Nat} {items : List Item} {stop : Cursor} {ts : List Token} {t : Token}

theorem Item.ne_nil_of_isClosed {items : List Item} (h : isClosed items = true) : items ≠ [] := by
  rintro rfl
  cases h

/-- A token in front that changes no bracket. -/
theorem Ended.token {us : List Token} (h : Ended m d items stop ts) (hafter : after d us = after d ts)
    (hstart : StartsWithToken items) (hus : NoStray us → NoStray ts ∧ SoundToken m t []) :
    Ended m d (.token t :: items) stop us := by
  have hitems : NoStray us → (NoStray ts → SoundItems m items) →
      SoundItems m (.token t :: items) := fun hstray hrest =>
    (soundItems_token hstart).mpr ⟨(hus hstray).2, hrest (hus hstray).1⟩
  cases h with
  | closed hm hd hclose hs =>
    refine .closed hm (by rw [hafter, hd]) ?_ fun hstray => hitems hstray hs
    rwa [← List.singleton_append, Item.isClosed_append (Item.ne_nil_of_isClosed hclose)]
  | text hstop hd hs =>
    exact .text hstop (by rwa [hafter]) fun he hstray => hitems hstray (hs (by rwa [hafter] at he))

/-- A bracket in front that opens a group, with all of the group. -/
theorem Ended.push {o : Token} {back : Cursor} {sub : List Item} {us : List Token}
    (hsub : Ended .group (d + 1) sub back us) (h : Ended m d items stop ts)
    (hrest : Scans m back items stop) (hts : back.rest = [] → ts = [])
    (hm : m.isBody = false) (ho : Opens m o .group)
    (hmove : o.lexeme.move = .push .group) :
    levels (after (d + 1) us) ts = levels d ts ∧
      Ended m d (.token o :: (Item.nested .group sub ++ items)) stop (o :: (us ++ ts)) := by
  have hafter : after d (o :: (us ++ ts)) = after (after (d + 1) us) ts := by
    rw [after_push d hmove, after_append]
  cases hsub with
  | closed _ hd hclosed hsound =>
    have hd : after (d + 1) us = d := Nat.succ.inj hd
    rw [hd] at hafter ⊢
    obtain ⟨left, hformed, -⟩ := hrest.formed
    have hitems : NoStray (o :: (us ++ ts)) → (NoStray ts → SoundItems m items) →
        SoundItems m (.token o :: (Item.nested .group sub ++ items)) := by
      intro hall hitems
      refine (soundItems_push hformed.startsWithToken).mpr
        ⟨⟨(soundToken_group_iff hm ho).mpr hclosed, ?_⟩, hitems fun t ht => hall t ?_⟩
      · rw [soundTree_iff_soundItems (by decide) (by decide)]
        exact hsound fun t ht => hall t (List.mem_cons_of_mem _ (List.mem_append_left _ ht))
      · exact List.mem_cons_of_mem _ (List.mem_append_right _ ht)
    refine ⟨rfl, ?_⟩
    cases h with
    | closed hgroup hd hclose hs =>
      refine .closed hgroup (by rw [hafter, hd]) ?_ fun hall => hitems hall hs
      rwa [← List.cons_append, Item.isClosed_append (Item.ne_nil_of_isClosed hclose)]
    | text hstop hd hs =>
      exact .text hstop (by rwa [hafter]) fun he hall => hitems hall (hs (by rwa [hafter] at he))
  | text hback hd _ =>
    -- The text ends inside the group, and its bracket stays open.
    obtain rfl := hts hback
    obtain ⟨-, hstop⟩ := hrest.of_rest_nil hback
    have hafter : after d (o :: (us ++ [])) = after (d + 1) us := hafter
    exact ⟨rfl, .text hstop (by omega) fun he => by omega⟩

end

/-- What a context of an expression finds, with `d` brackets around it, is how its text is cut, with
the levels of the tokens. -/
theorem Scans.cuts {m : Mode} {c stop : Cursor} {items : List Item} (h : Scans m c items stop) :
    ∀ {d : Nat}, m = .expression ∧ d = 0 ∨ m = .group ∧ 0 < d → ∀ {ts' : List Token},
      Cuts stop.pos stop.rest ts' → ∃ ts, Cuts c.pos c.rest (ts ++ ts') ∧
        levels d ts = Item.solid d items ∧ Ended m d items stop ts := by
  induction h with
  | @stop m c hs =>
    intro d hd ts' hcuts
    have hm : m = .expression ∨ m = .group := hd.imp And.left And.left
    have hnil := Mode.search_eq_none hm hs
    have hitems : c.take c.rest.length .stray = [] := by
      rw [hnil]
      exact c.take_zero .stray
    have hstop : (c.advance c.rest.length).rest = [] := by simp [Cursor.advance]
    have hcuts' := hcuts
    rw [hstop] at hcuts'
    obtain rfl := hcuts'.inv_nil
    rw [hitems]
    rw [hnil] at hstop ⊢
    exact ⟨[], .nil, rfl, .text hstop (Nat.le_refl d) fun _ _ => soundItems_nil m⟩
  | @stay m c stop h items hs hmove hscan ih =>
    intro d hd ts' hcuts
    have hm : m = .expression ∨ m = .group := hd.imp And.left And.left
    obtain ⟨u, cls, hne, hc, hpos, hfirst, hemit, hitems⟩ := Mode.Hit.token_of_total hm hs
    obtain ⟨ts, hts, hlevels, hended⟩ := ih hd hcuts
    obtain ⟨left, hformed, -⟩ := hscan.formed
    have hstart := hformed.startsWithToken
    have hmakes : m.Makes h.rule ⟨c.pos, u, cls⟩ := ⟨hemit, ⟨_, hfirst⟩, hne⟩
    have hsound : cls ≠ .stray → SoundToken m ⟨c.pos, u, cls⟩ [] :=
      (soundToken_plain_iff hmakes (.inl hmove)).mpr
    rw [hpos] at hts
    rw [hitems, List.singleton_append, hc]
    rcases takes_of_first? hm hfirst hemit with ⟨q, htakes, hemit', hmove'⟩ |
      ⟨hme, rfl, q, htakes, hemit', hmove'⟩
    · by_cases hblank : cls = .blank
      · subst hblank
        have hrule : ∀ q ∈ Mode.group.rules, q.effect = .emit .blank → q.pattern = .blanks := by
          decide
        have hmatched := htakes.matched
        rw [hrule q htakes.mem hemit'] at hmatched
        obtain ⟨hn, -⟩ := Pattern.many_eq_some.mp hmatched
        obtain ⟨hu, -⟩ := Lexeme.takeWhile_eq_of_length hn
        rw [Item.solid_blank d rfl]
        exact ⟨ts, hts.blanks hu, hlevels,
          hended.token rfl hstart fun hstray => ⟨hstray, hsound (by decide)⟩⟩
      · refine ⟨⟨c.pos, u, cls⟩ :: ts, .piece hne htakes hemit' hblank hts, ?_, ?_⟩
        · rw [Item.solid_token d hblank, levels_stay (t := ⟨c.pos, u, cls⟩) d (hmove'.trans hmove),
            hlevels]
        · exact hended.token (after_stay (t := ⟨c.pos, u, cls⟩) d (hmove'.trans hmove)) hstart
            fun hstray => ⟨(List.forall_mem_cons.mp hstray).2, hsound (hstray _ List.mem_cons_self)⟩
    · obtain ⟨-, rfl⟩ : m = .expression ∧ d = 0 := by
        rcases hd with hd | ⟨hg, -⟩
        · exact hd
        · rw [hme] at hg
          cases hg
      refine ⟨⟨c.pos, u, .bracket⟩ :: ts, .piece hne htakes hemit' (by decide) hts, ?_, ?_⟩
      · rw [Item.solid_token 0 (t := ⟨c.pos, u, .text⟩) (by rintro ⟨⟩),
          levels_loose (t := ⟨c.pos, u, .bracket⟩) hmove', hlevels]
      · exact hended.token (after_pop (t := ⟨c.pos, u, .bracket⟩) 0 hmove') hstart
          fun hstray => ⟨(List.forall_mem_cons.mp hstray).2, hsound (by decide)⟩
  | @pop m c h hs hmove =>
    intro d hd ts' hcuts
    have hm : m = .expression ∨ m = .group := hd.imp And.left And.left
    obtain ⟨u, cls, hne, hc, hpos, hfirst, hemit, hitems⟩ := Mode.Hit.token_of_total hm hs
    obtain ⟨hmem, -⟩ := Rule.first?_eq_some hfirst
    obtain ⟨rfl, hd⟩ : m = .group ∧ 0 < d := by
      rcases hd with ⟨rfl, -⟩ | hd
      · exact absurd hmove (isBottom_expression _ hmem)
      · exact hd
    have hrule := Mode.rule_of_group _ hmem hmove
    obtain rfl : cls = .bracket := by
      rw [hrule] at hemit
      exact (Effect.emit.inj hemit).symm
    have htakes : h.rule.Takes u (h.after c).rest := hfirst
    have hpop := (htakes.move_eq hemit).trans hmove
    rw [hpos] at hcuts
    rw [hc]
    obtain ⟨e, rfl⟩ : ∃ e, d = e + 1 := ⟨d - 1, by omega⟩
    refine ⟨[⟨c.pos, u, .bracket⟩], .piece hne htakes hemit (by decide) hcuts, ?_, ?_⟩
    · rw [hitems, Item.solid_token _ (t := ⟨c.pos, u, .bracket⟩) (by rintro ⟨⟩),
        levels_pop (t := ⟨c.pos, u, .bracket⟩) e hpop]
      rfl
    · have hmakes : Mode.group.Makes h.rule ⟨c.pos, u, .bracket⟩ := ⟨hemit, ⟨_, hfirst⟩, hne⟩
      have hclosed : Formed .group [.token ⟨c.pos, u, .bracket⟩] true := .close hmove hmakes
      rw [hitems]
      refine .closed rfl ?_ (hclosed.closed_group_iff.mpr rfl) fun _ => ?_
      · rw [after_pop (t := ⟨c.pos, u, .bracket⟩) _ hpop]
        rfl
      · exact (soundItems_token startsWithToken_nil).mpr
          ⟨(soundToken_plain_iff hmakes (.inr hmove)).mpr (by rintro ⟨⟩), soundItems_nil _⟩
  | @push m inner c back stop h sub items hs hmove hsub hrest ihsub ih =>
    intro d hd ts' hcuts
    have hm : m = .expression ∨ m = .group := hd.imp And.left And.left
    obtain ⟨u, cls, hne, hc, hpos, hfirst, hemit, hitems⟩ := Mode.Hit.token_of_total hm hs
    obtain ⟨hmem, -⟩ := Rule.first?_eq_some hfirst
    obtain ⟨rfl, hrule⟩ : inner = .group ∧ h.rule.effect = .emit .bracket := by
      have hopener : ∀ q ∈ m.rules, q.move = .stay ∨ q.move = .pop ∨
          q.move = .push .group ∧ q.effect = .emit .bracket := by
        rcases hm with rfl | rfl <;> decide
      rcases hopener _ hmem with he | he | ⟨he, hq⟩
      · rw [hmove] at he
        cases he
      · rw [hmove] at he
        cases he
      · rw [hmove] at he
        cases he
        exact ⟨rfl, hq⟩
    cases hemit.symm.trans hrule
    obtain ⟨q, htakes, hemit', hmove'⟩ : ∃ q : Rule, q.Takes u (h.after c).rest ∧
        q.effect = .emit .bracket ∧ Lexeme.move ⟨u, .bracket⟩ = .push .group := by
      rcases takes_of_first? hm hfirst hemit with ⟨q, htakes, hemit', hmove'⟩ | ⟨-, hcls, -⟩
      · exact ⟨q, htakes, hemit', hmove'.trans hmove⟩
      · cases hcls
    obtain ⟨ts₂, hts₂, hlevels₂, hended₂⟩ := ih hd hcuts
    obtain ⟨ts₁, hts₁, hlevels₁, hended₁⟩ := ihsub (d := d + 1) (.inr ⟨rfl, Nat.succ_pos d⟩) hts₂
    rw [hpos] at hts₁
    rw [hc]
    have hmakes : m.Makes h.rule ⟨c.pos, u, .bracket⟩ := ⟨hemit, ⟨_, hfirst⟩, hne⟩
    have hts : back.rest = [] → ts₂ = [] := by
      intro hback
      rw [hback] at hts₂
      exact (List.append_eq_nil_iff.mp hts₂.inv_nil).1
    obtain ⟨hlevels, hended⟩ := hended₁.push hended₂ hrest hts (by rcases hm with rfl | rfl <;> rfl)
      (opens_of_makes hmove hmakes) hmove'
    rw [hitems, List.append_assoc, List.singleton_append]
    refine ⟨⟨c.pos, u, .bracket⟩ :: (ts₁ ++ ts₂), ?_, ?_, hended⟩
    · rw [List.cons_append, List.append_assoc]
      exact .piece hne htakes hemit' (by decide) hts₁
    · rw [Item.solid_token d (t := ⟨c.pos, u, .bracket⟩) (by rintro ⟨⟩), Item.solid_append, Item.solid_nested,
        levels_push (t := ⟨c.pos, u, .bracket⟩) d hmove', levels_append, hlevels, hlevels₁, hlevels₂]

/-- Lexing an expression cuts its text, whether it is in order or not, and brackets give each token
its level. -/
theorem cuts_lex (s : List Char) :
    ∃ ts, Cuts 0 s ts ∧ levels 0 ts = Item.solid 0 (lex .expression s) ∧
      (after 0 ts = 0 → NoStray ts → SoundTree .expression (lex .expression s)) := by
  obtain ⟨stop, h, hstop⟩ := scans_lex isBottom_expression s
  have hnil : Cuts stop.pos stop.rest [] := by
    rw [hstop]
    exact .nil
  obtain ⟨ts, hts, hlevels, hended⟩ := h.cuts (.inl ⟨rfl, rfl⟩) hnil
  rw [List.append_nil] at hts
  refine ⟨ts, hts, hlevels, fun hafter hstray => ?_⟩
  rw [soundTree_iff_soundItems (by decide) (by decide)]
  cases hended with
  | closed hm _ _ _ => cases hm
  | text _ _ hsound => exact hsound hafter hstray

/-- What is cut from a text is what lexing finds. -/
theorem Cuts.levels_eq {s : List Char} {ts : List Token} (h : Cuts 0 s ts) :
    levels 0 ts = Item.solid 0 (lex .expression s) := by
  obtain ⟨ts', h', hlevels, -⟩ := cuts_lex s
  rw [h.deterministic h', hlevels]

/-- A text is in order where no bracket is left open and no mark is stray. -/
theorem Cuts.soundTree {s : List Char} {ts : List Token} (h : Cuts 0 s ts) (hafter : after 0 ts = 0)
    (hstray : NoStray ts) : SoundTree .expression (lex .expression s) := by
  obtain ⟨ts', h', -, hsound⟩ := cuts_lex s
  obtain rfl := h.deterministic h'
  exact hsound hafter hstray

end BlockMarkup
