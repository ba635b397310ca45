import BlockMarkup.Proofs.Document.Line
import BlockMarkup.Proofs.Expression.Nesting

/-!
# BlockMarkup.Proofs.Expression.Extent

How far an expression goes, in each of the modes that expressions are read in. A mode has marks of
its own in front of the rules it shares with the others; outside of brackets, lexemes must not be
taken for these.
-/

namespace BlockMarkup

open Text Lexeme

namespace Rule

theorem first?_append_of_none {before rs : List Rule} {s : List Char}
    (h : ∀ q ∈ before, q.pattern.length? s = none) : first? (before ++ rs) s = first? rs s := by
  induction before with
  | nil => rfl
  | cons q qs ih =>
    rw [List.cons_append, first?_cons_none (h q List.mem_cons_self)]
    exact ih fun p hp => h p (List.mem_cons_of_mem _ hp)

/-- The rules that all expressions share do not start with a mark. -/
theorem opensWith_mark : ∀ r ∈ expression, ∀ c ∈ [',', ')', ']', '\x7d'],
    r.pattern.opensWith c = false := by
  intro r hr c hc
  simp only [List.mem_cons, List.not_mem_nil, or_false] at hc
  revert r
  rcases hc with rfl | rfl | rfl | rfl <;> decide

end Rule

/-- The lexeme is found by a rule that all expressions share, and it does not start with a mark. -/
structure Lexeme.Shared (l : Lexeme) (t : List Char) (r : Rule) : Prop where
  first : Rule.first? Rule.expression (l.text ++ t) = some (l.text.length, r)
  effect : r.effect = .emit l.cls
  move : r.move = .stay
  head : ∃ c s, l.text = c :: s ∧ c ∉ [',', ')', ']', '\x7d']

/-- Outside of brackets only commas are not shared. -/
theorem Lexeme.Fits.shared {l : Lexeme} {t : List Char} (h : l.Fits t) (hstay : l.move = .stay)
    (hcomma : l.text ≠ [',']) : ∃ r : Rule, l.Shared t r := by
  obtain ⟨r, hr, htakes, hemit, hmove⟩ := h.takes
  obtain ⟨c, s, hl⟩ := List.exists_cons_of_ne_nil h.text_ne_nil
  have hmatch : r.pattern.length? (c :: (s ++ t)) = some l.text.length := by
    have := (Rule.first?_eq_some htakes).2
    rwa [hl, List.cons_append, ← hl] at this
  have hopens : r.pattern.opensWith c = true := by
    obtain ⟨d, u, hd, hopens⟩ := Pattern.opensWith_of_length? hmatch
    cases hd
    exact hopens
  have hexpression : r ∈ Rule.expression := by
    have hrules : r = ⟨.groupCloser, .emit .bracket, .pop⟩ ∨
        r = ⟨.separator, .emit .text, .stay⟩ ∨ r ∈ Rule.expression := by
      simpa [Mode.rules] using hr
    rcases hrules with rfl | rfl | hr
    · cases hmove.trans hstay
    · refine absurd ?_ hcomma
      have hone : Pattern.one (· = ',') (c :: (s ++ t)) = some l.text.length := hmatch
      obtain ⟨hn, -⟩ := Pattern.one_eq_some hone
      rw [hl] at hn ⊢
      obtain rfl : s = [] := by simpa using hn
      simpa [Pattern.opensWith] using hopens
    · exact hr
  have hmark : c ∉ [',', ')', ']', '\x7d'] := by
    intro hc
    rw [Rule.opensWith_mark r hexpression c hc] at hopens
    cases hopens
  refine ⟨r, ?_, hemit, hmove.trans hstay, c, s, hl, hmark⟩
  have hrules : Mode.group.rules = [⟨.groupCloser, .emit .bracket, .pop⟩,
    ⟨.separator, .emit .text, .stay⟩] ++ Rule.expression := rfl
  rw [Rule.Takes, hrules, Rule.first?_append_of_none] at htakes
  · exact htakes
  · intro q hq
    rw [hl, List.cons_append]
    apply Pattern.length?_eq_none
    simp only [List.mem_cons, List.not_mem_nil, or_false, not_or] at hq hmark
    rcases hq with rfl | rfl <;> simp [Pattern.opensWith, hmark]

theorem Lexeme.Fits.comma {l : Lexeme} {t : List Char} (h : l.Fits t) (hl : l.text = [',']) :
    l.cls = .text := by
  obtain ⟨r, -, htakes, hemit, -⟩ := h.takes
  rw [Rule.Takes, hl, List.singleton_append, Rule.first?_eq_filter] at htakes
  cases htakes.symm.trans (Rule.first?_cons_some rfl)
  exact (Effect.emit.inj hemit).symm

/-- A shared lexeme is read in any mode whose own marks do not match at it. -/
theorem Lexeme.Shared.readsAs {l : Lexeme} {t : List Char} {r : Rule} (h : l.Shared t r)
    (hl : l.Fits t) {m : Mode} {b : List Rule} (hm : m.rules = b ++ Rule.expression)
    (hbefore : ∀ q ∈ b, q.pattern.length? (l.text ++ t) = none) (pos : Nat) :
    ReadsAs m pos [l] t := by
  refine .token hl.text_ne_nil hl.cls_ne_stray ?_ h.effect h.move
  rw [hm, Rule.first?_append_of_none hbefore, h.first]

/-! ## Decorations and expressions on their own -/

theorem readsEach_decoration (t : List Char) : ReadsEach .decoration (fun _ _ => True) t := by
  intro l ls pos _ hstay hfit
  by_cases hcomma : l.text = [',']
  · refine .token hfit.1.text_ne_nil hfit.1.cls_ne_stray (r := ⟨.separator, .emit .text, .stay⟩) ?_ ?_ rfl
    · rw [hcomma, List.singleton_append, Rule.first?_eq_filter]
      exact Rule.first?_cons_some rfl
    · rw [hfit.1.comma hcomma]
  · obtain ⟨r, hr⟩ := hfit.1.shared hstay hcomma
    refine hr.readsAs hfit.1 (b := [⟨.decoratorEnd, .emit .decorator, .pop⟩,
      ⟨.separator, .emit .text, .stay⟩]) rfl ?_ pos
    intro q hq
    obtain ⟨c, s, hl, hmark⟩ := hr.head
    rw [hl, List.cons_append]
    apply Pattern.length?_eq_none
    simp only [List.mem_cons, List.not_mem_nil, or_false, not_or] at hq hmark
    rcases hq with rfl | rfl <;> simp [Pattern.opensWith, hmark]

theorem readsEach_expression (t : List Char) : ReadsEach .expression (fun _ _ => True) t := by
  intro l ls pos _ hstay hfit
  by_cases hcomma : l.text = [',']
  · refine .token hfit.1.text_ne_nil hfit.1.cls_ne_stray (r := ⟨.looseMark, .emit .text, .stay⟩) ?_ ?_ rfl
    · rw [hcomma, List.singleton_append, Rule.first?_eq_filter]
      exact Rule.first?_cons_some rfl
    · rw [hfit.1.comma hcomma]
  · obtain ⟨r, hr⟩ := hfit.1.shared hstay hcomma
    refine hr.readsAs hfit.1 (b := [⟨.looseMark, .emit .text, .stay⟩]) rfl ?_ pos
    intro q hq
    obtain ⟨c, s, hl, hmark⟩ := hr.head
    rw [hl, List.cons_append]
    apply Pattern.length?_eq_none
    simp only [List.mem_cons, List.not_mem_nil, or_false, not_or] at hq hmark
    subst hq
    simp [Pattern.opensWith, hmark]

/-! ## Values of attributes and fields -/

namespace Lexeme

/-- A comment that ends with its line. -/
def isLineComment (l : Lexeme) : Bool := l.cls = .comment && ['/', '/'].isPrefixOf l.text

/-- The line goes on: what comes next is neither its end nor a comment up to there. -/
def goesOn : List Lexeme → Prop
  | [] => True
  | l :: ls => l.isLineComment = false ∧
    (l.cls = .blank → '\n' ∉ l.text ∧ ∀ k : Lexeme, k ∈ ls.head? → k.isLineComment = false)

variable {l : Lexeme} {ls : List Lexeme} {t : List Char}

theorem Fits.isLineComment_of_slashes {s : List Char} (h : l.Fits t)
    (hs : l.text ++ t = '/' :: '/' :: s) : l.isLineComment = true := by
  obtain ⟨r, -, htakes, hemit, -⟩ := h.takes
  rw [Rule.Takes, hs, Rule.first?_eq_filter] at htakes
  have hfirst := htakes.symm.trans (Rule.first?_cons_some rfl)
  simp only [Option.some.injEq, Prod.mk.injEq] at hfirst
  obtain ⟨hlength, rfl⟩ := hfirst
  obtain ⟨u, cls⟩ := l
  cases hemit
  rcases u with _ | ⟨a, _ | ⟨b, v⟩⟩
  · cases hlength
  · cases hlength
  · cases hs
    rfl

/-- Only white space starts with white space. -/
theorem Fits.head_not_blank (h : l.Fits t) (hl : l.cls ≠ .blank) :
    ∃ c s, l.text ++ t = c :: s ∧ isBlank c = false := by
  obtain ⟨r, hr, htakes, hemit, -⟩ := h.takes
  have hrules : ∀ r ∈ Mode.group.rules, r.effect = .emit .blank ∨
      (r.pattern ≠ .blanks ∧ r.pattern ≠ .spaces ∧ r.pattern.looksAhead = false) := by decide
  rcases hrules r hr with hblank | ⟨h₁, h₂, h₃⟩
  · rw [hblank] at hemit
    exact absurd (Effect.emit.inj hemit).symm hl
  · exact Pattern.head_not_blank h₁ h₂ h₃ (Rule.first?_eq_some htakes).2

theorem Fits.inv_blank (h : l.Fits t) (hl : l.cls = .blank) :
    (∀ c ∈ l.text, isBlank c = true) ∧ ∀ c ∈ t.head?, isBlank c = false := by
  cases h with
  | @closed r u cls hr hclosed hemit hu =>
    obtain rfl : cls = .blank := hl
    have hrules : ∀ r ∈ Mode.group.rules, r.pattern.isClosed = true → r.effect ≠ .emit .blank := by
      decide
    exact absurd hemit (hrules r hr hclosed)
  | blank _ hu ht => exact ⟨hu, ht⟩
  | comment _ _ | run _ _ _ _ | slash _ _ | tick _ => cases hl

theorem Fits.inv_string (h : l.Fits t) (hl : l.cls = .string) :
    Pattern.stringLength? l.text = some l.text.length := by
  cases h with
  | @closed r u cls hr hclosed hemit hu =>
    obtain rfl : cls = .string := hl
    have hrules : ∀ r ∈ Mode.group.rules, r.effect = .emit .string → r.pattern = .string := by
      decide
    rwa [hrules r hr hemit] at hu
  | comment _ _ | blank _ _ _ | run _ _ _ _ | slash _ _ | tick _ => cases hl

theorem Fits.string_of_quote (h : l.Fits t) (hl : l.text.head? = some '"') :
    l.cls = .string := by
  cases h with
  | @closed r u cls hr hclosed hemit hu =>
    have hrules : ∀ r ∈ Mode.group.rules, r.pattern.isClosed = true →
        r.pattern.opensWith '"' = true → r.effect = .emit .string := by decide
    obtain ⟨c, v, rfl, hc⟩ := Pattern.opensWith_of_length? hu
    obtain rfl : c = '"' := by simpa using hl
    exact Effect.emit.inj (hemit.symm.trans (hrules r hr hclosed hc))
  | comment _ _ | slash _ _ | tick _ => cases hl
  | blank _ hu _ =>
    have hquote := hu '"' (List.mem_of_head? hl)
    cases hquote
  | run _ hu _ _ =>
    have hquote := hu '"' (List.mem_of_head? hl)
    cases hquote

/-- What a string literal begins with is the literal. -/
theorem Fits.eq_string (h : l.Fits t) {b s : List Char} (hb : isQuotable b = true)
    (hs : l.text ++ s = quote b) : l = ⟨quote b, .string⟩ ∧ s = [] := by
  have hstring : l.cls = .string := h.string_of_quote <| by
    rw [← head?_append_of_ne_nil h.text_ne_nil (s := s), hs]
    rfl
  have hlength : Pattern.stringLength? (l.text ++ s) = some l.text.length :=
    (Pattern.length?_append_iff (p := .string) rfl (Nat.le_refl _)).mpr (h.inv_string hstring)
  obtain ⟨b', hb', hquotable⟩ := eq_quote_of_string hlength
  rw [hb', ← List.append_nil (quote b)] at hs
  obtain ⟨rfl, rfl⟩ := Pattern.quote_append_inj hquotable hb hs
  obtain ⟨u, cls⟩ := l
  cases hb'
  cases hstring
  exact ⟨rfl, rfl⟩

end Lexeme

theorem Pattern.atLineEnd_eq_none {s w : List Char} {n : Nat} {d : Char}
    (h : (s.drop n).dropWhile isSpace = d :: w) (hd : d ≠ '\n')
    (hslash : ∀ v, d :: w ≠ '/' :: '/' :: v) : Pattern.atLineEnd s n = none := by
  unfold Pattern.atLineEnd
  rw [h]
  split
  · rename_i heq
    cases heq
    exact absurd rfl hd
  · rename_i heq
    exact absurd heq (hslash _)
  · rfl

theorem isBlank_of_isSpace {c : Char} (h : Pattern.isSpace c = true) : isBlank c = true := by
  simp only [Pattern.isSpace, Bool.or_eq_true, decide_eq_true_eq] at h
  rcases h with rfl | rfl <;> decide

theorem isSpace_of_not_isBlank {c : Char} (h : isBlank c = false) : Pattern.isSpace c = false := by
  cases hs : Pattern.isSpace c with
  | false => rfl
  | true =>
    rw [isBlank_of_isSpace hs] at h
    cases h

theorem feed_of_not_isBlank {c : Char} (h : isBlank c = false) : c ≠ '\n' := by
  rintro rfl
  cases h

namespace Lexeme

variable {l : Lexeme} {ls : List Lexeme} {t : List Char}

/-- What starts neither with white space nor with a line comment does not end a line. -/
theorem exists_head (hfit : AllFit t ls) (ht : ∃ more, t = ',' :: more)
    (hls : ∀ l : Lexeme, l ∈ ls.head? → l.cls ≠ .blank ∧ l.isLineComment = false) :
    ∃ d w, textOf ls ++ t = d :: w ∧ isBlank d = false ∧ ∀ v, d :: w ≠ '/' :: '/' :: v := by
  cases ls with
  | nil =>
    obtain ⟨more, rfl⟩ := ht
    exact ⟨',', more, rfl, by decide, nofun⟩
  | cons l ls =>
    obtain ⟨hblank, hcomment⟩ := hls l rfl
    obtain ⟨d, w, hw, hd⟩ := hfit.1.head_not_blank hblank
    rw [← List.append_assoc, ← textOf_cons] at hw
    refine ⟨d, w, hw, hd, fun v hv => ?_⟩
    rw [← hw, textOf_cons, List.append_assoc] at hv
    rw [hfit.1.isLineComment_of_slashes hv] at hcomment
    cases hcomment

/-- A string literal in front of more text on its line is not taken for the end of a value. -/
theorem lastString_eq_none {u : List Char} (hfit : AllFit t ls)
    (hu : Pattern.stringLength? u = some u.length) (hls : goesOn ls)
    (ht : ∃ more, t = ',' :: more) : Pattern.lastString.length? (u ++ (textOf ls ++ t)) = none := by
  have hstring : Pattern.stringLength? (u ++ (textOf ls ++ t)) = some u.length :=
    (Pattern.length?_append_iff (p := .string) rfl (Nat.le_refl _)).mpr hu
  suffices h : ∃ d w, (textOf ls ++ t).dropWhile Pattern.isSpace = d :: w ∧ d ≠ '\n' ∧
      ∀ v, d :: w ≠ '/' :: '/' :: v by
    obtain ⟨d, w, hw, hd, hslash⟩ := h
    simp only [Pattern.length?, hstring, Option.bind_some]
    exact Pattern.atLineEnd_eq_none (by rw [List.drop_left, hw]) hd hslash
  have hplain : ∀ x d w, x = d :: w → isBlank d = false →
      x.dropWhile Pattern.isSpace = d :: w ∧ d ≠ '\n' := by
    rintro x d w rfl hd
    refine ⟨List.dropWhile_cons_of_neg ?_, feed_of_not_isBlank hd⟩
    rw [isSpace_of_not_isBlank hd]
    decide
  cases ls with
  | nil =>
    obtain ⟨d, w, hw, hd, hslash⟩ := exists_head hfit ht (by decide)
    obtain ⟨hdrop, hfeed⟩ := hplain _ d w hw hd
    exact ⟨d, w, hdrop, hfeed, hslash⟩
  | cons l ls =>
    obtain ⟨hcomment, hblank⟩ := hls
    by_cases hl : l.cls = .blank
    · obtain ⟨hfeed, hnext⟩ := hblank hl
      obtain ⟨hall, hhead⟩ := hfit.1.inv_blank hl
      have hnext' : ∀ k : Lexeme, k ∈ ls.head? → k.cls ≠ .blank ∧ k.isLineComment = false := by
        intro k hk
        refine ⟨fun hkb => ?_, hnext k hk⟩
        cases ls with
        | nil => cases hk
        | cons k' ls =>
          obtain rfl : k' = k := by simpa using hk
          obtain ⟨c, s, hc⟩ := List.exists_cons_of_ne_nil hfit.2.1.text_ne_nil
          have hcb := (hfit.2.1.inv_blank hkb).1 c (by simp [hc])
          rw [hhead c (by simp [textOf_cons, hc])] at hcb
          cases hcb
      rw [textOf_cons, List.append_assoc, List.dropWhile_append]
      cases hdrop : l.text.dropWhile Pattern.isSpace with
      | nil =>
        obtain ⟨d, w, hw, hd, hslash⟩ := exists_head hfit.2 ht hnext'
        obtain ⟨hdrop', hfeed'⟩ := hplain _ d w hw hd
        exact ⟨d, w, hdrop', hfeed', hslash⟩
      | cons d w =>
        have hmem : d ∈ l.text := by
          have hsuffix : d :: w <:+ l.text := hdrop ▸ List.dropWhile_suffix _
          exact hsuffix.subset List.mem_cons_self
        refine ⟨d, w ++ (textOf ls ++ t), rfl, ?_, fun v hv => ?_⟩
        · rintro rfl
          exact hfeed hmem
        · obtain rfl : d = '/' := (List.cons.inj hv).1
          exact absurd (hall '/' hmem) (by decide)
    · obtain ⟨d, w, hw, hd, hslash⟩ := exists_head hfit ht (by rintro k ⟨⟩; exact ⟨hl, hcomment⟩)
      obtain ⟨hdrop, hfeed⟩ := hplain _ d w hw hd
      exact ⟨d, w, hdrop, hfeed, hslash⟩

end Lexeme

/-- Outside of brackets, the value of an attribute holds no comma, and no string literal at the end
of a line. -/
def InValue (l : Lexeme) (ls : List Lexeme) : Prop :=
  l.text ≠ [','] ∧ (l.cls = .string → goesOn ls)

theorem readsEach_attribute (more : List Char) : ReadsEach .attribute InValue (',' :: more) := by
  intro l ls pos hvalue hstay hfit
  obtain ⟨r, hr⟩ := hfit.1.shared hstay hvalue.1
  refine hr.readsAs hfit.1 (b := [⟨.separator, .emit .separator, .pop⟩,
    ⟨.closerAhead, .skip, .pop⟩, ⟨.lastString, .emit .string, .pop⟩]) rfl ?_ pos
  obtain ⟨c, s, hl, hmark⟩ := hr.head
  simp only [List.mem_cons, List.not_mem_nil, or_false, not_or] at hmark
  intro q hq
  simp only [List.mem_cons, List.not_mem_nil, or_false] at hq
  rcases hq with rfl | rfl | rfl
  · rw [hl, List.cons_append]
    exact Pattern.length?_eq_none (by simp [Pattern.opensWith, hmark])
  · rw [hl, List.cons_append]
    exact Pattern.length?_eq_none (by simp [Pattern.opensWith, hmark])
  · by_cases hstring : l.cls = .string
    · exact lastString_eq_none hfit.2 (hfit.1.inv_string hstring) (hvalue.2 hstring) ⟨_, rfl⟩
    · rw [hl, List.cons_append]
      apply Pattern.length?_eq_none
      have hquote : c ≠ '"' := by
        rintro rfl
        exact hstring (hfit.1.string_of_quote (by rw [hl]; rfl))
      simp [Pattern.opensWith, hquote]

/-! ## Spread expressions -/

/-- Outside of brackets, a spread expression holds no comma and stays on its line. -/
def InSpread (l : Lexeme) (_ : List Lexeme) : Prop :=
  l.text ≠ [','] ∧ (l.cls = .blank → '\n' ∉ l.text)

/-- White space may be read in two parts. -/
theorem ReadsAs.join {pos : Nat} {a b l : Lexeme} {t : List Char}
    (h : ReadsAs .spread pos [a, b] t) (htext : a.text ++ b.text = l.text) (hl : l.cls = .blank) :
    ReadsAs .spread pos [l] t := by
  obtain ⟨items, hreads, hspelt⟩ := h
  have htexts : textOf [a, b] = textOf [l] := by simp [textOf, htext]
  rw [htexts] at hreads
  refine ⟨items, hreads, ⟨htexts ▸ hspelt.spelling, ?_, fun _ => hspelt.ne_nil (by rintro ⟨⟩), ?_⟩⟩
  · intro hlast
    have htrailing : l.isTrailing = true := by simp [isTrailing, hl]
    rw [hlast l rfl] at htrailing
    cases htrailing
  · exact fun hne => absurd rfl hne

theorem first?_spaces {u t : List Char} (hne : u ≠ []) (hu : ∀ c ∈ u, Pattern.isSpace c = true)
    (ht : ∀ c ∈ t.head?, Pattern.isSpace c = false) :
    Rule.first? Mode.spread.rules (u ++ t) = some (u.length, ⟨.spaces, .emit .blank, .stay⟩) := by
  have hspaces : Pattern.spaces.length? (u ++ t) = some u.length := by
    show Pattern.many Pattern.isSpace (u ++ t) = some u.length
    rw [Pattern.many_eq_some, takeWhile_append_stop hu ht]
    exact ⟨rfl, List.length_pos_iff.mpr hne⟩
  have hend : Pattern.spreadEnd.length? (u ++ t) = none := by
    cases u with
    | nil => exact absurd rfl hne
    | cons c u =>
      have hc := hu c List.mem_cons_self
      simp only [Pattern.isSpace, Bool.or_eq_true, decide_eq_true_eq] at hc
      rcases hc with rfl | rfl <;> rfl
  exact (Rule.first?_cons_none hend).trans (Rule.first?_cons_some hspaces)

/-- Where neither a mark nor a space is in front, a spread is read like other expressions. -/
theorem Lexeme.Shared.readsAs_spread {l : Lexeme} {t : List Char} {r : Rule} (h : l.Shared t r)
    (hne : l.text ≠ []) (hcls : l.cls ≠ .stray)
    (hhead : ∀ c ∈ l.text.head?, c ≠ '\n' ∧ Pattern.isSpace c = false) (pos : Nat) :
    ReadsAs .spread pos [l] t := by
  obtain ⟨c, s, hl, hmark⟩ := h.head
  obtain ⟨hfeed, hspace⟩ := hhead c (by rw [hl]; rfl)
  simp only [List.mem_cons, List.not_mem_nil, or_false, not_or] at hmark
  refine .token hne hcls ?_ h.effect h.move
  have hrules : Mode.spread.rules = [⟨.spreadEnd, .skip, .pop⟩, ⟨.spaces, .emit .blank, .stay⟩] ++
    Rule.expression := rfl
  rw [hrules, Rule.first?_append_of_none, h.first]
  intro q hq
  simp only [List.mem_cons, List.not_mem_nil, or_false] at hq
  rw [hl, List.cons_append]
  apply Pattern.length?_eq_none
  rcases hq with rfl | rfl
  · simp [Pattern.opensWith, hmark, hfeed]
  · exact hspace

/-- White space on one line is read, in one part or in two. -/
theorem readsAs_spread_blank {u t : List Char} (hne : u ≠ []) (hu : ∀ c ∈ u, isBlank c = true)
    (hfeed : '\n' ∉ u) (ht : ∀ c ∈ t.head?, isBlank c = false) (pos : Nat) :
    ReadsAs .spread pos [⟨u, .blank⟩] t := by
  have hother : ∀ w pos, w ≠ [] → (∀ c ∈ w, c ∈ u) → (∀ c ∈ w.head?, Pattern.isSpace c = false) →
      ReadsAs .spread pos [⟨w, .blank⟩] t := by
    intro w pos hw hsub hhead
    have hfits : Fits t ⟨w, .blank⟩ := .blank hw (fun c hc => hu c (hsub c hc)) ht
    obtain ⟨r, hr⟩ := hfits.shared rfl (by
      rintro hcomma
      have hmem : ',' ∈ w := by
        have hw' : w = [','] := hcomma
        rw [hw']
        exact List.mem_cons_self
      exact absurd (hu ',' (hsub ',' hmem)) (by decide))
    refine hr.readsAs_spread hw nofun (fun c hc => ⟨?_, hhead c hc⟩) pos
    rintro rfl
    exact hfeed (hsub _ (List.mem_of_head? hc))
  have hsplit : u.takeWhile Pattern.isSpace ++ u.dropWhile Pattern.isSpace = u :=
    List.takeWhile_append_dropWhile
  have hdrop : ∀ c ∈ u.dropWhile Pattern.isSpace, c ∈ u :=
    fun c hc => (List.dropWhile_suffix _).subset hc
  have hspace : ∀ c ∈ t.head?, Pattern.isSpace c = false :=
    fun c hc => isSpace_of_not_isBlank (ht c hc)
  by_cases hs : u.takeWhile Pattern.isSpace = []
  · rw [hs, List.nil_append] at hsplit
    rw [← hsplit]
    exact hother _ pos (by rw [hsplit]; exact hne) hdrop head?_dropWhile_eq_false
  · by_cases hw : u.dropWhile Pattern.isSpace = []
    · rw [hw, List.append_nil] at hsplit
      refine .token hne nofun (first?_spaces hne ?_ hspace) rfl rfl
      rw [← hsplit]
      exact takeWhile_forall _ _
    · refine ReadsAs.join (a := ⟨u.takeWhile Pattern.isSpace, .blank⟩)
        (b := ⟨u.dropWhile Pattern.isSpace, .blank⟩) ?_ hsplit rfl
      rw [← List.singleton_append]
      refine ReadsAs.append
        (.token hs nofun (first?_spaces hs (takeWhile_forall _ _) ?_) rfl rfl)
        (hother _ _ hw hdrop head?_dropWhile_eq_false)
      intro c hc
      apply head?_dropWhile_eq_false c
      rw [head?_append_of_ne_nil (by simpa [textOf] using hw)] at hc
      simpa [textOf] using hc

theorem readsEach_spread (more : List Char) : ReadsEach .spread InSpread ('\n' :: more) := by
  intro l ls pos hspread hstay hfit
  by_cases hblank : l.cls = .blank
  · obtain ⟨u, cls⟩ := l
    obtain rfl : cls = .blank := hblank
    obtain ⟨hall, hnext⟩ := hfit.1.inv_blank rfl
    exact readsAs_spread_blank hfit.1.text_ne_nil hall (hspread.2 rfl) hnext pos
  · obtain ⟨r, hr⟩ := hfit.1.shared hstay hspread.1
    obtain ⟨d, w, hd, hdb⟩ := hfit.1.head_not_blank hblank
    refine hr.readsAs_spread hfit.1.text_ne_nil hfit.1.cls_ne_stray (fun c hc => ?_) pos
    obtain ⟨s, hs⟩ := List.head?_eq_some_iff.mp hc
    rw [hs] at hd
    obtain rfl : c = d := (List.cons.inj hd).1
    exact ⟨feed_of_not_isBlank hdb, isSpace_of_not_isBlank hdb⟩

end BlockMarkup
