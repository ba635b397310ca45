import BlockMarkup.Proofs.Expression.Closed

/-!
# BlockMarkup.Proofs.Expression.Lexeme

The tokens of an expression, apart from their places. `Lexeme.Fits t l` says that the lexeme `l` may
stand in front of the text `t`: it is what the lexer finds there, and so it is with any text behind
`t`. The conditions on `t` look at its first characters only.
-/

namespace BlockMarkup

open Text

/-- A token apart from its place. -/
structure Lexeme where
  text : List Char
  cls : TokenClass
deriving DecidableEq, Repr

/-- An opening mark without its closing mark: text further on could supply that, and then it would
open a comment or a raw string. -/
def isLoose (mark t : List Char) : Bool :=
  (mark = ['/'] && t.head? = some '*') ||
    ((mark = ['r'] || mark = ['r', '#']) && t.head? = some '"')

namespace Lexeme

/-- What the lexeme does to the nesting of groups. -/
def move (l : Lexeme) : Move :=
  match l.cls, l.text with
  | .bracket, ['('] | .bracket, ['['] | .bracket, ['\x7b'] => .push .group
  | .bracket, _ => .pop
  | _, _ => .stay

/-- The lexeme may stand in front of the text `t`. -/
inductive Fits (t : List Char) : Lexeme → Prop where
  | closed {r : Rule} {u : List Char} {cls : TokenClass} : r ∈ Mode.group.rules →
      r.pattern.isClosed = true → r.effect = .emit cls → r.pattern.length? u = some u.length →
      Fits t ⟨u, cls⟩
  | comment {v : List Char} : '\n' ∉ v → (∀ c ∈ t.head?, c = '\n') →
      Fits t ⟨'/' :: '/' :: v, .comment⟩
  | blank {u : List Char} : u ≠ [] → (∀ c ∈ u, isBlank c = true) →
      (∀ c ∈ t.head?, isBlank c = false) → Fits t ⟨u, .blank⟩
  | run {u : List Char} : u ≠ [] → (∀ c ∈ u, Pattern.endsRun c = false) →
      (∀ c ∈ t.head?, Pattern.endsRun c = true) → isLoose u t = false → Fits t ⟨u, .text⟩
  | slash : t.head? ≠ some '/' → isLoose ['/'] t = false → Fits t ⟨['/'], .text⟩
  | tick : Pattern.charTail t = none → Fits t ⟨['\''], .text⟩

end Lexeme

/-- The rule takes `u` at the front of `u ++ t` in a group. -/
def Rule.Takes (r : Rule) (u t : List Char) : Prop :=
  Rule.first? Mode.group.rules (u ++ t) = some (u.length, r)

namespace Rule

theorem takes_of_filter {r : Rule} {c : Char} {u t : List Char}
    (h : first? (Mode.group.rules.filter fun q => q.pattern.opensWith c) (c :: (u ++ t)) =
      some ((c :: u).length, r)) : r.Takes (c :: u) t := by
  rw [Takes, List.cons_append, first?_eq_filter]
  exact h

/-- A rule that finds its end takes its match, whatever comes behind. -/
theorem takes_of_closed {r : Rule} (hr : r ∈ Mode.group.rules) (hclosed : r.pattern.isClosed = true)
    {u : List Char} (hu : r.pattern.length? u = some u.length) (t : List Char) : r.Takes u t := by
  have hmatch := (Pattern.length?_append_iff (t := t) hclosed (Nat.le_refl _)).mpr hu
  obtain ⟨c, v, rfl, hc⟩ := Pattern.opensWith_of_length? hu
  obtain ⟨w, hw⟩ := Pattern.lead_isPrefix hu
  apply takes_of_filter
  rw [List.cons_append] at hmatch
  simp only [Mode.rules, expression, List.cons_append, List.nil_append, List.mem_cons,
    List.not_mem_nil, or_false] at hr
  rcases hr with rfl | rfl | rfl | rfl | rfl | rfl | rfl | rfl | rfl | rfl | rfl | rfl <;>
    simp only [Pattern.isClosed, Bool.false_eq_true] at hclosed <;>
    simp only [Pattern.opensWith, Bool.or_eq_true, decide_eq_true_eq] at hc
  · rcases hc with (rfl | rfl) | rfl <;> exact first?_cons_some hmatch
  · subst hc
    exact first?_cons_some hmatch
  · subst hc
    exact first?_cons_some hmatch
  · cases hw
    exact (first?_cons_none rfl).trans (first?_cons_some hmatch)
  · subst hc
    exact first?_cons_some hmatch
  · subst hc
    exact first?_cons_some hmatch
  · cases hw
    exact (first?_cons_none rfl).trans (first?_cons_some hmatch)
  · rcases hc with (rfl | rfl) | rfl <;> exact first?_cons_some hmatch

/-- A rule takes its match where no rule in front of it has one. -/
theorem takes_of_before {r : Rule} {u t : List Char} (before after : List Rule)
    (hrules : Mode.group.rules = before ++ r :: after)
    (hbefore : ∀ q ∈ before, q.pattern.length? (u ++ t) = none)
    (h : r.pattern.length? (u ++ t) = some u.length) : r.Takes u t := by
  rw [Takes, hrules]
  clear hrules
  induction before with
  | nil => exact first?_cons_some h
  | cons q qs ih =>
    rw [List.cons_append, first?_cons_none (hbefore q List.mem_cons_self)]
    exact ih fun p hp => hbefore p (List.mem_cons_of_mem _ hp)

end Rule

namespace Lexeme

variable {l : Lexeme} {t : List Char}

theorem Fits.text_ne_nil (h : l.Fits t) : l.text ≠ [] := by
  cases h with
  | closed _ _ _ hu =>
    obtain ⟨c, v, hv, -⟩ := Pattern.opensWith_of_length? hu
    rw [hv]
    exact nofun
  | blank hne _ _ | run hne _ _ _ => exact hne
  | comment _ _ | slash _ _ | tick _ => exact nofun

/-- What is in front of a quote mark is the whole run, and loose. -/
theorem isLoose_of_quote {u p s : List Char} (h : p ++ '"' :: s = u ++ t)
    (hp : p = ['r'] ∨ p = ['r', '#']) (hu : ∀ c ∈ u, Pattern.endsRun c = false)
    (ht : ∀ c ∈ t.head?, Pattern.endsRun c = true) : isLoose u t = true := by
  have hp' : ∀ c ∈ p, (!Pattern.endsRun c) = true := by
    rcases hp with rfl | rfl
    · exact List.forall_mem_singleton.mpr rfl
    · exact List.forall_mem_cons.mpr ⟨rfl, List.forall_mem_singleton.mpr rfl⟩
  obtain ⟨rfl, rfl⟩ := Pattern.append_inj_of_takeWhile (q := fun c => !Pattern.endsRun c) h hp'
    (by simpa using hu) (by rintro c ⟨⟩; decide) (by simpa using ht)
  rcases hp with rfl | rfl <;> rfl

/-- A run ends where anything else starts, but for a raw string. -/
theorem endsRun_of_opensWith {q : Rule} (hq : q ∈ Mode.group.rules.take 11)
    (hhash : q.pattern ≠ .hashString) (hraw : q.pattern ≠ .rawString) {c : Char}
    (hc : q.pattern.opensWith c = true) : Pattern.endsRun c = true := by
  simp only [Mode.rules, Rule.expression, List.cons_append, List.nil_append, List.take,
    List.mem_cons, List.not_mem_nil, or_false] at hq
  rcases hq with rfl | rfl | rfl | rfl | rfl | rfl | rfl | rfl | rfl | rfl | rfl <;>
    simp only [Pattern.opensWith, Bool.or_eq_true, decide_eq_true_eq] at hc
  case inl => rcases hc with (rfl | rfl) | rfl <;> decide
  case inr.inr.inl => exact absurd rfl hhash
  case inr.inr.inr.inl => exact absurd rfl hraw
  case inr.inr.inr.inr.inr.inr.inr.inr.inr.inl => rcases hc with (rfl | rfl) | rfl <;> decide
  case inr.inr.inr.inr.inr.inr.inr.inr.inr.inr => rw [Pattern.endsRun, hc, Bool.true_or]
  all_goals
    subst hc
    decide

theorem move_of_closed {r : Rule} {u : List Char} {cls : TokenClass} (hr : r ∈ Mode.group.rules)
    (hemit : r.effect = .emit cls) (hu : r.pattern.length? u = some u.length) :
    r.move = move ⟨u, cls⟩ := by
  simp only [Mode.rules, Rule.expression, List.cons_append, List.nil_append, List.mem_cons,
    List.not_mem_nil, or_false] at hr
  rcases hr with rfl | rfl | rfl | rfl | rfl | rfl | rfl | rfl | rfl | rfl | rfl | rfl <;>
    cases hemit
  case inl =>
    obtain ⟨hn, c, s, rfl, hc⟩ := Pattern.one_eq_some hu
    obtain rfl : s = [] := by simpa using hn
    simp only [Bool.or_eq_true, decide_eq_true_eq] at hc
    rcases hc with (rfl | rfl) | rfl <;> rfl
  case inr.inr.inr.inr.inr.inr.inr.inr.inr.inl =>
    obtain ⟨hn, c, s, rfl, hc⟩ := Pattern.one_eq_some hu
    obtain rfl : s = [] := by simpa using hn
    simp only [Bool.or_eq_true, decide_eq_true_eq] at hc
    rcases hc with (rfl | rfl) | rfl <;> rfl
  all_goals rfl

/-- A lexeme that fits is what the lexer finds. -/
theorem Fits.takes (h : l.Fits t) : ∃ r : Rule, r ∈ Mode.group.rules ∧ r.Takes l.text t ∧
    r.effect = .emit l.cls ∧ r.move = l.move := by
  cases h with
  | @closed r u cls hr hclosed hemit hu =>
    exact ⟨r, hr, Rule.takes_of_closed hr hclosed hu t, hemit, move_of_closed hr hemit hu⟩
  | @comment v hv ht =>
    refine ⟨⟨.lineComment, .emit .comment, .stay⟩, by decide, ?_, rfl, rfl⟩
    apply Rule.takes_of_filter
    have hlength : Pattern.lineComment.length? ('/' :: ('/' :: v ++ t)) = some (v.length + 2) := by
      have hstop : ∀ c ∈ t.head?, decide (c ≠ '\n') = false := by
        intro c hc
        simp [ht c hc]
      have hline : ∀ c ∈ v, decide (c ≠ '\n') = true := by
        intro c hc
        simp only [decide_eq_true_eq]
        rintro rfl
        exact hv hc
      simp only [Pattern.length?, List.cons_append, takeWhile_append_stop hline hstop]
    exact Rule.first?_cons_some hlength
  | @blank u hne hu ht =>
    refine ⟨⟨.blanks, .emit .blank, .stay⟩, by decide, ?_, rfl, rfl⟩
    refine Rule.takes_of_before (Mode.group.rules.take 10) (Mode.group.rules.drop 11) rfl ?_ ?_
    · intro q hq
      have hplain : ∀ q ∈ Mode.group.rules.take 10, q.pattern ≠ .blanks ∧ q.pattern ≠ .spaces ∧
          q.pattern.looksAhead = false := by decide
      obtain ⟨h₁, h₂, h₃⟩ := hplain q hq
      cases hn : q.pattern.length? (u ++ t) with
      | none => rfl
      | some n =>
        obtain ⟨c, s, hs, hc⟩ := Pattern.head_not_blank h₁ h₂ h₃ hn
        cases u with
        | nil => exact absurd rfl hne
        | cons d u =>
          cases hs
          rw [hu c List.mem_cons_self] at hc
          cases hc
    · show Pattern.many isBlank (u ++ t) = some u.length
      rw [Pattern.many_eq_some, takeWhile_append_stop hu ht]
      exact ⟨rfl, List.length_pos_iff.mpr hne⟩
  | @run u hne hu ht hloose =>
    refine ⟨⟨.run, .emit .text, .stay⟩, by decide, ?_, rfl, rfl⟩
    refine Rule.takes_of_before (Mode.group.rules.take 11) [] rfl ?_ ?_
    · intro q hq
      cases hn : q.pattern.length? (u ++ t) with
      | none => rfl
      | some n =>
        obtain ⟨c, s, hs, hc⟩ := Pattern.opensWith_of_length? hn
        obtain ⟨w, hw⟩ := Pattern.lead_isPrefix hn
        have hend : Pattern.endsRun c = false := by
          cases u with
          | nil => exact absurd rfl hne
          | cons d u =>
            cases hs
            exact hu c List.mem_cons_self
        by_cases hhash : q.pattern = .hashString
        · rw [hhash] at hw
          rw [isLoose_of_quote (p := ['r', '#']) hw (.inr rfl) hu ht] at hloose
          cases hloose
        · by_cases hraw : q.pattern = .rawString
          · rw [hraw] at hw
            rw [isLoose_of_quote (p := ['r']) hw (.inl rfl) hu ht] at hloose
            cases hloose
          · rw [endsRun_of_opensWith hq hhash hraw hc] at hend
            cases hend
    · have hmany : Pattern.many (fun c => !Pattern.endsRun c) (u ++ t) = some u.length := by
        rw [Pattern.many_eq_some, takeWhile_append_stop (by simpa using hu) (by simpa using ht)]
        exact ⟨rfl, List.length_pos_iff.mpr hne⟩
      simp only [Pattern.length?, hmany]
  | slash hslash hloose =>
    refine ⟨⟨.run, .emit .text, .stay⟩, by decide, ?_, rfl, rfl⟩
    apply Rule.takes_of_filter
    have hline : Pattern.lineComment.length? ('/' :: ([] ++ t)) = none := by
      cases t with
      | nil => rfl
      | cons c t =>
        have hc : c ≠ '/' := by simpa using hslash
        simp [Pattern.length?, hc]
    have hblock : Pattern.blockComment.length? ('/' :: ([] ++ t)) = none := by
      cases t with
      | nil => rfl
      | cons c t =>
        have hc : c ≠ '*' := by
          rintro rfl
          cases hloose
        simp [Pattern.length?, hc]
    exact (Rule.first?_cons_none hline).trans
      ((Rule.first?_cons_none hblock).trans (Rule.first?_cons_some rfl))
  | tick ht =>
    refine ⟨⟨.run, .emit .text, .stay⟩, by decide, ?_, rfl, rfl⟩
    apply Rule.takes_of_filter
    have hchar : Pattern.char.length? ('\'' :: ([] ++ t)) = none := by
      simp [Pattern.length?, ht]
    exact (Rule.first?_cons_none hchar).trans (Rule.first?_cons_some rfl)

theorem takeWhile_eq_of_length {p : Char → Bool} {u : List Char}
    (h : u.length = ((u ++ t).takeWhile p).length) :
    (∀ c ∈ u, p c = true) ∧ ∀ c ∈ t.head?, p c = false := by
  have hsplit : (u ++ t).takeWhile p ++ (u ++ t).dropWhile p = u ++ t :=
    List.takeWhile_append_dropWhile
  obtain ⟨hu, ht⟩ := List.append_inj hsplit h.symm
  refine ⟨fun c hc => ?_, fun c hc => ?_⟩
  · rw [← hu] at hc
    exact takeWhile_forall p _ c hc
  · rw [← ht] at hc
    exact head?_dropWhile_eq_false c hc

/-- What the lexer finds fits, if it is no stray mark and not loose. -/
theorem split_of_lineComment {u : List Char}
    (h : Pattern.lineComment.length? (u ++ t) = some u.length) :
    ∃ v, u = '/' :: '/' :: v ∧ '\n' ∉ v ∧ ∀ c ∈ t.head?, c = '\n' := by
  obtain ⟨s, hs⟩ := Pattern.lead_isPrefix h
  have hs' : '/' :: '/' :: s = u ++ t := hs
  rw [← hs'] at h
  have hlen : (s.takeWhile (· ≠ '\n')).length + 2 = u.length := by
    simpa only [Pattern.length?, Option.some.injEq] using h
  rcases u with _ | ⟨a, _ | ⟨b, v⟩⟩
  · cases hlen
  · cases hlen
  · cases hs'
    obtain ⟨hv, ht⟩ := takeWhile_eq_of_length (p := (· ≠ '\n')) (Nat.succ.inj (Nat.succ.inj hlen)).symm
    exact ⟨v, rfl, fun hn => by simpa using hv _ hn, fun c hc => by simpa using ht c hc⟩

theorem fits_of_takes {r : Rule} {u : List Char} {cls : TokenClass} (hne : u ≠ [])
    (h : r.Takes u t) (hemit : r.effect = .emit cls) (hcls : cls ≠ .stray)
    (hloose : isLoose u t = false) : Fits t ⟨u, cls⟩ := by
  obtain ⟨hr, hmatch⟩ := Rule.first?_eq_some h
  have hclosed : r.pattern.isClosed = true → Fits t ⟨u, cls⟩ := fun hclosed =>
    .closed hr hclosed hemit ((Pattern.length?_append_iff hclosed (Nat.le_refl _)).mp hmatch)
  simp only [Mode.rules, Rule.expression, List.cons_append, List.nil_append, List.mem_cons,
    List.not_mem_nil, or_false] at hr
  rcases hr with rfl | rfl | rfl | rfl | rfl | rfl | rfl | rfl | rfl | rfl | rfl | rfl
  case inr.inr.inr.inr.inr.inl =>
    cases hemit
    exact absurd rfl hcls
  case inr.inr.inr.inr.inr.inr.inr.inl =>
    cases hemit
    obtain ⟨v, rfl, hv, ht⟩ := split_of_lineComment hmatch
    exact .comment hv ht
  case inr.inr.inr.inr.inr.inr.inr.inr.inr.inr.inl =>
    cases hemit
    obtain ⟨hn, -⟩ := Pattern.many_eq_some.mp hmatch
    obtain ⟨hu, ht⟩ := takeWhile_eq_of_length hn
    exact .blank hne hu ht
  case inr.inr.inr.inr.inr.inr.inr.inr.inr.inr.inr =>
    cases hemit
    simp only [Pattern.length?] at hmatch
    split at hmatch
    · rename_i n hmany
      cases hmatch
      obtain ⟨hn, -⟩ := Pattern.many_eq_some.mp hmany
      obtain ⟨hu, ht⟩ := takeWhile_eq_of_length hn
      exact .run hne (by simpa using hu) (by simpa using ht) hloose
    · obtain ⟨hn, c, s, hs, hc⟩ := Pattern.one_eq_some hmatch
      obtain ⟨d, rfl⟩ := List.length_eq_one_iff.mp hn
      cases hs
      simp only [Bool.or_eq_true, decide_eq_true_eq] at hc
      rcases hc with rfl | rfl
      · refine .slash (fun ht => ?_) hloose
        cases t with
        | nil => cases ht
        | cons c t =>
          cases ht
          rw [Rule.Takes, List.singleton_append, Rule.first?_eq_filter] at h
          cases h.symm.trans (Rule.first?_cons_some rfl)
      · refine .tick ?_
        cases ht : Pattern.charTail t with
        | none => rfl
        | some k =>
          have hchar : Pattern.char.length? ('\'' :: t) = some (k + 1) := by
            simp [Pattern.length?, ht]
          rw [Rule.Takes, List.singleton_append, Rule.first?_eq_filter] at h
          cases h.symm.trans (Rule.first?_cons_some hchar)
  all_goals exact hclosed rfl

/-! ## Lexemes in a row -/

def textOf (ls : List Lexeme) : List Char := ls.flatMap text

theorem textOf_cons (l : Lexeme) (ls : List Lexeme) : textOf (l :: ls) = l.text ++ textOf ls := rfl

theorem textOf_append (ks ls : List Lexeme) : textOf (ks ++ ls) = textOf ks ++ textOf ls :=
  List.flatMap_append

/-- Each lexeme fits what comes behind it, up to the text `t` behind the last one. -/
def AllFit (t : List Char) : List Lexeme → Prop
  | [] => True
  | l :: ls => l.Fits (textOf ls ++ t) ∧ AllFit t ls

theorem allFit_append_iff {ks ls : List Lexeme} :
    AllFit t (ks ++ ls) ↔ AllFit (textOf ls ++ t) ks ∧ AllFit t ls := by
  induction ks with
  | nil => exact (true_and _).symm ▸ Iff.rfl
  | cons k ks ih =>
    rw [List.cons_append, AllFit, AllFit, ih, textOf_append, List.append_assoc, and_assoc]

/-- What stands right behind an expression in a written text: the end of the line, or a single mark
and the end of the line. -/
inductive EndsLine : List Char → Prop where
  | feed (more : List Char) : EndsLine ('\n' :: more)
  | comma (more : List Char) : EndsLine (',' :: '\n' :: more)
  | bracket (more : List Char) : EndsLine (']' :: '\n' :: more)

variable {s : List Char}

theorem EndsLine.throughOnLine_eq_none (h : EndsLine s) : throughOnLine '\'' s = none := by
  cases h <;> rfl

theorem throughOnLine_append_eq_none {c : Char} {u : List Char} (hs : throughOnLine c s = none)
    (hu : throughOnLine c u = none) : throughOnLine c (u ++ s) = none := by
  induction u with
  | nil => exact hs
  | cons d u ih =>
    rw [throughOnLine] at hu
    rw [List.cons_append, throughOnLine]
    split at hu
    · cases hu
    · rename_i hd
      rw [if_neg hd]
      split at hu
      · rename_i hn
        rw [if_pos hn]
      · rename_i hn
        rw [if_neg hn, ih (by simpa using hu), Option.map_none]

theorem EndsLine.charTail_eq_none (h : EndsLine s) : Pattern.charTail s = none := by
  cases h <;> simp [Pattern.charTail_cons]

/-- No character literal comes about by text behind the end of a line. -/
theorem EndsLine.charTail_append_eq_none (hs : EndsLine s) {u : List Char}
    (hu : Pattern.charTail u = none) : Pattern.charTail (u ++ s) = none := by
  cases u with
  | nil => exact hs.charTail_eq_none
  | cons c u =>
    rw [List.cons_append]
    by_cases hc : c = '\\'
    · subst hc
      rw [Pattern.charTail_escape] at hu ⊢
      rw [throughOnLine_append_eq_none hs.throughOnLine_eq_none (by simpa using hu),
        Option.map_none]
    · rw [Pattern.charTail_cons hc] at hu ⊢
      cases u with
      | nil => cases hs <;> rfl
      | cons d u => exact hu

theorem head?_append_of_ne_nil {u : List Char} (hu : u ≠ []) : (u ++ s).head? = u.head? := by
  cases u with
  | nil => exact absurd rfl hu
  | cons c u => rfl

/-- A lexeme that fits in front of some text fits as well where the end of a line comes behind. -/
theorem Fits.append (h : l.Fits t) (ht : t ≠ []) (hs : EndsLine s) : l.Fits (t ++ s) := by
  have hhead : (t ++ s).head? = t.head? := head?_append_of_ne_nil ht
  cases h with
  | closed hr hclosed hemit hu => exact .closed hr hclosed hemit hu
  | comment hv ht' => exact .comment hv (hhead ▸ ht')
  | blank hne hu ht' => exact .blank hne hu (hhead ▸ ht')
  | run hne hu ht' hloose =>
    exact .run hne hu (hhead ▸ ht') (by rw [isLoose, hhead]; exact hloose)
  | slash hslash hloose =>
    exact .slash (hhead ▸ hslash) (by rw [isLoose, hhead]; exact hloose)
  | tick ht' => exact .tick (hs.charTail_append_eq_none ht')

/-- White space and line comments, which go on behind the end of an expression. -/
def isTrailing (l : Lexeme) : Bool :=
  l.cls = .blank || (l.cls = .comment && ['/', '/'].isPrefixOf l.text)

/-- A lexeme that fits at the very end fits at the end of a line, unless it goes on. -/
theorem Fits.endsLine (h : l.Fits []) (hs : EndsLine s)
    (hl : l.isTrailing = false ∨ l.cls = .blank ∧ ∀ c ∈ s.head?, isBlank c = false) :
    l.Fits s := by
  cases h with
  | closed hr hclosed hemit hu => exact .closed hr hclosed hemit hu
  | comment hv _ => rcases hl with hl | ⟨hl, -⟩ <;> cases hl
  | blank hne hu _ =>
    rcases hl with hl | ⟨-, hl⟩
    · cases hl
    · exact .blank hne hu hl
  | run hne hu _ _ =>
    refine .run hne hu ?_ ?_
    · cases hs <;> (rintro c ⟨⟩; decide)
    · cases hs <;> simp [isLoose]
  | slash _ _ => cases hs <;> exact .slash nofun rfl
  | tick _ => exact .tick hs.charTail_eq_none

theorem AllFit.endsLine {ls : List Lexeme} (h : AllFit [] ls) (hs : EndsLine s)
    (hlast : ∀ l : Lexeme, l ∈ ls.getLast? →
      l.isTrailing = false ∨ l.cls = .blank ∧ ∀ c ∈ s.head?, isBlank c = false) :
    AllFit s ls := by
  induction ls with
  | nil => trivial
  | cons l ls ih =>
    obtain ⟨hl, hls⟩ := h
    rw [List.append_nil] at hl
    cases ls with
    | nil => exact ⟨hl.endsLine hs (hlast l rfl), trivial⟩
    | cons k ks =>
      refine ⟨hl.append ?_ hs, ih hls hlast⟩
      rw [textOf_cons]
      exact List.append_ne_nil_of_left_ne_nil hls.1.text_ne_nil _

end Lexeme
end BlockMarkup
