import BlockMarkup.Proofs.Token.Scan
import BlockMarkup.Proofs.Token.Opener

/-!
# BlockMarkup.Proofs.Token.First

The first match of a body at the front of a text: white space, names, string literals and marks are
found by the rule that is meant for them, whatever comes behind.
-/

namespace BlockMarkup

open Text

namespace Rule

theorem first?_cons_none {r : Rule} {rs : List Rule} {s : List Char}
    (h : r.pattern.length? s = none) : first? (r :: rs) s = first? rs s := by
  simp [first?, h]

theorem first?_cons_some {r : Rule} {rs : List Rule} {s : List Char} {n : Nat}
    (h : r.pattern.length? s = some n) : first? (r :: rs) s = some (n, r) := by
  simp [first?, h]

/-- Only the rules that can start with the first character matter. -/
theorem first?_eq_filter (rules : List Rule) (c : Char) (s : List Char) :
    first? rules (c :: s) = first? (rules.filter fun r => r.pattern.opensWith c) (c :: s) := by
  induction rules with
  | nil => rfl
  | cons r rs ih =>
    cases hc : r.pattern.opensWith c with
    | true =>
      rw [List.filter_cons_of_pos (p := fun (r : Rule) => r.pattern.opensWith c) hc]
      cases hn : r.pattern.length? (c :: s) with
      | none => rw [first?_cons_none hn, first?_cons_none hn, ih]
      | some n => rw [first?_cons_some hn, first?_cons_some hn]
    | false =>
      rw [List.filter_cons_of_neg (p := fun (r : Rule) => r.pattern.opensWith c)
          (by rw [hc]; exact nofun),
        first?_cons_none (Pattern.length?_eq_none hc), ih]

end Rule

namespace Pattern

/-! ## Patterns that do not match -/

/-- The word characters that a path starts with are all of it, or are followed by two colons. -/
theorem isPathTail_split (s : List Char) : isPathTail s = true → ∃ q r, s = q ++ r ∧
    (∀ c ∈ q, isWord c = true) ∧ (r = [] ∨ ∃ u, r = ':' :: ':' :: u) := by
  fun_induction isPathTail s with
  | case1 => exact fun _ => ⟨[], [], rfl, List.forall_mem_nil _, .inl rfl⟩
  | case2 c s _ => exact fun _ => ⟨[], _, rfl, List.forall_mem_nil _, .inr ⟨_, rfl⟩⟩
  | case3 c s _ ih =>
    intro h
    rw [Bool.and_eq_true] at h
    obtain ⟨q, r, rfl, hq, hr⟩ := ih h.2
    exact ⟨c :: q, r, rfl, List.forall_mem_cons.mpr ⟨h.1, hq⟩, hr⟩

theorem isPath_split {p : List Char} (h : isPath p = true) : ∃ q r, p = q ++ r ∧
    (∀ c ∈ q, isWord c = true) ∧ (r = [] ∨ ∃ u, r = ':' :: ':' :: u) := by
  cases p with
  | nil => cases h
  | cons c s =>
    rw [isPath, Bool.and_eq_true] at h
    obtain ⟨q, r, rfl, hq, hr⟩ := isPathTail_split s h.2
    rw [startsName, Bool.and_eq_true] at h
    exact ⟨c :: q, r, rfl, List.forall_mem_cons.mpr ⟨h.1.1, hq⟩, hr⟩

/-- Two texts that start with characters of a sort and go on with others are cut at one place. -/
theorem append_inj_of_takeWhile {q : Char → Bool} {a b s t : List Char} (h : a ++ s = b ++ t)
    (ha : ∀ c ∈ a, q c = true) (hb : ∀ c ∈ b, q c = true) (hs : ∀ c ∈ s.head?, q c = false)
    (ht : ∀ c ∈ t.head?, q c = false) : a = b ∧ s = t := by
  have hab : a = b := by
    rw [← takeWhile_append_stop ha hs, h, takeWhile_append_stop hb ht]
  subst hab
  exact ⟨rfl, List.append_cancel_left h⟩

theorem name_none_of_path {p w t : List Char} (hp : isPath p = true)
    (hw : ∀ c ∈ w, isBlank c = true) : Pattern.name.length? (p ++ (w ++ '\x7b' :: t)) = none := by
  cases hn : Pattern.name.length? (p ++ (w ++ '\x7b' :: t)) with
  | none => rfl
  | some n =>
    exfalso
    obtain ⟨p', w', t', hs, hp', hw', ht', -⟩ := length?_name_iff.mp hn
    obtain ⟨q, r, rfl, hq, hr⟩ := isPath_split hp
    have hword' : ∀ c ∈ p', isWord c = true := by
      cases p' with
      | nil => cases hp'
      | cons c s =>
        simp only [isName, startsName, Bool.and_eq_true, List.all_eq_true] at hp'
        exact List.forall_mem_cons.mpr ⟨hp'.1.1, hp'.2⟩
    rw [List.append_assoc] at hs
    have hhead' := isWord_head_of_mark (t := t') hw' isWord_colon
    rcases hr with rfl | ⟨u, rfl⟩
    · rw [List.nil_append] at hs
      obtain ⟨-, hrest⟩ := append_inj_of_takeWhile hs hq hword'
        (isWord_head_of_mark hw (by decide)) hhead'
      have hbrace : ∀ c ∈ ('\x7b' :: t).head?, isBlank c = false := by
        rintro c ⟨⟩
        decide
      have hcolon : ∀ c ∈ (':' :: t').head?, isBlank c = false := by
        rintro c ⟨⟩
        exact isBlank_colon
      obtain ⟨-, hmark⟩ := append_inj_of_takeWhile hrest hw hw' hbrace hcolon
      cases hmark
    · obtain ⟨-, hrest⟩ := append_inj_of_takeWhile hs hq hword'
        (by rintro c ⟨⟩; exact isWord_colon) hhead'
      cases w' with
      | nil =>
        rw [List.nil_append, List.cons_append, List.cons_append] at hrest
        cases hrest
        exact ht' ':' rfl rfl
      | cons c w' =>
        rw [List.cons_append, List.cons_append] at hrest
        obtain ⟨hc, -⟩ := List.cons.inj hrest
        have hb := hw' c List.mem_cons_self
        rw [← hc, isBlank_colon] at hb
        cases hb

theorem tag_none_of_path {p w t : List Char} (hp : isPath p = true) (htag : isTag p = false)
    (hw : ∀ c ∈ w, isBlank c = true) : Pattern.tag.length? (p ++ (w ++ '\x7b' :: t)) = none := by
  cases hn : Pattern.tag.length? (p ++ (w ++ '\x7b' :: t)) with
  | none => rfl
  | some n =>
    exfalso
    obtain ⟨p', w', t', hs, hp', hw', -⟩ := length?_tag_iff.mp hn
    -- Both names go up to the first white space or brace.
    have hstop : ∀ w t : List Char, (∀ c ∈ w, isBlank c = true) →
        ∀ c ∈ (w ++ '\x7b' :: t).head?, (!isBlank c && c != '\x7b') = false := by
      intro w t hw c hc
      cases w with
      | nil => cases hc; rfl
      | cons d w => cases hc; simp [hw c List.mem_cons_self]
    have hgo : ∀ p : List Char, isPath p = true → ∀ c ∈ p, (!isBlank c && c != '\x7b') = true := by
      intro p hp c hc
      have hbrace : c ≠ '\x7b' := by
        rintro rfl
        exact brace_not_mem_of_isPath hp hc
      simp [not_blank_of_isPath hp c hc, hbrace]
    obtain ⟨rfl, -⟩ := append_inj_of_takeWhile hs (hgo p hp) (hgo p' (isPath_of_isTag hp'))
      (hstop w t hw) (hstop w' t' hw')
    rw [htag] at hp'
    cases hp'

/-- A string literal goes up to its first closing quote mark. -/
theorem quote_append_inj {b b' s t : List Char} (hb : isQuotable b = true)
    (hb' : isQuotable b' = true)
    (h : BlockMarkup.quote b ++ s = BlockMarkup.quote b' ++ t) : b = b' ∧ s = t := by
  have hsplit : b ++ '"' :: s = b' ++ '"' :: t := by simpa [BlockMarkup.quote] using h
  have hlen : b.length = b'.length := by
    have h := stringTail_append (s := s) b hb
    rw [hsplit, stringTail_append b' hb'] at h
    have := Option.some.inj h
    omega
  obtain ⟨rfl, hrest⟩ := List.append_inj hsplit hlen
  exact ⟨rfl, (List.cons.inj hrest).2⟩

/-- A string literal that no colon follows is no quoted name. -/
theorem quotedName_none {b rest : List Char} (hb : isQuotable b = true)
    (hrest : ∀ c ∈ (stripStart rest).head?, c ≠ ':') :
    Pattern.quotedName.length? (BlockMarkup.quote b ++ rest) = none := by
  cases hn : Pattern.quotedName.length? (BlockMarkup.quote b ++ rest) with
  | none => rfl
  | some n =>
    exfalso
    obtain ⟨b', w', t', hs, hb', hw', -, -⟩ := length?_quotedName_iff.mp hn
    obtain ⟨-, rfl⟩ := quote_append_inj (t := w' ++ ':' :: t') hb hb'
      (hs.trans (by simp [BlockMarkup.quote]))
    refine hrest ':' ?_ rfl
    rw [stripStart_append hw', stripStart_of_head (by rintro c ⟨⟩; exact isBlank_colon)]
    rfl

end Pattern

/-! ## The rules of bodies -/

namespace Mode

variable {m : Mode}

theorem isBody_iff : m.isBody = true ↔ m = .root ∨ m = .element ∨ m = .component := by
  cases m <;> decide

theorem first?_blanks (hm : m.isBody = true) {w t : List Char} (hw : ∀ c ∈ w, isBlank c = true)
    (hne : w ≠ []) (ht : ∀ c ∈ t.head?, isBlank c = false) :
    Rule.first? m.rules (w ++ t) = some (w.length, ⟨.blanks, .skip, .stay⟩) := by
  cases w with
  | nil => exact absurd rfl hne
  | cons d w =>
    have hnone : ∀ p : Pattern, p ≠ .blanks → p ≠ .spaces → p.looksAhead = false →
        p.length? (d :: (w ++ t)) = none := by
      intro p h1 h2 h3
      cases hn : p.length? (d :: (w ++ t)) with
      | none => rfl
      | some n =>
        obtain ⟨c, u, hs, hb⟩ := Pattern.head_not_blank h1 h2 h3 hn
        cases hs
        exact absurd ((hw d List.mem_cons_self).symm.trans hb) nofun
    have hblanks : Pattern.blanks.length? (d :: (w ++ t)) = some (w.length + 1) := by
      show Pattern.many isBlank (d :: w ++ t) = some (d :: w).length
      rw [Pattern.many_eq_some, takeWhile_append_stop hw ht]
      exact ⟨rfl, Nat.succ_pos _⟩
    have hcloser := hnone .closer nofun nofun rfl
    have hname := hnone .name nofun nofun rfl
    have hquoted := hnone .quotedName nofun nofun rfl
    have hdots := hnone .dots nofun nofun rfl
    rcases isBody_iff.mp hm with rfl | rfl | rfl <;>
      simp [rules, Rule.body, Rule.trivia, Rule.first?, hcloser, hname,
          hquoted, hdots, hblanks]

/-- The patterns that do not match where a name starts. -/
theorem none_of_startsName {c : Char} {s : List Char} (hc : startsName c = true) {p : Pattern}
    (hp : p ∈ [.closer, .quotedName, .dots, .blanks, .lineComment, .blockComment, .separator,
      .decorator, .string, .opener]) : p.length? (c :: s) = none := by
  apply Pattern.length?_eq_none
  have hne : ∀ d, startsName d = false → c ≠ d := by
    rintro d hd rfl
    rw [hc] at hd
    cases hd
  have hb := isBlank_eq_false_of_startsName hc
  have h1 := hne '\x7d' (by decide)
  have h2 := hne '"' (by decide)
  have h3 := hne '.' (by decide)
  have h4 := hne '/' (by decide)
  have h5 := hne ',' (by decide)
  have h6 := hne '#' (by decide)
  have h7 := hne '\x7b' (by decide)
  simp only [List.mem_cons, List.not_mem_nil, or_false] at hp
  rcases hp with rfl | rfl | rfl | rfl | rfl | rfl | rfl | rfl | rfl | rfl <;>
    simp [Pattern.opensWith, *]

theorem head_of_isPath {p s : List Char} (h : isPath p = true) :
    ∃ c t, p ++ s = c :: t ∧ startsName c = true := by
  cases p with
  | nil => cases h
  | cons c p =>
    rw [isPath, Bool.and_eq_true] at h
    exact ⟨c, p ++ s, rfl, h.1⟩

theorem first?_tag (hm : m.isBody = true) {p w t : List Char} (hp : isTag p = true)
    (hw : ∀ c ∈ w, isBlank c = true) : Rule.first? m.rules (p ++ (w ++ '\x7b' :: t)) =
      some (p.length + w.length + 1, ⟨.tag, .emit .tag, .push .element⟩) := by
  have htag := Pattern.length?_tag_iff.mpr ⟨p, w, t, rfl, hp, hw, rfl⟩
  have hname := Pattern.name_none_of_path (t := t) (isPath_of_isTag hp) hw
  obtain ⟨c, u, hs, hc⟩ := head_of_isPath (s := w ++ '\x7b' :: t) (isPath_of_isTag hp)
  rw [hs] at htag hname ⊢
  have hnone := fun p => none_of_startsName (s := u) hc (p := p)
  rcases isBody_iff.mp hm with rfl | rfl | rfl <;>
    simp [rules, Rule.body, Rule.trivia, Rule.first?, hnone, htag, hname]

theorem first?_path (hm : m.isBody = true) {p w t : List Char} (hp : isPath p = true)
    (htag : isTag p = false) (hw : ∀ c ∈ w, isBlank c = true) :
    Rule.first? m.rules (p ++ (w ++ '\x7b' :: t)) =
      some (p.length + w.length + 1, ⟨.path, .emit .path, .push .component⟩) := by
  have hpath := Pattern.length?_path_iff.mpr ⟨p, w, t, rfl, hp, hw, rfl⟩
  have htag := Pattern.tag_none_of_path (t := t) hp htag hw
  have hname := Pattern.name_none_of_path (t := t) hp hw
  obtain ⟨c, u, hs, hc⟩ := head_of_isPath (s := w ++ '\x7b' :: t) hp
  rw [hs] at hpath htag hname ⊢
  have hnone := fun p => none_of_startsName (s := u) hc (p := p)
  rcases isBody_iff.mp hm with rfl | rfl | rfl <;>
    simp [rules, Rule.body, Rule.trivia, Rule.first?, hnone, htag, hname, hpath]

theorem first?_name (hm : m = .element ∨ m = .component) {p w t : List Char} (hp : isName p = true)
    (hw : ∀ c ∈ w, isBlank c = true) (ht : ∀ c ∈ t.head?, c ≠ ':') :
    Rule.first? m.rules (p ++ (w ++ ':' :: t)) =
      some (p.length + w.length + 1, ⟨.name, .emit .name, .push .attribute⟩) := by
  have hname := Pattern.length?_name_iff.mpr ⟨p, w, t, rfl, hp, hw, ht, rfl⟩
  cases p with
  | nil => cases hp
  | cons c p =>
    rw [isName, Bool.and_eq_true] at hp
    have hnone := fun q => none_of_startsName (s := p ++ (w ++ ':' :: t)) hp.1 (p := q)
    simp only [List.cons_append] at hname ⊢
    rcases hm with rfl | rfl <;> simp [rules, Rule.first?, hnone, hname]

theorem first?_quotedName {b w t : List Char} (hb : isQuotable b = true)
    (hw : ∀ c ∈ w, isBlank c = true) (ht : ∀ c ∈ t.head?, c ≠ ':') :
    Rule.first? Mode.element.rules (quote b ++ (w ++ ':' :: t)) =
      some (b.length + w.length + 3, ⟨.quotedName, .emit .name, .push .attribute⟩) := by
  have hs : quote b ++ (w ++ ':' :: t) = '"' :: (b ++ '"' :: (w ++ ':' :: t)) := by simp [quote]
  rw [hs, Rule.first?_eq_filter]
  exact Rule.first?_cons_some (Pattern.length?_quotedName_iff.mpr ⟨b, w, t, rfl, hb, hw, ht, rfl⟩)

theorem first?_dots (t : List Char) : Rule.first? Mode.component.rules ('.' :: '.' :: t) =
    some (2, ⟨.dots, .emit .operator, .push .spread⟩) := by
  rw [Rule.first?_eq_filter]
  rfl

theorem first?_closer (hm : m = .element ∨ m = .component) (t : List Char) :
    Rule.first? m.rules ('\x7d' :: t) = some (1, ⟨.closer, .emit .bracket, .pop⟩) := by
  rw [Rule.first?_eq_filter]
  rcases hm with rfl | rfl <;> rfl

theorem first?_decorator (hm : m.isBody = true) {o : List Char}
    (ho : o = ['#', '['] ∨ o = ['#', '!', '[']) (t : List Char) :
    Rule.first? m.rules (o ++ t) = some (o.length, ⟨.decorator, .emit .decorator, .push .decoration⟩) := by
  rcases ho with rfl | rfl <;> rw [List.cons_append, Rule.first?_eq_filter] <;>
    rcases isBody_iff.mp hm with rfl | rfl | rfl <;> rfl

/-- Only in an element, a string literal can be a name. -/
theorem first?_string (hm : m.isBody = true) {b rest : List Char} (hb : isQuotable b = true)
    (hquoted : m = .element → Pattern.quotedName.length? (quote b ++ rest) = none) :
    Rule.first? m.rules (quote b ++ rest) =
      some (b.length + 2, ⟨.string, .emit .string, .stay⟩) := by
  have hs : quote b ++ rest = '"' :: (b ++ '"' :: rest) := by simp [quote]
  have hstring : Pattern.stringLength? (quote b ++ rest) = some (b.length + 2) :=
    Pattern.stringLength?_iff.mpr ⟨b, rest, hs, hb, rfl⟩
  rw [hs] at hstring hquoted ⊢
  rw [Rule.first?_eq_filter]
  rcases isBody_iff.mp hm with rfl | rfl | rfl
  · exact Rule.first?_cons_some hstring
  · exact (Rule.first?_cons_none (hquoted rfl)).trans (Rule.first?_cons_some hstring)
  · exact Rule.first?_cons_some hstring

theorem first?_lineComment (hm : m.isBody = true) {v t : List Char} (hv : '\n' ∉ v)
    (ht : ∀ c ∈ t.head?, c = '\n') : Rule.first? m.rules ('/' :: '/' :: (v ++ t)) =
      some (v.length + 2, ⟨.lineComment, .skip, .stay⟩) := by
  have hcomment : Pattern.lineComment.length? ('/' :: '/' :: (v ++ t)) = some (v.length + 2) := by
    have htake : (v ++ t).takeWhile (· ≠ '\n') = v :=
      takeWhile_append_stop (fun c hc => by simpa using fun h : c = '\n' => hv (h ▸ hc))
        (fun c hc => by simpa using ht c hc)
    simp only [Pattern.length?, htake]
  rw [Rule.first?_eq_filter]
  rcases isBody_iff.mp hm with rfl | rfl | rfl <;> exact Rule.first?_cons_some hcomment

theorem first?_blockComment (hm : m.isBody = true) {s : List Char} {n : Nat}
    (h : throughPair '*' '/' s = some n) : Rule.first? m.rules ('/' :: '*' :: s) =
      some (n + 2, ⟨.blockComment, .skip, .stay⟩) := by
  have hcomment : Pattern.blockComment.length? ('/' :: '*' :: s) = some (n + 2) := by
    simp only [Pattern.length?, h, Option.map_some]
  rw [Rule.first?_eq_filter]
  rcases isBody_iff.mp hm with rfl | rfl | rfl <;>
    exact (Rule.first?_cons_none rfl).trans (Rule.first?_cons_some hcomment)

theorem first?_separator (hm : m.isBody = true) (t : List Char) :
    Rule.first? m.rules (',' :: t) = some (1, ⟨.separator, .emit .separator, .stay⟩) := by
  rw [Rule.first?_eq_filter]
  rcases isBody_iff.mp hm with rfl | rfl | rfl <;> rfl

theorem first?_opener (hm : m.isBody = true) (t : List Char) :
    Rule.first? m.rules ('\x7b' :: t) =
      some (1, ⟨.opener, .emit .bracket, .push .rawExpression⟩) := by
  rw [Rule.first?_eq_filter]
  rcases isBody_iff.mp hm with rfl | rfl | rfl <;> rfl

end Mode
end BlockMarkup
