import BlockMarkup.Proofs.Document.DataModel
import BlockMarkup.Proofs.Document.Located
import BlockMarkup.Proofs.Expression.Stable

/-!
# BlockMarkup.Proofs.Layout.Filled

What a formatted text looks like, and where its blank lines come from. It is a row of blocks
(`blocks_of_format`): lines that open or close a body, and values with what leads to them. The
formatter writes no blank line itself, and an expression keeps those in its literals only
(`exists_solid_of_line_tidy`), so that every blank line of a formatted text is part of a literal or of
an annotation (`blank_line_of_format`).
-/

namespace BlockMarkup

open Text

/-! ## Literals and annotations -/

/-- The patterns of literals. -/
def literalPatterns : List Pattern := [.hashString, .rawString, .string, .char]

/-- A complete literal of an expression. -/
def IsLiteral (v : List Char) : Prop := ∃ p ∈ literalPatterns, p.length? v = some v.length

theorem isLiteral_quote {b : List Char} (hb : isQuotable b = true) : IsLiteral (quote b) := by
  have hlength : Pattern.stringLength? (quote b) = some (quote b).length :=
    Pattern.stringLength?_iff.mpr ⟨b, [], rfl, hb, by simp [quote]⟩
  exact ⟨.string, by decide, hlength⟩

theorem IsLiteral.trimmed {v : List Char} (h : IsLiteral v) : Trimmed v ∧ v ≠ [] := by
  obtain ⟨p, hp, hv⟩ := h
  have hclosed : ∀ p ∈ literalPatterns, p.isClosed = true := by decide
  obtain ⟨c, w, rfl, hc⟩ := Pattern.opensWith_of_length? hv
  refine ⟨⟨?_, Pattern.last_of_length? (hclosed p hp) hv⟩, List.cons_ne_nil c w⟩
  rintro _ ⟨⟩
  simp only [literalPatterns, List.mem_cons, List.not_mem_nil, or_false] at hp
  rcases hp with rfl | rfl | rfl | rfl <;>
    (obtain rfl := of_decide_eq_true hc; decide)

/-- An annotation, as the lexer finds it in some text. -/
def IsDecoration (v : List Char) : Prop :=
  ∃ o s c back sub, v = o ++ s ∧ (o = ['#', '['] ∨ o = ['#', '!', '[']) ∧
    Scans .decoration c sub back ∧ (Item.closedBy? [']'] sub).isSome = true ∧
    Item.spellingAll sub = .ok s

theorem IsDecoration.isAnnotation {v : List Char} (h : IsDecoration v) : IsAnnotation v := by
  obtain ⟨o, s, c, back, sub, rfl, ho, hscan, hclosed, hs⟩ := h
  exact isAnnotation_of_closedBy? hclosed hs ho

theorem IsDecoration.trimmed {v : List Char} (h : IsDecoration v) : Trimmed v ∧ v ≠ [] := by
  obtain ⟨hopen, hclose⟩ := h.isAnnotation
  have hhead : ∃ w, v = '#' :: w := by
    rcases hopen with ⟨w, rfl⟩ | ⟨w, rfl⟩ <;> exact ⟨_, rfl⟩
  obtain ⟨w, rfl⟩ := hhead
  refine ⟨⟨?_, ?_⟩, List.cons_ne_nil _ w⟩
  · rintro _ ⟨⟩
    decide
  · intro c hc
    rw [hclose] at hc
    cases hc
    decide

/-- The decorations of every document are annotations of its text. -/
def Heads.found : Heads := ⟨fun _ => True, fun _ => True, fun _ => True, IsDecoration⟩

theorem Heads.found_hold (text : List Char) : Heads.found.Hold (lex .root text) where
  value _ _ _ := trivial
  spread _ _ := trivial
  raw _ _ := trivial
  decoration hmem hclosed hs ho := by
    obtain ⟨stop, hscan, -⟩ := scans_lex isBottom_root text
    obtain ⟨c, back, -, hsub⟩ := (hscan.located (Cursor.in_start text)).2 _ hmem
    exact ⟨_, _, _, _, _, rfl, ho, hsub, hclosed, hs⟩

/-- The tokens of literals are literals. -/
theorem Cuts.isLiteral {pos : Nat} {s : List Char} {ts : List Token} (h : Cuts pos s ts) :
    ∀ t ∈ ts, t.cls.isLiteral = true → IsLiteral t.text := by
  have hpattern : ∀ r ∈ Mode.group.rules, ∀ cls, r.effect = .emit cls → cls.isLiteral = true →
      r.pattern ∈ literalPatterns ∧ r.pattern.isClosed = true := by
    intro r hr cls hemit
    simp only [Mode.rules, Rule.expression, List.cons_append, List.nil_append, List.mem_cons,
      List.not_mem_nil, or_false] at hr
    rcases hr with rfl | rfl | rfl | rfl | rfl | rfl | rfl | rfl | rfl | rfl | rfl | rfl <;>
      (cases hemit; decide)
  induction h with
  | nil => exact List.forall_mem_nil _
  | blank _ _ ih => exact ih
  | piece _ htakes hemit _ _ ih =>
    rw [List.forall_mem_cons]
    refine ⟨fun hliteral => ?_, ih⟩
    obtain ⟨hp, hclosed⟩ := hpattern _ htakes.mem _ hemit hliteral
    exact ⟨_, hp, (Pattern.length?_append_iff hclosed (Nat.le_refl _)).mp htakes.matched⟩

/-! ## Lines that are not blank -/

theorem ne_newline_of_isBlank {c : Char} (hc : isBlank c = false) : c ≠ '\n' := by
  rintro rfl
  exact absurd hc (by decide)

/-- What stands in front of a line feed at the end. -/
theorem split_of_append_newline {s a b : List Char} {c : Char} (hc : c ≠ '\n')
    (h : s ++ ['\n'] = a ++ c :: b) : ∃ b', s = a ++ c :: b' := by
  rcases List.eq_nil_or_concat b with rfl | ⟨b', d, rfl⟩
  · obtain ⟨-, he⟩ := List.append_inj' h rfl
    cases he
    exact absurd rfl hc
  · rw [List.concat_eq_append, ← List.cons_append, ← List.append_assoc] at h
    exact ⟨b', (List.append_inj' h rfl).1⟩

/-- Line `k` of the text holds something else than white space. -/
def SolidLine (s : List Char) (k : Nat) : Prop :=
  ∃ a c b, s = a ++ c :: b ∧ a.count '\n' = k ∧ isBlank c = false

/-- Line `k` of the text, with the line feeds around it, is part of a literal or an annotation. -/
def VerbatimLine (s : List Char) (k : Nat) : Prop :=
  ∃ p v q, s = p ++ (v ++ q) ∧ (IsLiteral v ∨ IsDecoration v) ∧ p.count '\n' < k ∧
    k < p.count '\n' + v.count '\n'

/-- No line of the text is blank, but in literals and annotations. What stands behind the last line
feed is no line. -/
def Filled (s : List Char) : Prop := ∀ k < s.count '\n', SolidLine s k ∨ VerbatimLine s k

section

variable {s t : List Char} {k : Nat}

theorem SolidLine.append_right (h : SolidLine s k) (t : List Char) : SolidLine (s ++ t) k := by
  obtain ⟨a, c, b, rfl, hk, hc⟩ := h
  exact ⟨a, c, b ++ t, by simp, hk, hc⟩

theorem SolidLine.append_left (s : List Char) (h : SolidLine t k) :
    SolidLine (s ++ t) (s.count '\n' + k) := by
  obtain ⟨a, c, b, rfl, hk, hc⟩ := h
  exact ⟨s ++ a, c, b, by simp, by rw [List.count_append, hk], hc⟩

theorem VerbatimLine.append_right (h : VerbatimLine s k) (t : List Char) :
    VerbatimLine (s ++ t) k := by
  obtain ⟨p, v, q, rfl, hv, hlt, hle⟩ := h
  exact ⟨p, v, q ++ t, by simp, hv, hlt, hle⟩

theorem VerbatimLine.append_left (s : List Char) (h : VerbatimLine t k) :
    VerbatimLine (s ++ t) (s.count '\n' + k) := by
  obtain ⟨p, v, q, rfl, hv, hlt, hle⟩ := h
  refine ⟨s ++ p, v, q, by simp, hv, ?_, ?_⟩ <;> (rw [List.count_append]; omega)

theorem SolidLine.of_line {l : List Char} (hl : (lines s)[k]? = some l)
    (hsolid : ∃ c ∈ l, isBlank c = false) : SolidLine s k := by
  obtain ⟨c, hc, hsolid⟩ := hsolid
  obtain ⟨a, b, hs, hk⟩ := exists_split_of_mem_line hl hc
  exact ⟨a, c, b, hs, hk, hsolid⟩

/-- Blank characters alone are no such line. -/
theorem SolidLine.not_blank (h : SolidLine s k) {l : List Char} (hl : (lines s)[k]? = some l) :
    ∃ c ∈ l, isBlank c = false := by
  obtain ⟨a, c, b, rfl, rfl, hc⟩ := h
  refine ⟨c, mem_line_of_split ?_ hl, hc⟩
  rintro rfl
  exact absurd hc (by decide)

/-- Where a literal of the text goes on, the line holds something else than white space behind it,
or is part of it. -/
theorem solid_or_verbatim_of_literal (hk : k ∈ literalLines (s ++ ['\n'])) :
    SolidLine s k ∨ VerbatimLine s k := by
  obtain ⟨ts, hcuts, -⟩ := cuts_lex (s ++ ['\n'])
  obtain ⟨t, ht, hliteral, hlt, hle⟩ := hcuts.mem_literalLines.mp hk
  obtain ⟨a, b, hsplit, hpos⟩ := hcuts.exists_split t ht
  have hv := hcuts.isLiteral t ht hliteral
  obtain ⟨w, c, hw⟩ := (List.eq_nil_or_concat t.text).resolve_left hv.trimmed.2
  rw [List.concat_eq_append] at hw
  have hc : isBlank c = false := hv.trimmed.1.last c (by rw [hw, List.getLast?_concat]; rfl)
  have hne : c ≠ '\n' := ne_newline_of_isBlank hc
  rw [hpos, Nat.zero_add, hsplit, List.take_left] at hlt hle
  rw [hw, List.append_assoc, ← List.append_assoc] at hsplit
  obtain ⟨b', hb⟩ := split_of_append_newline hne hsplit
  by_cases hend : k = a.count '\n' + t.text.count '\n'
  · refine .inl ⟨a ++ w, c, b', hb, ?_, hc⟩
    rw [hend, hw, List.count_append, List.count_append, List.count_singleton,
      if_neg (by simpa using hne), Nat.add_zero]
  · refine .inr ⟨a, t.text, b', ?_, .inl hv, hlt, by omega⟩
    rw [hb, hw]
    simp

namespace Filled

theorem nil : Filled [] := fun _ hk => absurd hk (Nat.not_lt_zero _)

theorem append (hs : Filled s) (ht : Filled t) : Filled (s ++ t) := by
  intro k hk
  by_cases hlt : k < s.count '\n'
  · exact (hs k hlt).imp (·.append_right t) (·.append_right t)
  · obtain ⟨j, rfl⟩ := Nat.exists_eq_add_of_le (Nat.le_of_not_lt hlt)
    rw [List.count_append] at hk
    exact (ht j (by omega)).imp (·.append_left s) (·.append_left s)

/-- Where the first of the lines holds something else than white space, the others matter. -/
theorem of_lead {a : List Char} {c : Char} (ha : '\n' ∉ a) (hmem : c ∈ a) (hc : isBlank c = false)
    (h : ∀ k < s.count '\n', 0 < k → SolidLine s k ∨ VerbatimLine s k) : Filled (a ++ s) := by
  have ha' : a.count '\n' = 0 := List.count_eq_zero_of_not_mem ha
  intro k hk
  rw [List.count_append, ha', Nat.zero_add] at hk
  by_cases hfirst : k = 0
  · obtain ⟨u, w, rfl⟩ := List.append_of_mem hmem
    refine .inl ⟨u, c, w ++ s, by simp, ?_, hc⟩
    rw [hfirst, List.count_eq_zero_of_not_mem fun hu => ha (List.mem_append_left _ hu)]
  · have hline := (h k hk (Nat.pos_of_ne_zero hfirst)).imp (·.append_left a) (·.append_left a)
    rwa [ha', Nat.zero_add] at hline

/-- A line that holds something else than white space. -/
theorem line {c : Char} (hs : '\n' ∉ s) (hmem : c ∈ s) (hc : isBlank c = false) :
    Filled (s ++ ['\n']) := by
  refine of_lead hs hmem hc fun k hk hpos => ?_
  rw [List.count_singleton_self] at hk
  omega

/-- One or more lines with a literal or an annotation: the first and the last line hold its ends. -/
theorem around {a v b : List Char} (ha : '\n' ∉ a) (hv : IsLiteral v ∨ IsDecoration v)
    (hb : '\n' ∉ b) : Filled (a ++ (v ++ (b ++ ['\n']))) := by
  obtain ⟨⟨hhead, hlast⟩, hne⟩ := hv.elim IsLiteral.trimmed IsDecoration.trimmed
  have ha' : a.count '\n' = 0 := List.count_eq_zero_of_not_mem ha
  have hb' : b.count '\n' = 0 := List.count_eq_zero_of_not_mem hb
  intro k hk
  simp only [List.count_append, ha', hb', List.count_singleton_self] at hk
  by_cases hfirst : k = 0
  · obtain ⟨c, w, rfl⟩ := List.exists_cons_of_ne_nil hne
    exact .inl ⟨a, c, w ++ (b ++ ['\n']), rfl, by rw [ha', hfirst], hhead c rfl⟩
  by_cases hend : k = v.count '\n'
  · obtain ⟨w, c, rfl⟩ := (List.eq_nil_or_concat v).resolve_left hne
    rw [List.concat_eq_append] at hlast hend ⊢
    have hc := hlast c List.getLast?_concat
    refine .inl ⟨a ++ w, c, b ++ ['\n'], by simp, ?_, hc⟩
    rw [hend, List.count_append, List.count_append, List.count_singleton,
      if_neg (by simpa using ne_newline_of_isBlank hc), ha', Nat.zero_add, Nat.add_zero]
  · exact .inr ⟨a, v, b ++ ['\n'], rfl, hv, by omega, by omega⟩

end Filled
end

/-! ## Blocks -/

/-- The white space that a line starts with. -/
def IsMargin (m : List Char) : Prop := (∀ c ∈ m, isBlank c = true) ∧ '\n' ∉ m

/-- What leads to a value: a name, or the dots of a spread. -/
def IsLead (w : List Char) : Prop := w = ['.', '.'] ∨ ∃ p, isName p = true ∧ w = p ++ [':', ' ']

/-- What may stand behind a value. -/
def IsTail (e : List Char) : Prop := e = [] ∨ e = [',']

/-- No line but the first is blank, unless a literal goes on in it. The literals are those of the text
in front of a line feed. -/
def IsCompact (s : List Char) : Prop :=
  ∀ k, 0 < k → k ≤ s.count '\n' → SolidLine s k ∨ k ∈ literalLines (s ++ ['\n'])

/-- What is written at once: the first or the last line of an element or a component, an annotation,
a string literal, alone or as a value, or an expression. -/
inductive Block : List Char → Prop where
  | opening {m p : List Char} : IsMargin m → isPath p = true → Block (m ++ (p ++ [' ', '\x7b', '\n']))
  | closing {m : List Char} : IsMargin m → Block (m ++ ['\x7d', '\n'])
  | decoration {m v : List Char} : IsMargin m → IsDecoration v → Block (m ++ (v ++ ['\n']))
  | text {m b : List Char} : IsMargin m → isQuotable b = true → Block (m ++ (quote b ++ ['\n']))
  | string {m w b e : List Char} : IsMargin m → IsLead w → isQuotable b = true → IsTail e →
      Block (m ++ (w ++ (quote b ++ (e ++ ['\n']))))
  | expression {m w s e : List Char} : IsMargin m → IsLead w → IsCompact s → IsTail e →
      Block (m ++ (w ++ (s ++ (e ++ ['\n']))))

/-- A row of blocks. -/
def Blocks (s : List Char) : Prop := ∃ bs : List (List Char), (∀ b ∈ bs, Block b) ∧ s = bs.flatten

theorem IsLead.line {w : List Char} (h : IsLead w) :
    '\n' ∉ w ∧ ∃ c ∈ w, isBlank c = false := by
  rcases h with rfl | ⟨p, hp, rfl⟩
  · exact ⟨by decide, '.', by decide, by decide⟩
  · have hfeed : '\n' ∉ p := fun hmem => absurd (not_blank_of_isName hp _ hmem) (by decide)
    exact ⟨by simpa using hfeed, ':', by simp, by decide⟩

theorem IsTail.line {e : List Char} (h : IsTail e) : '\n' ∉ e := by
  rcases h with rfl | rfl <;> decide

theorem Block.filled {s : List Char} (h : Block s) : Filled s := by
  have hfeed : ∀ {m w : List Char}, IsMargin m → '\n' ∉ w → '\n' ∉ m ++ w := by
    intro m w hm hw
    rw [List.mem_append, not_or]
    exact ⟨hm.2, hw⟩
  cases h with
  | @opening m p hm hp =>
    have hp' : '\n' ∉ p ++ [' ', '\x7b'] := by
      have hline : '\n' ∉ p := fun hmem => absurd (not_blank_of_isPath hp _ hmem) (by decide)
      simpa using hline
    have hfilled := Filled.line (c := '\x7b') (hfeed hm hp') (by simp) (by decide)
    simpa using hfilled
  | @closing m hm =>
    have hfilled := Filled.line (c := '\x7d') (hfeed hm (w := ['\x7d']) (by decide)) (by simp)
      (by decide)
    simpa using hfilled
  | @decoration m v hm hv => exact Filled.around (b := []) hm.2 (.inr hv) List.not_mem_nil
  | @text m b hm hb => exact Filled.around (b := []) hm.2 (.inl (isLiteral_quote hb)) List.not_mem_nil
  | @string m w b e hm hw hb he =>
    have hfilled := Filled.around (hfeed hm hw.line.1) (.inl (isLiteral_quote hb)) he.line
    rwa [List.append_assoc] at hfilled
  | @expression m w s e hm hw hs he =>
    obtain ⟨hline, c, hmem, hc⟩ := hw.line
    have he' : e.count '\n' = 0 := List.count_eq_zero_of_not_mem he.line
    rw [← List.append_assoc]
    refine Filled.of_lead (hfeed hm hline) (List.mem_append_right _ hmem) hc fun k hk hpos => ?_
    simp only [List.count_append, he', List.count_singleton_self] at hk
    have hwhole := (hs k hpos (by omega)).elim .inl solid_or_verbatim_of_literal
    exact hwhole.imp (·.append_right _) (·.append_right _)

namespace Blocks

variable {s t : List Char}

theorem nil : Blocks [] := ⟨[], nofun, rfl⟩

theorem of_block (h : Block s) : Blocks s :=
  ⟨[s], List.forall_mem_singleton.mpr h, (List.append_nil s).symm⟩

theorem append (hs : Blocks s) (ht : Blocks t) : Blocks (s ++ t) := by
  obtain ⟨bs, hbs, rfl⟩ := hs
  obtain ⟨cs, hcs, rfl⟩ := ht
  exact ⟨bs ++ cs, List.forall_mem_append.mpr ⟨hbs, hcs⟩, List.flatten_append.symm⟩

theorem filled (h : Blocks s) : Filled s := by
  obtain ⟨bs, hbs, rfl⟩ := h
  induction bs with
  | nil => exact .nil
  | cons b bs ih =>
    obtain ⟨hb, hbs⟩ := List.forall_mem_cons.mp hbs
    exact hb.filled.append (ih hbs)

end Blocks

/-! ## Expressions -/

theorem count_hungLines {margin : List Char} {literal : List Nat} {ls : List (List Char)}
    (hfeed : '\n' ∉ margin) (hls : ∀ l ∈ ls, '\n' ∉ l) (i : Nat) :
    (hungLines margin literal i ls).count '\n' = ls.length := by
  induction ls generalizing i with
  | nil => rfl
  | cons l ls ih =>
    obtain ⟨hl, hls⟩ := List.forall_mem_cons.mp hls
    have hline : '\n' ∉ (if literal.contains i then [] else margin) ++ l := by
      rw [List.mem_append, not_or]
      refine ⟨?_, hl⟩
      split
      · exact List.not_mem_nil
      · exact hfeed
    rw [hungLines, List.count_append, List.count_cons_self, List.count_eq_zero_of_not_mem hline,
      ih hls, List.length_cons]
    omega

/-- A margin makes no further lines. -/
theorem count_hung {margin : List Char} (hfeed : '\n' ∉ margin) (s : List Char) :
    (hung margin s).count '\n' = s.count '\n' := by
  have hlength := length_lines s
  have hall : ∀ l ∈ lines s, '\n' ∉ l := fun _ => not_mem_of_mem_lines
  unfold hung
  cases hl : lines s with
  | nil => exact absurd hl (lines_ne_nil s)
  | cons first rest =>
    rw [hl] at hall hlength
    obtain ⟨hfirst, hrest⟩ := List.forall_mem_cons.mp hall
    rw [List.length_cons] at hlength
    simp only [List.count_append, List.count_eq_zero_of_not_mem hfirst, count_hungLines hfeed hrest]
    omega

/-- An expression that is laid out stays so behind a margin. -/
theorem isCompact_hung {margin : List Char} (hmargin : IsMargin margin) (x : List Char) :
    IsCompact (hung margin (tidy x)) := by
  intro k hpos hk
  rw [count_hung hmargin.2] at hk
  have hrelaid := relaid_hung hmargin.1 hmargin.2 (tidy x)
  by_cases hliteral : k ∈ literalLines (tidy x)
  · exact .inr ((hrelaid.mem_literalLines rfl k).mpr ⟨k, hliteral, rfl⟩)
  · obtain ⟨j, rfl⟩ := Nat.exists_eq_add_of_lt hpos
    rw [Nat.zero_add] at hk hliteral ⊢
    have hlt : j + 1 < (lines (tidy x)).length := by
      rw [length_lines]
      omega
    have hl := List.getElem?_eq_getElem hlt
    obtain ⟨a, c, b, hs, hline, hc⟩ := SolidLine.of_line hl (exists_solid_of_line_tidy hl hliteral)
    generalize literalLines (tidy x) = literal at hrelaid
    have hsplit := hrelaid
    rw [hs] at hsplit
    obtain ⟨a', b', ht, hlines⟩ := hsplit.exists_split hc
    obtain ⟨b'', ht⟩ := split_of_append_newline (ne_newline_of_isBlank hc) (hs ▸ ht)
    have hlines : 0 + a'.count '\n' = 0 + a.count '\n' := hlines
    exact .inl ⟨a', c, b'', ht, by omega, hc⟩

/-! ## Nodes -/

namespace Script

/-- What the script writes, up to its failure if it fails, is a row of blocks. -/
def WritesBlocks (s : Script) : Prop := Blocks s.chunks.flatten

namespace WritesBlocks

variable {a b : Script} {t : List Char}

theorem of_block (h : a.Writes t) (ht : Block t) : a.WritesBlocks := by
  rw [WritesBlocks, h.text]
  exact .of_block ht

theorem empty : Script.empty.WritesBlocks := Blocks.nil

theorem unsupported (u : Unsupported) : (Script.unsupported u).WritesBlocks := Blocks.nil

theorem append (ha : a.WritesBlocks) (hb : b.WritesBlocks) : (a ++ b).WritesBlocks := by
  have happ : a ++ b = Script.append a b := rfl
  rw [happ, Script.append]
  split
  · exact ha
  · rw [WritesBlocks, List.flatten_append]
    exact Blocks.append ha hb

theorem concat_map {α : Type} {g : α → Script} {xs : List α} (h : ∀ x ∈ xs, (g x).WritesBlocks) :
    (concat (xs.map g)).WritesBlocks := of_concat_map empty append h

end WritesBlocks
end Script

namespace Formatter

variable {X : Heads} (f : Formatter) (depth : Int)

theorem isMargin_margin : IsMargin (f.margin depth) :=
  ⟨f.blank_margin depth, f.feed_not_mem_margin depth⟩

theorem headLine_blocks {p : List Char} (hp : isPath p = true) :
    (f.headLine depth (some p) [' ', '\x7b']).WritesBlocks := by
  have hblock := Block.opening (f.isMargin_margin depth) hp
  refine .of_block (f.headLine_writes depth p [' ', '\x7b']) ?_
  simpa using hblock

theorem lastLine_blocks : (f.line depth ['\x7d']).WritesBlocks :=
  .of_block (f.line_writes depth ['\x7d']) (.closing (f.isMargin_margin depth))

theorem value_blocks {P : List Char → Prop} {v : Node} (hr : f.renderer = .tidy)
    (h : IsString v ∨ IsExpression P v) {lead tail : List Char} (hlead : IsLead lead)
    (htail : IsTail tail) : (f.value depth lead tail (some v)).WritesBlocks := by
  have hmargin := f.isMargin_margin depth
  rcases h with ⟨b, hcls, hb, -, hq⟩ | ⟨s, hcls, hs, -⟩
  · have hblock := Block.string hmargin hlead hq htail
    refine .of_block (f.value_writes_string depth hcls hb lead tail) ?_
    simpa [List.append_assoc] using hblock
  · have hblock := Block.expression hmargin hlead (isCompact_hung hmargin s) htail
    refine .of_block (f.value_writes_expression depth hr hcls hs lead tail) ?_
    simpa [List.append_assoc] using hblock

theorem nameValue_blocks {P : List Char → Prop} {l : Label} {p : List Char} {v : Node}
    (hr : f.renderer = .tidy) (hp : l.head = some p) (hname : isName p = true)
    (h : IsString v ∨ IsExpression P v) : (f.nameValue depth (.mk l [v])).WritesBlocks := by
  have hhead : Node.head (.mk l [v]) = some p := hp
  unfold nameValue
  rw [hhead, value?_of_isValue h]
  exact f.value_blocks depth hr h (.inr ⟨p, hname, rfl⟩) (.inr rfl)

theorem key_blocks {c : Node} (h : Placed X .element c) (hk : c.isA .key = true)
    (hasAttributes : Bool) : (f.keyLine depth hasAttributes c).WritesBlocks := by
  obtain ⟨l, b, rfl, -, hb, hq⟩ := h.inv_key hk
  have hmargin := f.isMargin_margin depth
  have hlead : IsLead "key: ".toList := .inr ⟨"key".toList, by decide +kernel, rfl⟩
  refine .of_block (f.keyLine_writes depth (n := .mk l []) hb hasAttributes) ?_
  cases hasAttributes with
  | true =>
    have hblock := Block.string hmargin hlead hq (.inr rfl)
    simpa [List.append_assoc] using hblock
  | false =>
    have hblock := Block.string hmargin hlead hq (.inl rfl)
    simpa [List.append_assoc] using hblock

theorem attribute_blocks {c : Node} (hr : f.renderer = .tidy) (h : Placed X .element c)
    (hk : c.isA .attribute = true) : (f.attributeLines depth c).WritesBlocks := by
  obtain ⟨l, p, v, rfl, hp, hname, hc, hv⟩ := h.inv_attr hk
  have hcls : Node.cls (.mk l [v]) = l.cls := rfl
  unfold attributeLines
  rw [hcls, hc]
  rcases hname with hname | ⟨b, rfl, -⟩
  · have hvalue := f.nameValue_blocks depth hr hp hname (hv.imp_left And.left)
    rcases attributeKind_cases p (v.kind = .string) with hk | hk | hk | hk | hk <;> rw [hk]
    · exact .unsupported _
    · exact .unsupported _
    · exact hvalue
    · exact hvalue
    · exact hvalue
  · cases decide (v.kind = .string) with
    | true => exact .unsupported _
    | false => exact .unsupported _

theorem field_blocks {c : Node} (hr : f.renderer = .tidy) (h : Placed X .component c)
    (hk : c.isA .field = true) : (f.fieldLines depth c).WritesBlocks := by
  obtain ⟨l, p, v, rfl, hp, hname, hc, hv⟩ := h.inv_field hk
  have hcls : Node.cls (.mk l [v]) = l.cls := rfl
  have hvalue := f.nameValue_blocks depth hr hp hname hv
  unfold fieldLines
  rw [hcls, hc]
  rcases fieldKind_cases p (v.kind = .string) with hk | hk | hk <;> rw [hk] <;> exact hvalue

theorem spread_blocks {c : Node} (hr : f.renderer = .tidy) (h : Placed X .component c)
    (hk : c.isA .spread = true) : (f.spreadLines depth c).WritesBlocks := by
  obtain ⟨l, e, rfl, -, he⟩ := h.inv_spread hk
  unfold spreadLines
  rw [expression?_of_isExpression he]
  exact f.value_blocks depth hr (.inr he) (.inl rfl) (.inl rfl)

theorem childrenOf_blocks {n : Node} {k : Kind} {g : Node → Script}
    (h : ∀ c : Node, c ∈ n.children → c.isA k = true → (g c).WritesBlocks) :
    (Script.concat ((n.childrenOf k).map g)).WritesBlocks := by
  refine .concat_map fun c hc => ?_
  obtain ⟨hmem, hk⟩ := Node.mem_childrenOf.mp hc
  exact h c hmem hk

end Formatter

/-- Placed body nodes are written in blocks. -/
theorem Placed.blocks {X : Heads} {m : Mode} {n : Node} {f : Formatter} (h : Placed X m n)
    (hX : ∀ s, X.decoration s → IsDecoration s) (hr : f.renderer = .tidy) :
    n.isA .bodyNode = true → ∀ depth, (f.node depth n).WritesBlocks := by
  induction h with
  | @text m l b hc hb hq =>
    intro _ depth
    unfold Formatter.node
    rw [hc, hb]
    exact .of_block (f.line_writes depth (quote b)) (.text (f.isMargin_margin depth) hq)
  | @decoration m l s hc hs hX' =>
    intro _ depth
    unfold Formatter.node
    rw [hc, hs]
    refine .of_block (f.headLine_writes depth s []) ?_
    rw [List.append_nil]
    exact .decoration (f.isMargin_margin depth) (hX s hX')
  | @rawExpression m l e hc _ =>
    intro _ depth
    unfold Formatter.node
    rw [hc]
    exact .empty
  | @element m l p cs hc hp htag hcs hkeys ih =>
    intro _ depth
    have hkeyLines := Formatter.childrenOf_blocks (n := .mk l cs) fun c hm hk =>
      f.key_blocks (depth + 1) (hcs c hm) hk !(Node.childrenOf (.mk l cs) .attribute).isEmpty
    have hattributes := Formatter.childrenOf_blocks (n := .mk l cs) fun c hm hk =>
      f.attribute_blocks (depth + 1) hr (hcs c hm) hk
    have hbody := Formatter.childrenOf_blocks (n := .mk l cs) (k := .bodyNode)
      (g := f.node (depth + 1)) fun c hm hb => ih c hm hb (depth + 1)
    rw [f.node_element depth hc hp hcs hkeys]
    exact ((((f.headLine_blocks depth (isPath_of_isTag htag)).append hkeyLines).append
      hattributes).append hbody).append (f.lastLine_blocks depth)
  | @component m l p cs hc hp hpath _ hcs _ ih =>
    intro _ depth
    have hfields := Formatter.childrenOf_blocks (n := .mk l cs) fun c hm hk =>
      f.field_blocks (depth + 1) hr (hcs c hm) hk
    have hspreads := Formatter.childrenOf_blocks (n := .mk l cs) fun c hm hk =>
      f.spread_blocks (depth + 1) hr (hcs c hm) hk
    have hbody := Formatter.childrenOf_blocks (n := .mk l cs) (k := .bodyNode)
      (g := f.node (depth + 1)) fun c hm hb => ih c hm hb (depth + 1)
    rw [f.node_component depth hc hp hcs]
    exact ((((f.headLine_blocks depth hpath).append hfields).append hspreads).append hbody).append
      (f.lastLine_blocks depth)
  | @key l b hc _ _ =>
    intro hb
    rw [Node.isA_of_cls (n := .mk l []) hc] at hb
    cases hb
  | attr _ _ hc _ =>
    intro hb
    rw [Placed.not_bodyNode_of_attr hc] at hb
    cases hb
  | field _ _ hc _ =>
    intro hb
    rw [Placed.not_bodyNode_of_field hc] at hb
    cases hb
  | @spread l e hc _ =>
    intro hb
    rw [Node.isA_of_cls (n := .mk l [e]) hc] at hb
    cases hb

/-- A formatted text is a row of blocks. -/
theorem blocks_of_format {text out : List Char} {width : Int} (h : format text width = .ok out) :
    Blocks out := by
  obtain ⟨d, hread, hwrites⟩ := writes_of_format h
  obtain ⟨-, hplaced⟩ := placed_of_read (Heads.found_hold text) hread
  have hblocks : (Formatter.nodes ⟨width, 0, .tidy⟩ d.children).WritesBlocks :=
    .concat_map fun n hn => (hplaced n hn).blocks (fun _ hs => hs) rfl (hplaced n hn).isA_bodyNode 0
  rwa [Script.WritesBlocks, hwrites.text] at hblocks

/-- Every blank line of a formatted text lies in a literal or in an annotation: both the line feed in
front of it and the one behind it are part of that. -/
theorem blank_line_of_format {text out l : List Char} {width : Int} {k : Nat}
    (h : format text width = .ok out) (hl : (lines out)[k]? = some l) (hk : k < out.count '\n')
    (hblank : ∀ c ∈ l, isBlank c = true) : VerbatimLine out k := by
  refine ((blocks_of_format h).filled k hk).resolve_left fun hsolid => ?_
  obtain ⟨c, hmem, hc⟩ := hsolid.not_blank hl
  rw [hblank c hmem] at hc
  cases hc

/-- An annotation is written as it was read, so that a blank line in it stays. -/
example : (format "#[x\n\n]".toList 4).toOption = some "#[x\n\n]\n".toList := by decide +kernel

end BlockMarkup
