import BlockMarkup.Proofs.Expression.Extent

/-!
# BlockMarkup.Proofs.Expression.Counter

Where a value ends, by counting brackets. `Ending.count` goes through a text once from left to right and
steps over literals and comments as a whole. `Ending.Steps` says what it does where a rule of the lexer
matches, and `Ending.Inside.steps` that it does so in every mode that a value is read in.
-/

namespace BlockMarkup

open Text

/-- How a value ends: that of an attribute or a field, of a raw expression, or of a decoration. -/
inductive Ending where
  | value
  | brace
  | bracket

namespace Ending

/-- The mode that values with this ending are read in. -/
def mode : Ending → Mode
  | value => .attribute
  | brace => .rawExpression
  | bracket => .decoration

/-- How much the value still takes if it ends here, outside of all brackets. -/
def endsAt? : Ending → List Char → Option Nat
  | _, [] => none
  | value, c :: s =>
    if c = ',' then some 1 else if c = '\x7d' then some 0 else Pattern.lastString.length? (c :: s)
  | brace, c :: _ => if c = '\x7d' then some 1 else none
  | bracket, c :: _ => if c = ']' then some 1 else none

/-- The literals and comments that are stepped over as a whole. Where other text goes on, an `r` does
not start a literal. -/
def wholes (run : Bool) : List Pattern :=
  (if run then [] else [.hashString, .rawString]) ++ [.string, .char, .lineComment, .blockComment]

/-- The length of the literal or comment at the front of a text. -/
def whole? (run : Bool) (s : List Char) : Option Nat := (wholes run).findSome? fun p => p.length? s

/-- The number of open brackets after a character. A closing bracket closes one of any shape. -/
def depthAfter (d : Nat) (c : Char) : Nat :=
  if c = '(' ∨ c = '[' ∨ c = '\x7b' then d + 1
  else if c = ')' ∨ c = ']' ∨ c = '\x7d' then d - 1
  else d

/-- The number of characters up to the end of a value, with `d` brackets open: `run` tells whether other
text goes on, and `left` how much of a literal or a comment is left. -/
def count (e : Ending) : Nat → Bool → Nat → List Char → Nat
  | _, _, _, [] => 0
  | d, _, left + 1, _ :: s => e.count d false left s + 1
  | d, run, 0, c :: s =>
    match if d = 0 then e.endsAt? (c :: s) else none with
    | some n => n
    | none =>
      match whole? run (c :: s) with
      -- No run goes on behind a literal, not even behind the hashes that end a raw string.
      | some n => e.count d false (n - 1) s + 1
      | none => e.count (depthAfter d c) (!Pattern.endsRun c) 0 s + 1

/-- The number of characters of the value at the front of a text. -/
def extent (e : Ending) (s : List Char) : Nat := e.count 0 false 0 s

/-! ## What is stepped over -/

variable {e : Ending} {d : Nat} {run : Bool} {c : Char} {s : List Char}

/-- Only what can start with the first character matters. -/
theorem whole?_eq_filter (run : Bool) (c : Char) (s : List Char) : whole? run (c :: s) =
    ((wholes run).filter fun p => p.opensWith c).findSome? fun p => p.length? (c :: s) := by
  unfold whole?
  induction wholes run with
  | nil => rfl
  | cons p ps ih =>
    cases hc : p.opensWith c with
    | true =>
      rw [List.filter_cons_of_pos (p := fun (p : Pattern) => p.opensWith c) hc,
        List.findSome?_cons, List.findSome?_cons, ih]
    | false =>
      rw [List.filter_cons_of_neg (p := fun (p : Pattern) => p.opensWith c)
          (by rw [hc]; exact nofun), List.findSome?_cons, Pattern.length?_eq_none hc]
      exact ih

theorem whole?_bounds {n : Nat} (h : whole? run s = some n) : 0 < n ∧ n ≤ s.length := by
  obtain ⟨p, hp, hn⟩ := List.exists_of_findSome?_eq_some h
  have hahead : ∀ p ∈ wholes run, p.looksAhead = false := by
    cases run <;> decide
  exact ⟨Pattern.length?_pos (hahead p hp) hn, Pattern.length?_le hn⟩

/-- The characters that are neither white space nor plain text. -/
def marks : List Char := ['(', ')', '[', ']', '\x7b', '\x7d', ',', '"', '\'', '/']

theorem not_mem_marks_of_not_endsRun (h : Pattern.endsRun c = false) : c ∉ marks := by
  rw [Pattern.endsRun, Bool.or_eq_false_iff] at h
  exact fun hc => Bool.false_ne_true (h.2.symm.trans (List.contains_iff_mem.mpr hc))

theorem not_mem_marks_of_isBlank (h : isBlank c = true) : c ∉ marks := by
  intro hc
  have hmarks : (marks.all fun m => !isBlank m) = true := by decide
  have hsolid := List.all_eq_true.mp hmarks c hc
  rw [h] at hsolid
  cases hsolid

theorem ne_of_not_mem_marks {m : Char} (hc : c ∉ marks) (hm : m ∈ marks) : c ≠ m := by
  rintro rfl
  exact hc hm

/-- What is no mark starts no literal and no comment, unless it is the `r` of a raw string. -/
theorem whole?_of_not_mem_marks (hc : c ∉ marks) (hr : run = true ∨ c ≠ 'r') :
    whole? run (c :: s) = none := by
  have hquote := ne_of_not_mem_marks (m := '"') hc (by decide)
  have htick := ne_of_not_mem_marks (m := '\'') hc (by decide)
  have hslash := ne_of_not_mem_marks (m := '/') hc (by decide)
  rw [whole?_eq_filter]
  rcases hr with rfl | hr
  · simp [wholes, Pattern.opensWith, hquote, htick, hslash]
  · cases run <;> simp [wholes, Pattern.opensWith, hquote, htick, hslash, hr]

/-- Where a run ends, it does not matter that there was one. -/
theorem whole?_of_endsRun (hc : Pattern.endsRun c = true) :
    whole? true (c :: s) = whole? false (c :: s) := by
  have hr : c ≠ 'r' := by
    rintro rfl
    cases hc
  rw [whole?_eq_filter, whole?_eq_filter]
  simp [wholes, Pattern.opensWith, hr]

/-- No value ends at white space or plain text. -/
theorem endsAt?_of_not_mem_marks (hc : c ∉ marks) : e.endsAt? (c :: s) = none := by
  have hbrace := ne_of_not_mem_marks (m := '\x7d') hc (by decide)
  cases e with
  | value =>
    have hquote := ne_of_not_mem_marks (m := '"') hc (by decide)
    rw [endsAt?, if_neg (ne_of_not_mem_marks hc (by decide)), if_neg hbrace]
    exact Pattern.length?_eq_none (by simpa [Pattern.opensWith] using hquote)
  | brace => rw [endsAt?, if_neg hbrace]
  | bracket => rw [endsAt?, if_neg (ne_of_not_mem_marks hc (by decide))]

theorem depthAfter_of_not_mem_marks (hc : c ∉ marks) : depthAfter d c = d := by
  have hne : ∀ m ∈ marks, c ≠ m := fun m hm => ne_of_not_mem_marks hc hm
  simp [depthAfter, hne '(' (by decide), hne ')' (by decide), hne '[' (by decide),
    hne ']' (by decide), hne '\x7b' (by decide), hne '\x7d' (by decide)]

/-! ## Steps of the count -/

theorem count_left {n : Nat} (hn : n ≤ s.length) :
    e.count d false n s = n + e.count d false 0 (s.drop n) := by
  induction n generalizing s with
  | zero => rw [List.drop_zero, Nat.zero_add]
  | succ n ih =>
    cases s with
    | nil => exact absurd hn (Nat.not_succ_le_zero n)
    | cons c s =>
      rw [count, ih (Nat.le_of_succ_le_succ hn), List.drop_succ_cons]
      omega

theorem count_ends {n : Nat} (h : e.endsAt? (c :: s) = some n) : e.count 0 run 0 (c :: s) = n := by
  rw [count, if_pos rfl, h]

theorem count_whole {n : Nat} (hopen : d = 0 → e.endsAt? (c :: s) = none)
    (h : whole? run (c :: s) = some n) :
    e.count d run 0 (c :: s) = n + e.count d false 0 ((c :: s).drop n) := by
  obtain ⟨hpos, hle⟩ := whole?_bounds h
  obtain ⟨k, rfl⟩ : ∃ k, n = k + 1 := ⟨n - 1, by omega⟩
  have hif : (if d = 0 then e.endsAt? (c :: s) else none) = none := by
    split
    · exact hopen ‹_›
    · rfl
  rw [count, hif, h]
  simp only [Nat.add_sub_cancel]
  rw [count_left (Nat.le_of_succ_le_succ hle), List.drop_succ_cons]
  omega

theorem count_single (hopen : d = 0 → e.endsAt? (c :: s) = none) (h : whole? run (c :: s) = none) :
    e.count d run 0 (c :: s) = 1 + e.count (depthAfter d c) (!Pattern.endsRun c) 0 s := by
  have hif : (if d = 0 then e.endsAt? (c :: s) else none) = none := by
    split
    · exact hopen ‹_›
    · rfl
  rw [count, hif, h, Nat.add_comm]

theorem count_of_not_mem_marks (hc : c ∉ marks) (hr : run = true ∨ c ≠ 'r') :
    e.count d run 0 (c :: s) = 1 + e.count d (!Pattern.endsRun c) 0 s := by
  rw [count_single (fun _ => endsAt?_of_not_mem_marks hc) (whole?_of_not_mem_marks hc hr),
    depthAfter_of_not_mem_marks hc]

/-- A run is stepped over character by character. -/
theorem count_run (s : List Char) : e.count d true 0 s =
    (s.takeWhile fun c => !Pattern.endsRun c).length +
      e.count d false 0 (s.drop (s.takeWhile fun c => !Pattern.endsRun c).length) := by
  induction s with
  | nil => rfl
  | cons c s ih =>
    cases hc : Pattern.endsRun c with
    | true =>
      have hsame : e.count d true 0 (c :: s) = e.count d false 0 (c :: s) := by
        rw [count, count, whole?_of_endsRun hc]
      simpa [hc] using hsame
    | false =>
      have hstep : e.count d true 0 (c :: s) = 1 + e.count d true 0 s := by
        rw [count_of_not_mem_marks (not_mem_marks_of_not_endsRun hc) (.inl rfl), hc]
        rfl
      rw [hstep, ih]
      simp only [hc, Bool.not_false, List.takeWhile_cons_of_pos, List.length_cons,
        List.drop_succ_cons]
      omega

/-- White space is stepped over character by character. -/
theorem count_blanks (s : List Char) : e.count d false 0 s =
    (s.takeWhile isBlank).length + e.count d false 0 (s.drop (s.takeWhile isBlank).length) := by
  induction s with
  | nil => rfl
  | cons c s ih =>
    cases hc : isBlank c with
    | false => simp [hc]
    | true =>
      have hr : c ≠ 'r' := by
        rintro rfl
        cases hc
      have hstep : e.count d false 0 (c :: s) = 1 + e.count d false 0 s := by
        rw [count_of_not_mem_marks (not_mem_marks_of_isBlank hc) (.inr hr), Pattern.endsRun, hc]
        rfl
      rw [hstep, ih]
      simp only [hc, List.takeWhile_cons_of_pos, List.length_cons, List.drop_succ_cons]
      omega

/-! ## The rules of expressions -/

/-- What the count does for the match that a mode finds at the front of a text: it goes on behind the
match, in the group that the match opens, or outside of the one that it closes. Where nothing matches,
it goes on behind the first character. -/
inductive Steps (e : Ending) : Nat → List Char → Option (Nat × Rule) → Prop where
  | stay {d n : Nat} {s : List Char} {r : Rule} : r.move = .stay →
      e.count d false 0 s = n + e.count d false 0 (s.drop n) → Steps e d s (some (n, r))
  | push {d n : Nat} {s : List Char} {r : Rule} : r.move = .push .group →
      e.count d false 0 s = n + e.count (d + 1) false 0 (s.drop n) → Steps e d s (some (n, r))
  | leave {d n : Nat} {s : List Char} {r : Rule} : r.move = .pop →
      e.count (d + 1) false 0 s = n + e.count d false 0 (s.drop n) → Steps e (d + 1) s (some (n, r))
  | finish {n : Nat} {s : List Char} {r : Rule} : r.move = .pop →
      e.count 0 false 0 s = n → Steps e 0 s (some (n, r))
  | pass {s : List Char} :
      e.count 0 false 0 s = 1 + e.count 0 false 0 (s.drop 1) → Steps e 0 s none

/-- A quote, a slash or other text that is none. -/
theorem steps_single (hopen : d = 0 → e.endsAt? (c :: s) = none) {r : Rule}
    (hnone : whole? false (c :: s) = none) (hdepth : depthAfter d c = d)
    (hends : Pattern.endsRun c = true) (hr : r.move = .stay) :
    Steps e d (c :: s) (some (1, r)) := by
  refine .stay hr ?_
  rw [count_single hopen hnone, hdepth, hends]
  rfl

/-- A run of other text, from its start. -/
theorem steps_run {r : Rule} (hnone : whole? false (c :: s) = none) (hc : Pattern.endsRun c = false)
    (hr : r.move = .stay) : Steps e d (c :: s)
      ((Pattern.run.length? (c :: s)).map fun n => (n, r)) := by
  have hmarks := not_mem_marks_of_not_endsRun hc
  have hrun : Pattern.run.length? (c :: s) =
      some ((s.takeWhile fun c => !Pattern.endsRun c).length + 1) := by
    simp [Pattern.length?, Pattern.many, hc]
  rw [hrun]
  refine .stay hr ?_
  rw [count_single (fun _ => endsAt?_of_not_mem_marks hmarks) hnone,
    depthAfter_of_not_mem_marks hmarks, hc, Bool.not_false, count_run, List.drop_succ_cons]
  omega

theorem first?_singleton (r : Rule) (s : List Char) :
    Rule.first? [r] s = (r.pattern.length? s).map fun n => (n, r) := by
  cases h : r.pattern.length? s with
  | none => rw [Rule.first?_cons_none h]; rfl
  | some n => rw [Rule.first?_cons_some h]; rfl

/-- The rules `rs` are tried before others. -/
theorem steps_append {rs others : List Rule}
    (hrs : ∀ n r, r ∈ rs → (rs.findSome? fun r => r.pattern.length? s) = some n →
      Steps e d s (some (n, r)))
    (hothers : (rs.findSome? fun r => r.pattern.length? s) = none →
      Steps e d s (Rule.first? others s)) : Steps e d s (Rule.first? (rs ++ others) s) := by
  cases hn : rs.findSome? fun r => r.pattern.length? s with
  | none =>
    rw [Rule.first?_append_of_none (List.findSome?_eq_none_iff.mp hn)]
    exact hothers hn
  | some n =>
    obtain ⟨before, r, after, he, hr, hnone⟩ := List.findSome?_eq_some_iff.mp hn
    have hmem : r ∈ rs := by
      rw [he]
      exact List.mem_append_right _ List.mem_cons_self
    have hfirst : Rule.first? (rs ++ others) s = some (n, r) := by
      rw [he, List.append_assoc, Rule.first?_append_of_none hnone, List.cons_append,
        Rule.first?_cons_some hr]
    rw [hfirst]
    exact hrs n r hmem hn

/-- The rules of literals and comments come before others. -/
theorem steps_wholes (rs others : List Rule) (hopen : d = 0 → e.endsAt? (c :: s) = none)
    (hwhole : whole? false (c :: s) = rs.findSome? fun r => r.pattern.length? (c :: s))
    (hstay : ∀ r ∈ rs, r.move = .stay)
    (hothers : whole? false (c :: s) = none → Steps e d (c :: s) (Rule.first? others (c :: s))) :
    Steps e d (c :: s) (Rule.first? (rs ++ others) (c :: s)) :=
  steps_append (fun _ r hr hn => .stay (hstay r hr) (count_whole hopen (hwhole.trans hn)))
    fun hnone => hothers (hwhole.trans hnone)

/-- The rules that end a value come before others. -/
theorem steps_ends (rs others : List Rule)
    (hends : e.endsAt? (c :: s) = rs.findSome? fun r => r.pattern.length? (c :: s))
    (hpop : ∀ r ∈ rs, r.move = .pop)
    (hothers : e.endsAt? (c :: s) = none → Steps e 0 (c :: s) (Rule.first? others (c :: s))) :
    Steps e 0 (c :: s) (Rule.first? (rs ++ others) (c :: s)) :=
  steps_append (fun _ r hr hn => .finish (hpop r hr) (count_ends (hends.trans hn)))
    fun hnone => hothers (hends.trans hnone)

/-- Only runs start with plain text other than an `r`. -/
theorem filter_expression_of_not_endsRun (hc : Pattern.endsRun c = false) (hr : c ≠ 'r') :
    (Rule.expression.filter fun r => r.pattern.opensWith c) = [⟨.run, .emit .text, .stay⟩] := by
  have hmarks := not_mem_marks_of_not_endsRun hc
  have hne : ∀ m ∈ marks, c ≠ m := fun m hm => ne_of_not_mem_marks hmarks hm
  have hblank : isBlank c = false := (Bool.or_eq_false_iff.mp hc).1
  simp [Rule.expression, Pattern.opensWith, hc, hr, hblank, hne '"' (by decide),
    hne '\'' (by decide), hne '/' (by decide), hne '(' (by decide), hne '[' (by decide),
    hne '\x7b' (by decide)]

/-- Only white space starts with white space. -/
theorem filter_expression_of_isBlank (hc : isBlank c = true) :
    (Rule.expression.filter fun r => r.pattern.opensWith c) = [⟨.blanks, .emit .blank, .stay⟩] := by
  have hmarks := not_mem_marks_of_isBlank hc
  have hne : ∀ m ∈ marks, c ≠ m := fun m hm => ne_of_not_mem_marks hmarks hm
  have hr : c ≠ 'r' := by
    rintro rfl
    cases hc
  simp [Rule.expression, Pattern.opensWith, Pattern.endsRun, hc, hr, hne '"' (by decide),
    hne '\'' (by decide), hne '/' (by decide), hne '(' (by decide), hne '[' (by decide),
    hne '\x7b' (by decide)]

/-- What the rules that all expressions share find at a mark. -/
theorem steps_mark (hopen : d = 0 → e.endsAt? (c :: s) = none)
    (hd : d = 0 ∨ c ∉ [')', ']', '\x7d', ',']) (hc : c ∈ marks) : Steps e d (c :: s)
      (Rule.first? (Rule.expression.filter fun r => r.pattern.opensWith c) (c :: s)) := by
  have hcases : c = '"' ∨ c = '\'' ∨ c = '/' ∨ (c = '(' ∨ c = '[' ∨ c = '\x7b') ∨
      c ∈ [')', ']', '\x7d', ','] := by
    simp only [marks, List.mem_cons, List.not_mem_nil, or_false] at hc ⊢
    grind
  rcases hcases with rfl | rfl | rfl | hopener | hcloser
  · exact steps_wholes [⟨.string, .emit .string, .stay⟩]
      [⟨.quote, .emit .stray, .stay⟩] hopen (whole?_eq_filter _ _ _) (by decide)
      fun hnone => steps_single hopen hnone rfl rfl rfl
  · exact steps_wholes [⟨.char, .emit .char, .stay⟩]
      [⟨.run, .emit .text, .stay⟩] hopen (whole?_eq_filter _ _ _) (by decide)
      fun hnone => steps_single hopen hnone rfl rfl rfl
  · exact steps_wholes [⟨.lineComment, .emit .comment, .stay⟩,
        ⟨.blockComment, .emit .comment, .stay⟩]
      [⟨.run, .emit .text, .stay⟩] hopen (whole?_eq_filter _ _ _) (by decide)
      fun hnone => steps_single hopen hnone rfl rfl rfl
  · rcases hopener with rfl | rfl | rfl <;>
      exact .push (r := ⟨.groupOpener, .emit .bracket, .push .group⟩) rfl (count_single hopen rfl)
  · obtain rfl := hd.resolve_right (not_not_intro hcloser)
    simp only [List.mem_cons, List.not_mem_nil, or_false] at hcloser
    rcases hcloser with rfl | rfl | rfl | rfl <;> exact .pass (count_single hopen rfl)

/-- What the rules that all expressions share find. -/
theorem steps_expression (hopen : d = 0 → e.endsAt? (c :: s) = none)
    (hd : d = 0 ∨ c ∉ [')', ']', '\x7d', ',']) :
    Steps e d (c :: s) (Rule.first? Rule.expression (c :: s)) := by
  rw [Rule.first?_eq_filter]
  cases hc : Pattern.endsRun c with
  | false =>
    by_cases hr : c = 'r'
    · subst hr
      refine steps_wholes [⟨.hashString, .emit .rawString, .stay⟩,
        ⟨.rawString, .emit .rawString, .stay⟩] [⟨.run, .emit .text, .stay⟩] hopen
        (whole?_eq_filter _ _ _) (by decide) fun hnone => ?_
      rw [first?_singleton]
      exact steps_run hnone hc rfl
    · rw [filter_expression_of_not_endsRun hc hr, first?_singleton]
      exact steps_run (whole?_of_not_mem_marks (not_mem_marks_of_not_endsRun hc) (.inr hr)) hc rfl
  | true =>
    by_cases hblank : isBlank c = true
    · have hlength : Pattern.blanks.length? (c :: s) =
          some ((c :: s).takeWhile isBlank).length := by
        simp [Pattern.length?, Pattern.many, hblank]
      rw [filter_expression_of_isBlank hblank, first?_singleton, hlength]
      exact .stay rfl (count_blanks (c :: s))
    · have hmark : c ∈ marks := by
        rw [Pattern.endsRun, Bool.or_eq_true] at hc
        exact List.contains_iff_mem.mp (hc.resolve_left hblank)
      exact steps_mark hopen hd hmark

/-- Commas that end nothing are text. -/
theorem steps_separator (hopen : d = 0 → e.endsAt? (c :: s) = none)
    (hd : d = 0 ∨ c ∉ [')', ']', '\x7d']) : Steps e d (c :: s)
      (Rule.first? (⟨.separator, .emit .text, .stay⟩ :: Rule.expression) (c :: s)) := by
  by_cases hc : c = ','
  · subst hc
    exact steps_single (r := ⟨.separator, .emit .text, .stay⟩) hopen rfl rfl rfl rfl
  · rw [Rule.first?_cons_none (Pattern.length?_eq_none (by simpa [Pattern.opensWith] using hc))]
    exact steps_expression hopen (hd.imp_right fun hmem => by simpa [hc] using hmem)

/-! ## The modes of values -/

/-- With `d` brackets open, a value with the ending `e` is read in mode `m`. -/
def Inside (e : Ending) (d : Nat) (m : Mode) : Prop := d = 0 ∧ m = e.mode ∨ 0 < d ∧ m = .group

theorem steps_of_mode (e : Ending) (c : Char) (s : List Char) :
    Steps e 0 (c :: s) (Rule.first? e.mode.rules (c :: s)) := by
  cases e with
  | value =>
    refine steps_ends [⟨.separator, .emit .separator, .pop⟩, ⟨.closerAhead, .skip, .pop⟩,
      ⟨.lastString, .emit .string, .pop⟩] Rule.expression ?_ (by decide)
      fun hnone => steps_expression (fun _ => hnone) (.inl rfl)
    by_cases hcomma : c = ','
    · simp [endsAt?, Pattern.length?, Pattern.one, hcomma]
    · by_cases hbrace : c = '\x7d'
      · simp [endsAt?, Pattern.length?, Pattern.one, Pattern.ahead, hbrace]
      · simp [endsAt?, Pattern.length?, Pattern.one, Pattern.ahead, hcomma, hbrace]
  | brace =>
    refine steps_ends [⟨.closer, .emit .bracket, .pop⟩]
      (⟨.separator, .emit .text, .stay⟩ :: Rule.expression) ?_ (by decide)
      fun hnone => steps_separator (fun _ => hnone) (.inl rfl)
    by_cases hc : c = '\x7d' <;> simp [endsAt?, Pattern.length?, Pattern.one, hc]
  | bracket =>
    refine steps_ends [⟨.decoratorEnd, .emit .decorator, .pop⟩]
      (⟨.separator, .emit .text, .stay⟩ :: Rule.expression) ?_ (by decide)
      fun hnone => steps_separator (fun _ => hnone) (.inl rfl)
    by_cases hc : c = ']' <;> simp [endsAt?, Pattern.length?, Pattern.one, hc]

theorem steps_of_group (e : Ending) (d : Nat) (c : Char) (s : List Char) :
    Steps e (d + 1) (c :: s) (Rule.first? Mode.group.rules (c :: s)) := by
  have hopen : d + 1 = 0 → e.endsAt? (c :: s) = none := (absurd · (Nat.succ_ne_zero d))
  by_cases hc : c ∈ [')', ']', '\x7d']
  · simp only [List.mem_cons, List.not_mem_nil, or_false] at hc
    rcases hc with rfl | rfl | rfl <;>
      exact .leave (r := ⟨.groupCloser, .emit .bracket, .pop⟩) rfl (count_single hopen rfl)
  · have hrules : Mode.group.rules = ⟨.groupCloser, .emit .bracket, .pop⟩ ::
        ⟨.separator, .emit .text, .stay⟩ :: Rule.expression := rfl
    rw [hrules, Rule.first?_cons_none]
    · exact steps_separator hopen (.inr hc)
    · simp only [List.mem_cons, List.not_mem_nil, or_false, not_or] at hc
      exact Pattern.length?_eq_none (by simp [Pattern.opensWith, hc])

theorem Inside.steps {m : Mode} (h : e.Inside d m) (c : Char) (s : List Char) :
    Steps e d (c :: s) (Rule.first? m.rules (c :: s)) := by
  rcases h with ⟨rfl, rfl⟩ | ⟨hd, rfl⟩
  · exact steps_of_mode e c s
  · obtain ⟨k, rfl⟩ : ∃ k, d = k + 1 := ⟨d - 1, by omega⟩
    exact steps_of_group e k c s

end Ending
end BlockMarkup
