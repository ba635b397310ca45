import BlockMarkup.Proofs.Layout.Filled

/-!
# BlockMarkup.Proofs.Expression.LiteralLines

Lines that start inside a string. `literalLines` counts line feeds in front of a token and in it;
`lineStart` is where a line starts. Line `i` starts in the first `n` characters or right behind them
where at least `i` line feeds are among these (`lineStart_le_iff`), so a line is counted for a token
where its start is inside the token: a string does not end in a line feed, and a character has none.
-/

namespace BlockMarkup

namespace Text

/-- The position of the first character of line `i`, counted from 0: behind the lines in front of it,
each with its line feed. -/
def lineStart (s : List Char) (i : Nat) : Nat :=
  (((lines s).take i).flatMap fun l => l ++ ['\n']).length

theorem lineStart_newline (s : List Char) (i : Nat) :
    lineStart ('\n' :: s) (i + 1) = lineStart s i + 1 := by
  rw [lineStart, lines, if_pos rfl, List.take_succ_cons, List.flatMap_cons, lineStart]
  rfl

theorem lineStart_cons {c : Char} (hc : c ≠ '\n') (s : List Char) (i : Nat) :
    lineStart (c :: s) (i + 1) = lineStart s (i + 1) + 1 := by
  rw [lineStart, lineStart, lines, if_neg hc]
  cases hl : lines s with
  | nil => exact absurd hl (lines_ne_nil s)
  | cons l ls =>
    simp only [List.take_succ_cons, List.flatMap_cons, List.cons_append, List.length_cons]

/-- The start of a line comes behind as many line feeds as there are lines in front. -/
theorem lineStart_le_iff {s : List Char} {i n : Nat} (hn : n ≤ s.length) :
    lineStart s i ≤ n ↔ i ≤ (s.take n).count '\n' := by
  induction s generalizing i n with
  | nil =>
    obtain rfl := Nat.le_zero.mp hn
    cases i with
    | zero => decide
    | succ i =>
      rw [lineStart, lines, List.take_succ_cons, List.take_nil]
      exact iff_of_false (by decide) (Nat.not_succ_le_zero i)
  | cons c s ih =>
    rcases i with _ | i
    · exact iff_of_true (Nat.zero_le _) (Nat.zero_le _)
    by_cases hc : c = '\n'
    · subst hc
      rw [lineStart_newline]
      cases n with
      | zero => exact iff_of_false (Nat.not_succ_le_zero _) (Nat.not_succ_le_zero _)
      | succ n =>
        rw [List.take_succ_cons, List.count_cons_self, Nat.add_le_add_iff_right,
          Nat.add_le_add_iff_right, ih (Nat.le_of_succ_le_succ hn)]
    · rw [lineStart_cons hc]
      cases n with
      | zero => exact iff_of_false (Nat.not_succ_le_zero _) (Nat.not_succ_le_zero _)
      | succ n =>
        rw [List.take_succ_cons, List.count_cons_of_ne hc, Nat.add_le_add_iff_right,
          ih (Nat.le_of_succ_le_succ hn)]

/-- Only texts with lines enough have a line that starts in them. -/
theorem lt_length_lines {s : List Char} {i : Nat} (h : lineStart s i ≤ s.length) :
    i < (lines s).length := by
  rw [lineStart_le_iff (Nat.le_refl _), List.take_length] at h
  rw [length_lines]
  exact Nat.lt_succ_of_le h

end Text

open Text

/-! ## Line feeds in literals -/

theorem not_mem_of_throughOnLine {c : Char} (hc : c ≠ '\n') {s : List Char} :
    throughOnLine c s = some s.length → '\n' ∉ s := by
  induction s with
  | nil => exact fun _ => List.not_mem_nil
  | cons d s ih =>
    intro h
    rw [throughOnLine] at h
    rw [List.mem_cons, not_or]
    split at h
    · rename_i hd
      have hs : s = [] := by simpa using h
      exact ⟨fun he => hc (hd.symm.trans he.symm), hs ▸ List.not_mem_nil⟩
    · split at h
      · cases h
      · rename_i hd
        obtain ⟨k, hk, he⟩ := Option.map_eq_some_iff.mp h
        obtain rfl : k = s.length := Nat.succ.inj he
        exact ⟨Ne.symm hd, ih hk⟩

theorem not_mem_of_charTail {s : List Char} (h : Pattern.charTail s = some s.length) : '\n' ∉ s := by
  cases s with
  | nil => cases h
  | cons c s =>
    by_cases hc : c = '\\'
    · subst hc
      rw [Pattern.charTail_escape] at h
      obtain ⟨k, hk, he⟩ := Option.map_eq_some_iff.mp h
      obtain rfl : k = s.length := Nat.succ.inj he
      rw [List.mem_cons, not_or]
      exact ⟨by decide, not_mem_of_throughOnLine (by decide) hk⟩
    · rw [Pattern.charTail_cons hc] at h
      split at h
      · rename_i hchar
        obtain ⟨hhead, -, hfeed⟩ := hchar
        obtain ⟨v, rfl⟩ := List.head?_eq_some_iff.mp hhead
        obtain rfl : v = [] := by simpa using h
        simp [Ne.symm hfeed]
      · cases h

variable {s : List Char} {ts : List Token} {t : Token} {pos i : Nat}

theorem Cuts.not_mem_char (h : Cuts pos s ts) : ∀ t ∈ ts, t.cls = .char → '\n' ∉ t.text := by
  have hpattern : ∀ r ∈ Mode.group.rules, r.effect = .emit .char → r.pattern = .char := by decide
  induction h with
  | nil => exact nofun
  | blank _ _ ih => exact ih
  | @piece pos u s r cls ts _ htakes hemit _ _ ih =>
    rw [List.forall_mem_cons]
    refine ⟨?_, ih⟩
    rintro rfl
    have hlength := htakes.matched
    rw [hpattern r htakes.mem hemit] at hlength
    replace hlength := (Pattern.length?_append_iff rfl (Nat.le_refl _)).mp hlength
    obtain ⟨v, rfl⟩ := Pattern.lead_isPrefix hlength
    obtain ⟨k, hk, he⟩ := Option.map_eq_some_iff.mp hlength
    obtain rfl : k = v.length := Nat.succ.inj he
    exact List.not_mem_cons_of_ne_of_not_mem (by decide) (not_mem_of_charTail hk)

/-- The last character of a literal ends no line. -/
theorem IsLiteral.exists_last {v : List Char} (h : IsLiteral v) :
    ∃ w c, v = w ++ [c] ∧ c ≠ '\n' := by
  obtain ⟨⟨-, hlast⟩, hne⟩ := h.trimmed
  refine ⟨_, _, (List.dropLast_append_getLast hne).symm, ne_newline_of_isBlank (hlast _ ?_)⟩
  exact List.getLast?_eq_getLast_of_ne_nil hne

/-- A literal is counted for the lines that start inside it. -/
theorem Cuts.lineStart_iff (h : Cuts 0 s ts) (ht : t ∈ ts) (hliteral : t.cls.isLiteral = true) :
    (s.take t.pos).count '\n' < i ∧ i ≤ (s.take t.pos).count '\n' + t.text.count '\n' ↔
      t.pos < lineStart s i ∧ lineStart s i < t.stop := by
  obtain ⟨w, c, htext, hc⟩ := (h.isLiteral t ht hliteral).exists_last
  obtain ⟨a, b, hs, hpos⟩ := h.exists_split t ht
  rw [Nat.zero_add] at hpos
  have hstop : t.stop = (a ++ w).length + 1 := by
    rw [Token.stop, hpos, htext]
    simp only [List.length_append, List.length_singleton, Nat.add_assoc]
  have hcount : t.text.count '\n' = w.count '\n' := by
    rw [htext, List.count_append, List.count_singleton, if_neg (by simpa using hc), Nat.add_zero]
  have hsplit : s = (a ++ w) ++ ([c] ++ b) := by
    rw [hs, htext, List.append_assoc, List.append_assoc]
  have hfront : s.take t.pos = a := by rw [hs, hpos, List.take_left]
  have hbefore : lineStart s i ≤ a.length ↔ i ≤ a.count '\n' := by
    rw [lineStart_le_iff (by simp [hs]), ← hpos, hfront]
  have hinside : lineStart s i ≤ (a ++ w).length ↔ i ≤ a.count '\n' + w.count '\n' := by
    rw [lineStart_le_iff (by simp [hsplit]), hsplit, List.take_left, List.count_append]
  rw [hfront, hcount, hpos, hstop, ← not_le, ← hbefore, ← hinside, not_le, Nat.lt_succ_iff]

/-- The literals of the text are those at some level of what lexing finds. -/
theorem Cuts.exists_level_iff (h : Cuts 0 s ts) (hliteral : t.cls.isLiteral = true) :
    (∃ d, (d, t) ∈ Item.leveledAll 0 (lex .expression s)) ↔ t ∈ ts := by
  rw [← h.mem_expressionTokens hliteral, expressionTokens, ← Item.map_leveledAll 0]
  simp

theorem Cuts.stop_le (h : Cuts 0 s ts) (ht : t ∈ ts) : t.stop ≤ s.length := by
  obtain ⟨a, b, rfl, hpos⟩ := h.exists_split t ht
  rw [Token.stop, hpos]
  simp only [List.length_append]
  omega

/-- The lines that count as literal are those after the first whose first position is inside a string
or a raw string, behind its start and in front of its end, whatever brackets are around it. -/
theorem mem_literalLines_iff (s : List Char) (i : Nat) : i ∈ literalLines s ↔
    1 ≤ i ∧ i < (lines s).length ∧ ∃ d t, (d, t) ∈ Item.leveledAll 0 (lex .expression s) ∧
      (t.cls = .string ∨ t.cls = .rawString) ∧ t.pos < lineStart s i ∧ lineStart s i < t.stop := by
  obtain ⟨ts, hcuts, -⟩ := cuts_lex s
  rw [hcuts.mem_literalLines]
  constructor
  · rintro ⟨t, ht, hliteral, hline⟩
    obtain ⟨hstart, hstop⟩ := (hcuts.lineStart_iff ht hliteral).mp hline
    obtain ⟨d, hd⟩ := (hcuts.exists_level_iff hliteral).mpr ht
    have hin := lt_length_lines (Nat.le_trans (Nat.le_of_lt hstop) (hcuts.stop_le ht))
    -- No line starts in a character, as it has no line feed.
    have hcls : t.cls ≠ .char := by
      intro hchar
      have hcount := List.count_eq_zero.mpr (hcuts.not_mem_char t ht hchar)
      omega
    have hstring : t.cls = .string ∨ t.cls = .rawString := by
      revert hliteral hcls
      cases t.cls <;> decide
    exact ⟨Nat.one_le_of_lt hline.1, hin, d, t, hd, hstring, hstart, hstop⟩
  · rintro ⟨-, -, d, t, hd, hstring, hinside⟩
    have hliteral : t.cls.isLiteral = true := by
      rcases hstring with hcls | hcls <;> rw [hcls] <;> rfl
    have ht := (hcuts.exists_level_iff hliteral).mp ⟨d, hd⟩
    exact ⟨t, ht, hliteral, (hcuts.lineStart_iff ht hliteral).mpr hinside⟩

end BlockMarkup
