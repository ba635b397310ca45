import BlockMarkup.Proofs.Token.Bound
import BlockMarkup.Token.Lexer

/-!
# BlockMarkup.Proofs.Token.Scan

Lexing as a relation, without fuel:

* `Scans m c items stop`: the context of mode `m` that starts at `c` holds `items`, and lexing goes
  on at `stop`. `Lexer.scan` computes it (`scans_scan`), and it is a function of `m` and `c`.
* `Reads m c items c'`: in mode `m`, lexing from `c` finds `items` and is at `c'` then, still in the
  same context. `Reads` composes, and with a `Scans` at its end it makes a `Scans`.
-/

namespace BlockMarkup

namespace Mode.Hit

/-- The items that a match at `c` adds to its context. -/
def items (h : Hit) (c : Cursor) : List Item :=
  c.take h.skipped .stray ++ (c.advance h.skipped).emit h.length h.rule.effect

/-- The place after a match at `c`. -/
def after (h : Hit) (c : Cursor) : Cursor := (c.advance h.skipped).advance h.length

theorem after_rest (h : Hit) (c : Cursor) : (h.after c).rest = c.rest.drop (h.skipped + h.length) := by
  simp [after, Cursor.advance, List.drop_drop]

theorem after_pos (h : Hit) (c : Cursor) : (h.after c).pos = c.pos + h.skipped + h.length := rfl

end Mode.Hit

inductive Scans : Mode → Cursor → List Item → Cursor → Prop where
  | stop {m : Mode} {c : Cursor} : m.search c.rest = none →
      Scans m c (c.take c.rest.length .stray) (c.advance c.rest.length)
  | stay {m : Mode} {c stop : Cursor} {h : Mode.Hit} {items : List Item} :
      m.search c.rest = some h → h.rule.move = .stay → Scans m (h.after c) items stop →
      Scans m c (h.items c ++ items) stop
  | pop {m : Mode} {c : Cursor} {h : Mode.Hit} :
      m.search c.rest = some h → h.rule.move = .pop → Scans m c (h.items c) (h.after c)
  | push {m inner : Mode} {c back stop : Cursor} {h : Mode.Hit} {sub items : List Item} :
      m.search c.rest = some h → h.rule.move = .push inner → Scans inner (h.after c) sub back →
      Scans m back items stop → Scans m c (h.items c ++ Item.nested inner sub ++ items) stop

namespace Scans

theorem deterministic {m : Mode} {c stop₁ stop₂ : Cursor} {items₁ items₂ : List Item}
    (h₁ : Scans m c items₁ stop₁) (h₂ : Scans m c items₂ stop₂) :
    items₁ = items₂ ∧ stop₁ = stop₂ := by
  induction h₁ generalizing items₂ stop₂ with
  | stop hs =>
    cases h₂ with
    | stop _ => exact ⟨rfl, rfl⟩
    | stay hs' _ _ => rw [hs] at hs'; cases hs'
    | pop hs' _ => rw [hs] at hs'; cases hs'
    | push hs' _ _ _ => rw [hs] at hs'; cases hs'
  | stay hs hm _ ih =>
    cases h₂ with
    | stop hs' => rw [hs] at hs'; cases hs'
    | stay hs' _ h' =>
      rw [hs] at hs'; cases hs'
      obtain ⟨rfl, rfl⟩ := ih h'
      exact ⟨rfl, rfl⟩
    | pop hs' hm' => rw [hs] at hs'; cases hs'; rw [hm] at hm'; cases hm'
    | push hs' hm' _ _ => rw [hs] at hs'; cases hs'; rw [hm] at hm'; cases hm'
  | pop hs hm =>
    cases h₂ with
    | stop hs' => rw [hs] at hs'; cases hs'
    | stay hs' hm' _ => rw [hs] at hs'; cases hs'; rw [hm] at hm'; cases hm'
    | pop hs' _ => rw [hs] at hs'; cases hs'; exact ⟨rfl, rfl⟩
    | push hs' hm' _ _ => rw [hs] at hs'; cases hs'; rw [hm] at hm'; cases hm'
  | push hs hm _ _ ihs ih =>
    cases h₂ with
    | stop hs' => rw [hs] at hs'; cases hs'
    | stay hs' hm' _ => rw [hs] at hs'; cases hs'; rw [hm] at hm'; cases hm'
    | pop hs' hm' => rw [hs] at hs'; cases hs'; rw [hm] at hm'; cases hm'
    | push hs' hm' hsub' h' =>
      rw [hs] at hs'; cases hs'
      rw [hm] at hm'; cases hm'
      obtain ⟨rfl, rfl⟩ := ihs hsub'
      obtain ⟨rfl, rfl⟩ := ih h'
      exact ⟨rfl, rfl⟩

/-- Lexing never goes back. -/
theorem rest_suffix {m : Mode} {c stop : Cursor} {items : List Item} (h : Scans m c items stop) :
    stop.rest <:+ c.rest := by
  induction h with
  | stop _ => exact List.drop_suffix _ _
  | stay _ _ _ ih => exact ih.trans (Mode.Hit.after_rest _ _ ▸ List.drop_suffix _ _)
  | pop _ _ => exact Mode.Hit.after_rest _ _ ▸ List.drop_suffix _ _
  | push _ _ _ _ ihs ih => exact (ih.trans ihs).trans (Mode.Hit.after_rest _ _ ▸ List.drop_suffix _ _)

end Scans

/-- A match that does not leave the mode moves on. -/
theorem Mode.Hit.after_lt {m : Mode} {c : Cursor} {h : Mode.Hit} (hs : m.search c.rest = some h)
    (hm : h.rule.move ≠ .pop) : (h.after c).rest.length < c.rest.length := by
  have hsound := Mode.search_sound hs
  have hpos := Pattern.length?_pos (m.looksAhead_rules _ hsound.mem hm) hsound.matched
  have hle := hsound.le
  rw [after_rest, List.length_drop]
  omega

namespace Lexer

/-- With fuel beyond the length of the text, `scan` computes `Scans`. -/
theorem scans_scan {fuel : Nat} {m : Mode} {c : Cursor} (hf : c.rest.length < fuel) :
    Scans m c (scan fuel m c).1 (scan fuel m c).2 := by
  induction fuel generalizing m c with
  | zero => omega
  | succ fuel ih =>
    simp only [scan]
    split
    · rename_i hs
      exact .stop hs
    · rename_i h hs
      split
      · rename_i hm
        have hlt := Mode.Hit.after_lt hs (by rw [hm]; exact nofun)
        exact .stay hs hm (ih (c := h.after c) (by omega))
      · rename_i hm
        exact .pop hs hm
      · rename_i inner hm
        have hlt := Mode.Hit.after_lt hs (by rw [hm]; exact nofun)
        have hsub := ih (m := inner) (c := h.after c) (by omega)
        have hback := hsub.rest_suffix.length_le
        exact .push hs hm hsub (ih (by omega))

end Lexer

/-! ## A whole text -/

/-- A mode that no rule leaves. -/
def Mode.IsBottom (m : Mode) : Prop := ∀ r ∈ m.rules, r.move ≠ .pop

theorem isBottom_root : Mode.root.IsBottom := by unfold Mode.IsBottom; decide

theorem isBottom_expression : Mode.expression.IsBottom := by unfold Mode.IsBottom; decide

theorem Scans.rest_of_isBottom {m : Mode} {c stop : Cursor} {items : List Item}
    (h : Scans m c items stop) (hm : m.IsBottom) : stop.rest = [] := by
  induction h with
  | stop _ => simp [Cursor.advance]
  | stay _ _ _ ih => exact ih hm
  | pop hs hmove => exact absurd hmove (hm _ (Mode.search_sound hs).mem)
  | push _ _ _ _ _ ih => exact ih hm

theorem Scans.of_rest_nil {m : Mode} {c stop : Cursor} {items : List Item}
    (h : Scans m c items stop) (hc : c.rest = []) : items = [] ∧ stop.rest = [] := by
  have hs : m.search c.rest = none := by rw [hc]; rfl
  obtain ⟨rfl, rfl⟩ := h.deterministic (.stop hs)
  simp [Cursor.take, Cursor.advance, hc]

theorem Lexer.resume_of_rest_nil {fuel : Nat} {m : Mode} {c : Cursor} (h : c.rest = []) :
    resume fuel m c = [] := by
  cases fuel with
  | zero => rfl
  | succ fuel => simp [resume, h]

theorem scans_lex {m : Mode} (hm : m.IsBottom) (text : List Char) :
    ∃ stop, Scans m (Cursor.start text) (lex m text) stop ∧ stop.rest = [] := by
  have h : Scans m (Cursor.start text) (Lexer.scan (text.length + 1) m (Cursor.start text)).1
      (Lexer.scan (text.length + 1) m (Cursor.start text)).2 :=
    Lexer.scans_scan (Nat.lt_succ_self _)
  have hnil := h.rest_of_isBottom hm
  refine ⟨_, ?_, hnil⟩
  have hlex : lex m text = (Lexer.scan (text.length + 1) m (Cursor.start text)).1 := by
    cases text with
    | nil => exact (h.of_rest_nil rfl).1.symm
    | cons a t =>
      have hlt : (Lexer.scan ((a :: t).length + 1) m (Cursor.start (a :: t))).2.rest.length <
          (Cursor.start (a :: t)).rest.length := by
        rw [hnil]
        exact Nat.succ_pos _
      show Lexer.resume ((a :: t).length + 1) m (Cursor.start (a :: t)) = _
      simp only [Lexer.resume, Cursor.start] at hnil hlt ⊢
      simp only [hlt, if_true, Lexer.resume_of_rest_nil hnil, List.append_nil]
  rw [hlex]
  exact h

/-- A text is lexed as `Scans` says. -/
theorem lex_eq_of_scans {m : Mode} (hm : m.IsBottom) {text : List Char} {items : List Item}
    {stop : Cursor} (h : Scans m (Cursor.start text) items stop) : lex m text = items := by
  obtain ⟨stop', h', -⟩ := scans_lex hm text
  exact (h'.deterministic h).1

/-! ## Parts of a context -/

namespace Cursor

theorem advance_zero (c : Cursor) : c.advance 0 = c := by simp [advance]

theorem take_zero (c : Cursor) (cls : TokenClass) : c.take 0 cls = [] := by simp [take]

theorem take_eq (c : Cursor) {n : Nat} (cls : TokenClass) (h0 : 0 < n) (hn : n ≤ c.rest.length) :
    c.take n cls = [.token ⟨c.pos, c.rest.take n, cls⟩] := by
  unfold take
  split
  · rename_i h
    have := congrArg List.length h
    rw [List.length_take, List.length_nil] at this
    omega
  · rfl

end Cursor

theorem Mode.search_of_first {m : Mode} {s : List Char} {n : Nat} {r : Rule} (hne : s ≠ [])
    (h : Rule.first? m.rules s = some (n, r)) : m.search s = some ⟨0, n, r⟩ := by
  cases s with
  | nil => exact absurd rfl hne
  | cons c s => simp [Mode.search, h]

/-- In mode `m`, lexing from `c` finds `items` and is at `c'` then, in the same context. -/
def Reads (m : Mode) (c : Cursor) (items : List Item) (c' : Cursor) : Prop :=
  ∀ more stop, Scans m c' more stop → Scans m c (items ++ more) stop

namespace Reads

variable {m : Mode} {c c' c'' : Cursor} {is js : List Item}

theorem refl : Reads m c [] c := fun _ _ h => h

theorem trans (h₁ : Reads m c is c') (h₂ : Reads m c' js c'') : Reads m c (is ++ js) c'' := by
  intro more stop h
  rw [List.append_assoc]
  exact h₁ _ _ (h₂ _ _ h)

theorem stay {n : Nat} {r : Rule} (hne : c.rest ≠ []) (h : Rule.first? m.rules c.rest = some (n, r))
    (hm : r.move = .stay) : Reads m c (c.emit n r.effect) (c.advance n) := by
  intro more stop hs
  have hstay := Scans.stay (Mode.search_of_first hne h) hm
    (by simpa [Mode.Hit.after, Cursor.advance_zero] using hs)
  simpa [Mode.Hit.items, Cursor.take_zero, Cursor.advance_zero] using hstay

theorem push {n : Nat} {r : Rule} {inner : Mode} {sub : List Item} (hne : c.rest ≠ [])
    (h : Rule.first? m.rules c.rest = some (n, r)) (hm : r.move = .push inner)
    (hsub : Scans inner (c.advance n) sub c') :
    Reads m c (c.emit n r.effect ++ Item.nested inner sub) c' := by
  intro more stop hs
  have hpush := Scans.push (Mode.search_of_first hne h) hm
    (by simpa [Mode.Hit.after, Cursor.advance_zero] using hsub) hs
  simpa [Mode.Hit.items, Cursor.take_zero, Cursor.advance_zero] using hpush

end Reads

theorem Scans.leave {m : Mode} {c : Cursor} {n : Nat} {r : Rule} (hne : c.rest ≠ [])
    (h : Rule.first? m.rules c.rest = some (n, r)) (hm : r.move = .pop) :
    Scans m c (c.emit n r.effect) (c.advance n) := by
  have hpop := Scans.pop (Mode.search_of_first hne h) hm
  simpa [Mode.Hit.items, Mode.Hit.after, Cursor.take_zero, Cursor.advance_zero] using hpop

/-! ## A match of a known text -/

namespace Cursor

theorem advance_append {c : Cursor} {u s : List Char} (h : c.rest = u ++ s) :
    c.advance u.length = ⟨c.pos + u.length, s⟩ := by
  rw [advance, h, List.drop_left]

theorem take_append {c : Cursor} {u s : List Char} (cls : TokenClass) (h : c.rest = u ++ s)
    (hne : u ≠ []) : c.take u.length cls = [.token ⟨c.pos, u, cls⟩] := by
  rw [take_eq c cls (List.length_pos_iff.mpr hne) (by rw [h, List.length_append]; omega), h,
    List.take_left]

end Cursor

section

variable {m inner : Mode} {c c' : Cursor} {u s : List Char} {r : Rule} {cls : TokenClass}
  {sub : List Item}

theorem Cursor.rest_ne_nil (h : c.rest = u ++ s) (hne : u ≠ []) : c.rest ≠ [] := by
  rw [h]
  exact List.append_ne_nil_of_left_ne_nil hne s

theorem Reads.skip_text (h : c.rest = u ++ s) (hne : u ≠ [])
    (hfirst : Rule.first? m.rules (u ++ s) = some (u.length, r)) (hskip : r.effect = .skip)
    (hmove : r.move = .stay) : Reads m c [] ⟨c.pos + u.length, s⟩ := by
  rw [← h] at hfirst
  have hreads := Reads.stay (Cursor.rest_ne_nil h hne) hfirst hmove
  rw [hskip, Cursor.advance_append h] at hreads
  exact hreads

theorem Reads.stay_text (h : c.rest = u ++ s) (hne : u ≠ [])
    (hfirst : Rule.first? m.rules (u ++ s) = some (u.length, r)) (hemit : r.effect = .emit cls)
    (hmove : r.move = .stay) : Reads m c [.token ⟨c.pos, u, cls⟩] ⟨c.pos + u.length, s⟩ := by
  rw [← h] at hfirst
  have hreads := Reads.stay (Cursor.rest_ne_nil h hne) hfirst hmove
  rw [hemit, Cursor.emit, Cursor.take_append cls h hne, Cursor.advance_append h] at hreads
  exact hreads

theorem Reads.push_text (h : c.rest = u ++ s) (hne : u ≠ [])
    (hfirst : Rule.first? m.rules (u ++ s) = some (u.length, r)) (hemit : r.effect = .emit cls)
    (hmove : r.move = .push inner) (hsub : Scans inner ⟨c.pos + u.length, s⟩ sub c') :
    Reads m c (.token ⟨c.pos, u, cls⟩ :: Item.nested inner sub) c' := by
  rw [← h] at hfirst
  rw [← Cursor.advance_append h] at hsub
  have hreads := Reads.push (Cursor.rest_ne_nil h hne) hfirst hmove hsub
  rw [hemit, Cursor.emit, Cursor.take_append cls h hne] at hreads
  exact hreads

theorem Scans.leave_text (h : c.rest = u ++ s) (hne : u ≠ [])
    (hfirst : Rule.first? m.rules (u ++ s) = some (u.length, r)) (hemit : r.effect = .emit cls)
    (hmove : r.move = .pop) :
    Scans m c [.token ⟨c.pos, u, cls⟩] ⟨c.pos + u.length, s⟩ := by
  rw [← h] at hfirst
  have hscans := Scans.leave (Cursor.rest_ne_nil h hne) hfirst hmove
  rw [hemit, Cursor.emit, Cursor.take_append cls h hne, Cursor.advance_append h] at hscans
  exact hscans

/-- A context is left in front of what is ahead. -/
theorem Scans.leave_ahead (hne : c.rest ≠ []) (hfirst : Rule.first? m.rules c.rest = some (0, r))
    (hskip : r.effect = .skip) (hmove : r.move = .pop) : Scans m c [] c := by
  have hscans := Scans.leave hne hfirst hmove
  rw [hskip, Cursor.advance_zero] at hscans
  exact hscans

end
end BlockMarkup
