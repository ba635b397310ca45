import BlockMarkup.Proofs.Document.Accept
import BlockMarkup.Proofs.Document.Onward

/-!
# BlockMarkup.Proofs.Document.Joined

A text with more lines behind it. If its tokens are in order and none of them is an opening mark that
waits for its closing mark, they stay as they are (`Scans.reads_onward`).
-/

namespace BlockMarkup

open Text

/-- The token is matched text of a text that ends no opening mark for it: lines behind the text do not
make another token of it. -/
structure Token.Sealed (text : List Char) (t : Token) : Prop where
  matched : t.cls ≠ .stray
  closed : isLoose t.text (text.drop t.stop) = false

namespace Cursor

/-- The same place, with more lines behind the text. -/
def onward (c : Cursor) (b : List Char) : Cursor := ⟨c.pos, c.rest ++ '\n' :: b⟩

variable {c : Cursor} {n : Nat}

theorem advance_onward (hn : n ≤ c.rest.length) (b : List Char) :
    (c.onward b).advance n = (c.advance n).onward b := by
  rw [onward, advance, advance, onward, List.drop_append_of_le_length hn]

theorem emit_onward (hn : n ≤ c.rest.length) (e : Effect) (b : List Char) :
    (c.onward b).emit n e = c.emit n e := by
  cases e with
  | skip => rfl
  | emit cls =>
    rw [emit, emit, take, take, onward, List.take_append_of_le_length hn]

theorem onward_ne_nil (c : Cursor) (b : List Char) : (c.onward b).rest ≠ [] :=
  List.append_ne_nil_of_right_ne_nil _ (List.cons_ne_nil _ _)

theorem In.drop_eq {text : List Char} (h : c.In text) : text.drop c.pos = c.rest := by
  obtain ⟨before, rfl, hpos⟩ := h
  rw [hpos, List.drop_left]

theorem In.pos_add {text : List Char} (h : c.In text) : c.pos + c.rest.length = text.length := by
  obtain ⟨before, rfl, hpos⟩ := h
  rw [hpos, List.length_append]

/-- Nothing is left of a text where no stray text is. -/
theorem rest_eq_nil_of_sealed {text : List Char}
    (h : ∀ t ∈ Item.tokensAll (c.take c.rest.length .stray), t.Sealed text) : c.rest = [] := by
  by_contra hne
  have htake := c.take_eq .stray (List.length_pos_iff.mpr hne) (Nat.le_refl _)
  exact (h _ (by rw [htake]; exact List.mem_cons_self)).matched rfl

end Cursor

/-- Something is left to match at a place in a context; in a spread that may be the end of a line. -/
def Mode.GoesOn (m : Mode) (s : List Char) : Prop := s ≠ [] ∧ (m ≠ .spread → ¬ Spent s)

theorem Mode.GoesOn.of_head {m : Mode} {c : Char} {s : List Char} (hb : isBlank c = false)
    (hc : c ≠ '/') : m.GoesOn (c :: s) :=
  ⟨List.cons_ne_nil _ _, fun _ => not_spent_of_head hb hc⟩

/-- What opens or leaves a context is neither white space nor a comment. -/
theorem Mode.goesOn_of_turn {m : Mode} {s : List Char} {n : Nat} {r : Rule}
    (hfirst : Rule.first? m.rules s = some (n, r)) (hturn : r.move ≠ .stay) : m.GoesOn s := by
  obtain ⟨hr, hmatch⟩ := Rule.first?_eq_some hfirst
  obtain ⟨c, t, rfl, hc⟩ := Pattern.opensWith_of_length? hmatch
  have hrules : ∀ m : Mode, ∀ r ∈ m.rules, r.move ≠ .stay → r.pattern.opensWith '/' = false ∧
      (m = .spread ∧ r.pattern = .spreadEnd ∨ r.pattern = .closerAhead ∨
        r.pattern ≠ .blanks ∧ r.pattern ≠ .spaces ∧ r.pattern.looksAhead = false) := by
    intro m
    cases m <;> decide
  obtain ⟨hslash, hkind⟩ := hrules m r hr hturn
  have hne : c ≠ '/' := by
    rintro rfl
    rw [hc] at hslash
    cases hslash
  rcases hkind with ⟨rfl, -⟩ | hahead | ⟨hblanks, hspaces, hahead⟩
  · exact ⟨List.cons_ne_nil _ _, fun hm => absurd rfl hm⟩
  · rw [hahead] at hc
    obtain rfl : c = '\x7d' := of_decide_eq_true hc
    exact .of_head (by decide) hne
  · obtain ⟨d, v, hd, hblank⟩ := Pattern.head_not_blank hblanks hspaces hahead hmatch
    cases hd
    exact .of_head hblank hne

namespace Mode.Hit

/-- Where the lines of `b` come behind the text, the rule `r` takes what the match `h` takes, and does
with it what `h` does. -/
structure Persists (h : Mode.Hit) (m : Mode) (c : Cursor) (b : List Char) (r : Rule) : Prop where
  first : Rule.first? m.rules (c.onward b).rest = some (h.length, r)
  move : r.move = h.rule.move
  items : (c.onward b).emit h.length r.effect = h.items c
  after : (c.onward b).advance h.length = (h.after c).onward b

variable {m : Mode} {c : Cursor} {h : Mode.Hit}

theorem skipped_of_sealed {text : List Char} (hs : m.search c.rest = some h)
    (hitems : ∀ t ∈ Item.tokensAll (h.items c), t.Sealed text) : h.skipped = 0 :=
  skipped_eq_zero hs fun t ht => (hitems t (Item.mem_tokensAll_of_mem ht)).matched

theorem first_of_skipped (hs : m.search c.rest = some h) (hskipped : h.skipped = 0) :
    Rule.first? m.rules c.rest = some (h.length, h.rule) := by
  have hfirst := (Mode.search_sound hs).first
  rwa [hskipped, List.drop_zero] at hfirst

/-- Where something is left behind a match, something is left in front of it. -/
theorem goesOn_of_after (hs : m.search c.rest = some h) (hskipped : h.skipped = 0)
    (hgo : m.GoesOn (h.after c).rest) : m.GoesOn c.rest := by
  rw [after_rest, hskipped, Nat.zero_add] at hgo
  refine ⟨?_, fun hm hspent => hgo.2 hm (hspent.drop (first_of_skipped hs hskipped))⟩
  intro hnil
  rw [hnil] at hs
  cases hs

/-- A match stays as it is where more lines come behind the text. -/
theorem onward {text : List Char} (hs : m.search c.rest = some h) (hm : m ≠ .expression) (hc : c.In text)
    (hitems : ∀ t ∈ Item.tokensAll (h.items c), t.Sealed text)
    (hblank : h.rule.pattern = .blanks → (h.after c).rest ≠ [])
    (hstring : m = .element ∨ m = .attribute → h.rule.pattern = .string →
      ¬ Spent (h.after c).rest) (b : List Char) : ∃ r, h.Persists m c b r := by
  have hskipped := skipped_of_sealed hs hitems
  obtain ⟨u, hrest, hu, -, hfirst, hemit⟩ := match_of_start hs hskipped
  have hne : u ++ (h.after c).rest ≠ [] := by
    intro hnil
    rw [hrest, hnil] at hs
    cases hs
  have hle : h.length ≤ c.rest.length := by
    rw [hrest, List.length_append, hu]
    exact Nat.le_add_right _ _
  suffices hr : ∃ r, Rule.first? m.rules (u ++ ((h.after c).rest ++ '\n' :: b)) =
      some (u.length, r) ∧ r.effect = h.rule.effect ∧ r.move = h.rule.move by
    obtain ⟨r, hr, heffect, hmove⟩ := hr
    refine ⟨r, ?_, hmove, ?_, ?_⟩
    · rw [Cursor.onward, hrest, List.append_assoc, hr, hu]
    · rw [heffect, Cursor.emit_onward hle, hemit, hu]
    · rw [Cursor.advance_onward hle, Mode.Hit.after, hskipped, Cursor.advance_zero]
  cases hbody : m.isBody with
  | true =>
    have hlook : ∀ m : Mode, m.isBody = true → ∀ r ∈ m.rules, r.pattern.looksAhead = false := by
      intro m
      cases m <;> decide
    have hmatch := Rule.first?_eq_some hfirst
    have hlength := Pattern.length?_pos (hlook m hbody _ hmatch.1) hmatch.2
    exact ⟨_, Mode.first?_onward_body hbody (List.ne_nil_of_length_pos hlength) hfirst hblank
      (fun he => hstring (.inl he)) b, rfl, rfl⟩
  | false =>
    have hitem : ∀ cls, h.rule.effect = .emit cls →
        u ≠ [] ∧ cls ≠ .stray ∧ isLoose u (h.after c).rest = false := by
      intro cls hcls
      obtain ⟨v, hv, hrest', hpos, -, htoken⟩ := token_of_start hs hcls hskipped
      obtain rfl : u = v := List.append_cancel_right (hrest.symm.trans hrest')
      have hsealed := hitems ⟨c.pos, u, cls⟩ (by rw [htoken]; exact List.mem_cons_self)
      refine ⟨hv, hsealed.matched, ?_⟩
      rw [← (in_after hs hc).drop_eq, hpos]
      exact hsealed.closed
    refine Mode.first?_onward_value hbody hm hne hfirst hitem hblank fun he => ?_
    subst he
    exact Mode.lastString_onward hne hfirst (fun he => (hitem _ he).2.1 rfl) (hstring (.inr rfl)) b

theorem onward_of_turn {text : List Char} (hs : m.search c.rest = some h) (hm : m ≠ .expression)
    (hc : c.In text) (hitems : ∀ t ∈ Item.tokensAll (h.items c), t.Sealed text)
    (hturn : h.rule.move ≠ .stay) (b : List Char) :
    m.GoesOn c.rest ∧ ∃ r, h.Persists m c b r := by
  have hrules : ∀ m : Mode, ∀ r ∈ m.rules, r.move ≠ .stay →
      r.pattern ≠ .blanks ∧ r.pattern ≠ .string := by
    intro m
    cases m <;> decide
  obtain ⟨hblanks, hstring⟩ := hrules m _ (Mode.search_sound hs).mem hturn
  exact ⟨Mode.goesOn_of_turn (first_of_skipped hs (skipped_of_sealed hs hitems)) hturn,
    onward hs hm hc hitems (fun hp => absurd hp hblanks) (fun _ hp => absurd hp hstring) b⟩

end Mode.Hit

/-- No rule goes to the mode of a whole text. -/
theorem Mode.inner_of_push (m inner : Mode) : ∀ r ∈ m.rules, r.move = .push inner →
    inner ≠ .root ∧ inner ≠ .expression := by
  cases m <;> cases inner <;> decide

/-- A context ends with its text, or it stays as it is where more lines come behind the text. -/
theorem Scans.onward {m : Mode} {c stop : Cursor} {items : List Item} {text : List Char}
    (h : Scans m c items stop) (hroot : m ≠ .root) (hexpression : m ≠ .expression) (hc : c.In text)
    (hitems : ∀ t ∈ Item.tokensAll items, t.Sealed text) (b : List Char) :
    Formed m items false ∧ stop.rest = [] ∨
      m.GoesOn c.rest ∧ Scans m (c.onward b) items (stop.onward b) := by
  induction h with
  | @stop m c hs =>
    have hnil := Cursor.rest_eq_nil_of_sealed hitems
    rw [hnil, List.length_nil, Cursor.take_zero, Cursor.advance_zero]
    exact .inl ⟨.stop, hnil⟩
  | @stay m c stop h items hs hmove hrest ih =>
    rw [Item.tokensAll_append] at hitems
    obtain ⟨hown, hmore⟩ := List.forall_mem_append.mp hitems
    rcases ih hroot hexpression (Mode.Hit.in_after hs hc) hmore with ⟨hf, hstop⟩ | ⟨hgo, hscan⟩
    · exact .inl ⟨.stay_hit hs hmove hf, hstop⟩
    · obtain ⟨r, hr⟩ := Mode.Hit.onward hs hexpression hc hown (fun _ => hgo.1)
        (fun hm _ => hgo.2 (by rintro rfl; simp at hm)) b
      have hreads := Reads.stay (c.onward_ne_nil b) hr.first (hr.move.trans hmove)
      rw [hr.items, hr.after] at hreads
      exact .inr ⟨Mode.Hit.goesOn_of_after hs (Mode.Hit.skipped_of_sealed hs hown) hgo,
        hreads _ _ hscan⟩
  | @pop m c h hs hmove =>
    obtain ⟨hgo, r, hr⟩ := Mode.Hit.onward_of_turn hs hexpression hc hitems (by simp [hmove]) b
    have hleave := Scans.leave (c.onward_ne_nil b) hr.first (hr.move.trans hmove)
    rw [hr.items, hr.after] at hleave
    exact .inr ⟨hgo, hleave⟩
  | @push m inner c back stop h sub items hs hmove hsub hrest ihsub ih =>
    rw [Item.tokensAll_append, Item.tokensAll_append, Item.tokensAll_nested] at hitems
    obtain ⟨hfront, hmore⟩ := List.forall_mem_append.mp hitems
    obtain ⟨hown, hinside⟩ := List.forall_mem_append.mp hfront
    have hinner := m.inner_of_push inner _ (Mode.search_sound hs).mem hmove
    have hin := Mode.Hit.in_after hs hc
    rcases ihsub hinner.1 hinner.2 hin hinside with ⟨hf, hback⟩ | ⟨-, hscansub⟩
    · -- The text ends inside the inner context.
      obtain ⟨rfl, hstop⟩ := hrest.of_rest_nil hback
      exact .inl ⟨.push_hit hs hmove hsub hf (fun _ => ⟨rfl, rfl⟩) .stop, hstop⟩
    rcases ih hroot hexpression (hsub.located hin).1 hmore with ⟨hf, hstop⟩ | ⟨-, hscan⟩
    · obtain ⟨subLeft, hfsub, hback⟩ := hsub.formed
      exact .inl ⟨.push_hit hs hmove hsub hfsub
        (fun hleft => ⟨(hrest.of_rest_nil (hback hleft)).1, rfl⟩) hf, hstop⟩
    · obtain ⟨hgo, r, hr⟩ := Mode.Hit.onward_of_turn hs hexpression hc hown (by simp [hmove]) b
      rw [← hr.after] at hscansub
      have hreads := Reads.push (c.onward_ne_nil b) hr.first (hr.move.trans hmove) hscansub
      rw [hr.items] at hreads
      exact .inr ⟨hgo, hreads _ _ hscan⟩

/-- What a whole text opens in order was left by a match. -/
theorem Formed.left_of_sound {inner : Mode} {t : Token} {sub : List Item} {left : Bool}
    (h : Formed inner sub left) (hopens : Opens .root t inner) (hsound : SoundToken .root t sub) :
    left = true := by
  rw [soundToken_iff_of_opens rfl hopens] at hsound
  cases hopens with
  | decorator _ _ _ => exact h.closed_decoration_iff.mp hsound
  | brace _ _ _ => exact (h.closed_iff (.inr (.inr rfl))).mp hsound.1
  | tag _ _ _ _ => exact (h.closed_iff (.inl rfl)).mp hsound
  | path _ _ _ _ _ => exact (h.closed_iff (.inr (.inl rfl))).mp hsound
  | name hm _ _ _ => rcases hm with hm | hm <;> cases hm
  | group hm _ _ => cases hm

/-- In order, the tokens of a whole text stay as they are where more lines come behind it. White space
at the end of the text goes on there. -/
theorem Scans.reads_onward {m : Mode} {c stop : Cursor} {items : List Item} {text : List Char}
    (h : Scans m c items stop) (hm : m = .root) (hc : c.In text)
    (hsound : ∀ p ∈ Item.opened items, SoundToken .root p.1 p.2)
    (hitems : ∀ t ∈ Item.tokensAll items, t.Sealed text) (b : List Char) :
    ∃ p w, p + w.length = text.length ∧ (∀ x ∈ w, isBlank x = true) ∧
      Reads .root (c.onward b) items ⟨p, w ++ '\n' :: b⟩ := by
  induction h with
  | @stop m c hs =>
    have hnil := Cursor.rest_eq_nil_of_sealed hitems
    refine ⟨c.pos, [], ?_, List.forall_mem_nil _, ?_⟩
    · rw [← hc.pos_add, hnil]
    · rw [hnil, List.length_nil, Cursor.take_zero, Cursor.onward, hnil]
      exact .refl
  | @stay m c stop h items hs hmove hrest ih =>
    subst hm
    rw [Item.tokensAll_append] at hitems
    obtain ⟨hown, hmore⟩ := List.forall_mem_append.mp hitems
    have hskipped := Mode.Hit.skipped_of_sealed hs hown
    by_cases hend : h.rule.pattern = .blanks ∧ (h.after c).rest = []
    · -- White space up to the end of the text.
      obtain ⟨hpattern, hnil⟩ := hend
      obtain ⟨rfl, -⟩ := hrest.of_rest_nil hnil
      have hskip : h.items c = [] := by
        have hrules : ∀ r ∈ Mode.root.rules, r.pattern = .blanks → r.effect = .skip := by decide
        rcases Mode.Hit.items_of_skipped hs hskipped with ⟨-, he⟩ | ⟨t, -, hmakes⟩
        · exact he
        · have heffect := hmakes.effect
          rw [hrules _ hmakes.mem hpattern] at heffect
          cases heffect
      refine ⟨c.pos, c.rest, hc.pos_add, ?_, ?_⟩
      · have hmatch := (Rule.first?_eq_some (Mode.Hit.first_of_skipped hs hskipped)).2
        rw [hpattern] at hmatch
        rw [Mode.Hit.after_rest, List.drop_eq_nil_iff] at hnil
        have hle := (Mode.search_sound hs).le
        have hlength : c.rest.length = h.length := by omega
        refine (Lexeme.takeWhile_eq_of_length (t := []) ?_).1
        rw [List.append_nil, hlength, ← (Pattern.many_eq_some.mp hmatch).1]
      · rw [hskip]
        exact .refl
    · obtain ⟨r, hr⟩ := Mode.Hit.onward hs (by decide) hc hown
        (fun hp hnil => hend ⟨hp, hnil⟩) (by simp) b
      have hreads := Reads.stay (c.onward_ne_nil b) hr.first (hr.move.trans hmove)
      rw [hr.items, hr.after] at hreads
      have hlater : ∀ p ∈ Item.opened items, SoundToken .root p.1 p.2 := by
        obtain ⟨left, hf, -⟩ := hrest.formed
        rcases Mode.Hit.items_of_skipped hs hskipped with ⟨-, he⟩ | ⟨t, he, -⟩ <;> rw [he] at hsound
        · exact hsound
        · rw [List.singleton_append, opened_token hf.startsWithToken] at hsound
          exact fun p hp => hsound p (List.mem_cons_of_mem _ hp)
      obtain ⟨p, w, hpos, hw, hreads'⟩ := ih rfl (Mode.Hit.in_after hs hc) hlater hmore
      exact ⟨p, w, hpos, hw, hreads.trans hreads'⟩
  | @pop m c h hs hmove =>
    subst hm
    exact absurd hmove (isBottom_root _ (Mode.search_sound hs).mem)
  | @push m inner c back stop h sub items hs hmove hsub hrest ihsub ih =>
    subst hm
    rw [Item.tokensAll_append, Item.tokensAll_append, Item.tokensAll_nested] at hitems
    obtain ⟨hfront, hmore⟩ := List.forall_mem_append.mp hitems
    obtain ⟨hown, hinside⟩ := List.forall_mem_append.mp hfront
    have hin := Mode.Hit.in_after hs hc
    obtain ⟨left, hf, -⟩ := hrest.formed
    obtain ⟨t, he, hmakes⟩ : ∃ t, h.items c = [.token t] ∧ Mode.root.Makes h.rule t := by
      rcases Mode.Hit.items_of_skipped hs (Mode.Hit.skipped_of_sealed hs hown) with ⟨he, -⟩ | he
      · exact absurd he (Mode.emits_of_push _ inner _ (Mode.search_sound hs).mem hmove)
      · exact he
    rw [he, List.append_assoc, List.singleton_append, opened_push hf.startsWithToken] at hsound
    obtain ⟨hroot, hexpression⟩ := Mode.inner_of_push _ inner _ hmakes.mem hmove
    rcases hsub.onward hroot hexpression hin hinside b with ⟨hfsub, -⟩ | ⟨-, hscansub⟩
    · have hleft := hfsub.left_of_sound (opens_of_makes hmove hmakes) (hsound _ List.mem_cons_self)
      cases hleft
    · obtain ⟨-, r, hr⟩ := Mode.Hit.onward_of_turn hs (by decide) hc hown (by simp [hmove]) b
      rw [← hr.after] at hscansub
      have hreads := Reads.push (c.onward_ne_nil b) hr.first (hr.move.trans hmove) hscansub
      rw [hr.items] at hreads
      obtain ⟨p, w, hpos, hw, hreads'⟩ := ih rfl (hsub.located hin).1
        (fun p hp => hsound p (List.mem_cons_of_mem _ hp)) hmore
      exact ⟨p, w, hpos, hw, hreads.trans hreads'⟩

end BlockMarkup
