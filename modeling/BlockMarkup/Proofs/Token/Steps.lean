import BlockMarkup.Proofs.Expression.Nesting

/-!
# BlockMarkup.Proofs.Token.Steps

Lexing step by step. A `Step` is a mode and a place where the lexer searches once; `Step.stretches` are
the parts of the text that it takes there, tokens and what is passed over in silence.
`Logged m c items stop log` is `Scans` with the steps that were made, in the order of time.
-/

namespace BlockMarkup

open Text

/-- A part of a text that lexing takes in one mode: a token, or white space or a comment. -/
structure Stretch where
  mode : Mode
  pos : Nat
  text : List Char
  effect : Effect
deriving DecidableEq, Repr

namespace Stretch

def stop (s : Stretch) : Nat := s.pos + s.text.length

/-- The token that is made of the stretch, if it is not skipped. -/
def token? (s : Stretch) : Option Token :=
  match s.effect with
  | .skip => none
  | .emit cls => some ⟨s.pos, s.text, cls⟩

end Stretch

/-- The stretch of the next `n` characters; no characters make no stretch. -/
def Cursor.stretch (c : Cursor) (m : Mode) (n : Nat) (e : Effect) : List Stretch :=
  if c.rest.take n = [] then [] else [⟨m, c.pos, c.rest.take n, e⟩]

/-- What lexing passes over between the nodes of a body. -/
inductive IsTrivia : List Char → Prop where
  | blanks {w : List Char} : w ≠ [] → (∀ c ∈ w, isBlank c = true) → IsTrivia w
  | lineComment {v : List Char} : '\n' ∉ v → IsTrivia ('/' :: '/' :: v)
  /-- The comment ends with the first mark that can end it. -/
  | blockComment {v : List Char} : ¬ ['*', '/'] <:+: v ++ ['*'] →
      IsTrivia ('/' :: '*' :: (v ++ ['*', '/']))

namespace Lexer

/-- A search of the lexer: in which mode, and from where on. -/
structure Step where
  mode : Mode
  place : Cursor
deriving DecidableEq, Repr

namespace Step

def hit? (s : Step) : Option Mode.Hit := s.mode.search s.place.rest

/-- How many characters the step takes; where nothing is found, it takes all. -/
def taken (s : Step) : Nat :=
  match s.hit? with
  | none => s.place.rest.length
  | some h => h.skipped + h.length

/-- Whether a match of nothing makes the lexer leave the context. -/
def leavesEmpty (s : Step) : Bool :=
  match s.hit? with
  | none => false
  | some h => h.rule.move = .pop && h.length = 0

def stretches (s : Step) : List Stretch :=
  match s.hit? with
  | none => s.place.stretch s.mode s.place.rest.length (.emit .stray)
  | some h => s.place.stretch s.mode h.skipped (.emit .stray) ++
      (s.place.advance h.skipped).stretch s.mode h.length h.rule.effect

end Step

end Lexer

/-- `Scans` with the log of its steps. -/
inductive Logged : Mode → Cursor → List Item → Cursor → List Lexer.Step → Prop where
  | stop {m : Mode} {c : Cursor} : m.search c.rest = none →
      Logged m c (c.take c.rest.length .stray) (c.advance c.rest.length) [⟨m, c⟩]
  | stay {m : Mode} {c stop : Cursor} {h : Mode.Hit} {items : List Item} {log : List Lexer.Step} :
      m.search c.rest = some h → h.rule.move = .stay → Logged m (h.after c) items stop log →
      Logged m c (h.items c ++ items) stop (⟨m, c⟩ :: log)
  | pop {m : Mode} {c : Cursor} {h : Mode.Hit} :
      m.search c.rest = some h → h.rule.move = .pop →
      Logged m c (h.items c) (h.after c) [⟨m, c⟩]
  | push {m inner : Mode} {c back stop : Cursor} {h : Mode.Hit} {sub items : List Item}
      {inside log : List Lexer.Step} :
      m.search c.rest = some h → h.rule.move = .push inner →
      Logged inner (h.after c) sub back inside → Logged m back items stop log →
      Logged m c (h.items c ++ Item.nested inner sub ++ items) stop (⟨m, c⟩ :: (inside ++ log))

/-- The steps of a run are the run with its log. -/
theorem Scans.logged {m : Mode} {c stop : Cursor} {items : List Item} (h : Scans m c items stop) :
    ∃ log, Logged m c items stop log := by
  induction h with
  | stop hs => exact ⟨_, .stop hs⟩
  | stay hs hm _ ih =>
    obtain ⟨log, hlog⟩ := ih
    exact ⟨_, .stay hs hm hlog⟩
  | pop hs hm => exact ⟨_, .pop hs hm⟩
  | push hs hm _ _ ihsub ih =>
    obtain ⟨inside, hinside⟩ := ihsub
    obtain ⟨log, hlog⟩ := ih
    exact ⟨_, .push hs hm hinside hlog⟩

/-! ## Stretches -/

/-- The stretches stand one behind the other from a position on, and together they are the text. -/
inductive Tiles : Nat → List Stretch → List Char → Prop where
  | nil {p : Nat} : Tiles p [] []
  | cons {s : Stretch} {ss : List Stretch} {rest : List Char} : s.text ≠ [] →
      Tiles s.stop ss rest → Tiles s.pos (s :: ss) (s.text ++ rest)

namespace Tiles

variable {p : Nat} {ss ts : List Stretch} {u v : List Char}

theorem append (h : Tiles p ss u) (h' : Tiles (p + u.length) ts v) : Tiles p (ss ++ ts) (u ++ v) := by
  induction h with
  | nil => exact h'
  | @cons s ss rest hne _ ih =>
    rw [List.length_append, ← Nat.add_assoc] at h'
    rw [List.cons_append, List.append_assoc]
    exact .cons hne (ih h')

theorem text_ne_nil (h : Tiles p ss u) : ∀ s ∈ ss, s.text ≠ [] := by
  induction h with
  | nil => exact nofun
  | cons hne _ ih => exact List.forall_mem_cons.mpr ⟨hne, ih⟩

theorem flatMap_text (h : Tiles p ss u) : ss.flatMap (·.text) = u := by
  induction h with
  | nil => rfl
  | cons _ _ ih => rw [List.flatMap_cons, ih]

theorem le_pos (h : Tiles p ss u) : ∀ s ∈ ss, p ≤ s.pos := by
  induction h with
  | nil => exact nofun
  | @cons s ss rest _ _ ih =>
    exact List.forall_mem_cons.mpr ⟨Nat.le_refl _, fun t ht =>
      Nat.le_trans (Nat.le_add_right _ _) (ih t ht)⟩

/-- Every character of the text is in exactly one stretch. -/
theorem existsUnique (h : Tiles p ss u) : ∀ i, p ≤ i → i < p + u.length →
    ∃! s, s ∈ ss ∧ s.pos ≤ i ∧ i < s.stop := by
  induction h with
  | nil => exact fun i hp hi => absurd hi (Nat.not_lt.mpr hp)
  | @cons s ss rest _ h ih =>
    intro i hp hi
    rw [List.length_append, ← Nat.add_assoc] at hi
    by_cases hs : i < s.stop
    · refine ⟨s, ⟨List.mem_cons_self, hp, hs⟩, fun t ht => ?_⟩
      rcases List.mem_cons.mp ht.1 with rfl | hmem
      · rfl
      · exact absurd (Nat.le_trans (h.le_pos t hmem) ht.2.1) (Nat.not_le.mpr hs)
    · obtain ⟨t, ht, hunique⟩ := ih i (Nat.not_lt.mp hs) hi
      refine ⟨t, ⟨List.mem_cons_of_mem _ ht.1, ht.2⟩, fun t' ht' => hunique t' ⟨?_, ht'.2⟩⟩
      rcases List.mem_cons.mp ht'.1 with rfl | hmem
      · exact absurd ht'.2.2 hs
      · exact hmem

end Tiles

namespace Cursor

variable (c : Cursor) (m : Mode)

theorem tiles_stretch (n : Nat) (e : Effect) : Tiles c.pos (c.stretch m n e) (c.rest.take n) := by
  unfold stretch
  split
  · rename_i hnil
    rw [hnil]
    exact .nil
  · rename_i hne
    simpa using Tiles.cons (s := ⟨m, c.pos, c.rest.take n, e⟩) hne .nil

theorem tokens_stretch (n : Nat) (e : Effect) :
    (c.stretch m n e).filterMap Stretch.token? = Item.tokensAll (c.emit n e) := by
  unfold stretch
  cases e with
  | skip => split <;> rfl
  | emit cls =>
    rw [emit, take]
    split
    · rename_i hnil
      rw [hnil]
      rfl
    · rename_i hne
      split
      · rename_i hnil
        exact absurd hnil hne
      · rfl

theorem of_mem_stretch {n : Nat} {e : Effect} {s : Stretch} (h : s ∈ c.stretch m n e) :
    s = ⟨m, c.pos, c.rest.take n, e⟩ ∧ c.rest.take n ≠ [] := by
  unfold stretch at h
  split at h
  · cases h
  · rename_i hne
    exact ⟨List.mem_singleton.mp h, hne⟩

end Cursor

/-! ## What one step does -/

namespace Mode

/-- Rules that skip look ahead, or they are those between the nodes of a body. -/
theorem rule_of_skip (m : Mode) : ∀ r ∈ m.rules, r.effect = .skip →
    r.pattern.looksAhead = true ∨
      m.isBody = true ∧ r.pattern ∈ [Pattern.blanks, .lineComment, .blockComment] := by
  cases m <;> decide

theorem eq_of_looksAhead (m : Mode) : ∀ r ∈ m.rules, r.pattern.looksAhead = true →
    m = .attribute ∨ m = .spread := by
  cases m <;> decide

end Mode

theorem Pattern.eq_zero_of_looksAhead {p : Pattern} {s : List Char} {n : Nat}
    (hp : p.looksAhead = true) (h : p.length? s = some n) : n = 0 := by
  cases p <;> cases hp
  · exact (ahead_eq_some h).1
  · exact (ahead_eq_some h).1

/-- What `throughPair` takes ends with the pair, and holds it nowhere before. -/
theorem throughPair_split {a b : Char} {s : List Char} {n : Nat} (h : throughPair a b s = some n) :
    ∃ v, s.take n = v ++ [a, b] ∧ ¬ [a, b] <:+: v ++ [a] := by
  induction s generalizing n with
  | nil => cases h
  | cons c s ih =>
    cases s with
    | nil => cases h
    | cons d t =>
      rw [throughPair] at h
      split at h
      · rename_i hpair
        obtain ⟨rfl, rfl⟩ := hpair
        cases h
        exact ⟨[], rfl, fun hinfix => absurd hinfix.length_le (by simp)⟩
      · rename_i hpair
        obtain ⟨k, hk, rfl⟩ := Option.map_eq_some_iff.mp h
        obtain ⟨v, hv, hfirst⟩ := ih hk
        refine ⟨c :: v, by rw [List.take_succ_cons, hv]; rfl, fun hinfix => ?_⟩
        rcases List.infix_cons_iff.mp hinfix with hprefix | hinfix
        · -- The pair would stand at the front, where the search has passed it over.
          obtain ⟨rfl, w, hw⟩ := List.cons_prefix_cons.mp hprefix
          have hhead : (v ++ [a]).head? = some d := by
            have hd := congrArg List.head? hv
            have hpos := (throughPair_le a b _ k hk).2
            cases k with
            | zero => cases hpos
            | succ k => cases v <;> exact hd.symm
          change [b] ++ w = v ++ [a] at hw
          rw [← hw] at hhead
          cases hhead
          exact hpair ⟨rfl, rfl⟩
        · exact hfirst hinfix

theorem isTrivia_of_length? {p : Pattern} {s : List Char} {n : Nat}
    (hp : p ∈ [Pattern.blanks, .lineComment, .blockComment]) (h : p.length? s = some n) :
    IsTrivia (s.take n) := by
  simp only [List.mem_cons, List.not_mem_nil, or_false] at hp
  rcases hp with rfl | rfl | rfl
  · obtain ⟨rfl, hpos⟩ := Pattern.many_eq_some.mp h
    have htake : s.take (s.takeWhile isBlank).length = s.takeWhile isBlank :=
      (List.prefix_iff_eq_take.mp (List.takeWhile_prefix isBlank)).symm
    rw [htake]
    exact .blanks (List.length_pos_iff.mp hpos) (takeWhile_forall _ _)
  · simp only [Pattern.length?] at h
    split at h
    · rename_i t
      cases h
      have htake : t.take (t.takeWhile fun c => c ≠ '\n').length = t.takeWhile fun c => c ≠ '\n' :=
        (List.prefix_iff_eq_take.mp (List.takeWhile_prefix _)).symm
      rw [List.take_succ_cons, List.take_succ_cons, htake]
      exact .lineComment fun hmem => by simpa using takeWhile_forall _ _ _ hmem
    · cases h
  · simp only [Pattern.length?] at h
    split at h
    · obtain ⟨k, hk, rfl⟩ := Option.map_eq_some_iff.mp h
      obtain ⟨v, hv, hfirst⟩ := throughPair_split hk
      rw [List.take_succ_cons, List.take_succ_cons, hv]
      exact .blockComment hfirst
    · cases h

namespace Lexer.Step

variable {s : Step} {h : Mode.Hit}

theorem stretches_of_hit (hs : s.hit? = some h) : s.stretches =
    s.place.stretch s.mode h.skipped (.emit .stray) ++
      (s.place.advance h.skipped).stretch s.mode h.length h.rule.effect := by
  rw [stretches, hs]

theorem taken_of_hit (hs : s.hit? = some h) : s.taken = h.skipped + h.length := by
  rw [taken, hs]

theorem taken_of_none (hs : s.hit? = none) : s.taken = s.place.rest.length := by
  rw [taken, hs]

/-- The stretches of a step are what it takes. -/
theorem tiles (s : Step) : Tiles s.place.pos s.stretches (s.place.rest.take s.taken) := by
  cases hs : s.hit? with
  | none =>
    rw [stretches, taken, hs]
    exact s.place.tiles_stretch s.mode _ _
  | some h =>
    have hle := (Mode.search_sound hs).le
    rw [stretches_of_hit hs, taken_of_hit hs, List.take_add]
    refine (s.place.tiles_stretch s.mode h.skipped _).append ?_
    rw [List.length_take, Nat.min_eq_left (Nat.le_trans (Nat.le_add_right _ _) hle)]
    exact (s.place.advance h.skipped).tiles_stretch s.mode h.length _

theorem tokens_of_none (hs : s.hit? = none) : s.stretches.filterMap Stretch.token? =
    Item.tokensAll (s.place.take s.place.rest.length .stray) := by
  rw [stretches, hs]
  exact s.place.tokens_stretch s.mode _ _

theorem tokens_of_hit (hs : s.hit? = some h) :
    s.stretches.filterMap Stretch.token? = Item.tokensAll (h.items s.place) := by
  rw [stretches_of_hit hs, List.filterMap_append, Cursor.tokens_stretch, Cursor.tokens_stretch,
    Mode.Hit.items, Item.tokensAll_append]
  rfl

theorem mode_of_mem (s : Step) {x : Stretch} (hx : x ∈ s.stretches) : x.mode = s.mode := by
  unfold stretches at hx
  split at hx
  · exact (s.place.of_mem_stretch s.mode hx).1 ▸ rfl
  · rcases List.mem_append.mp hx with hx | hx
    · exact (s.place.of_mem_stretch s.mode hx).1 ▸ rfl
    · exact (Cursor.of_mem_stretch _ s.mode hx).1 ▸ rfl

/-- What a step takes in silence is white space or a comment in a body. -/
theorem trivia_of_skip {x : Stretch} (hx : x ∈ s.stretches) (hskip : x.effect = .skip) :
    x.mode.isBody = true ∧ IsTrivia x.text := by
  cases hs : s.hit? with
  | none =>
    rw [stretches, hs] at hx
    obtain ⟨rfl, -⟩ := s.place.of_mem_stretch s.mode hx
    cases hskip
  | some h =>
    rw [stretches_of_hit hs] at hx
    rcases List.mem_append.mp hx with hx | hx
    · obtain ⟨rfl, -⟩ := s.place.of_mem_stretch s.mode hx
      cases hskip
    · obtain ⟨rfl, hne⟩ := (s.place.advance h.skipped).of_mem_stretch s.mode hx
      have hsound := Mode.search_sound hs
      rcases s.mode.rule_of_skip _ hsound.mem hskip with hahead | ⟨hbody, hpattern⟩
      · have hzero := Pattern.eq_zero_of_looksAhead hahead hsound.matched
        rw [hzero, List.take_zero] at hne
        exact absurd rfl hne
      · exact ⟨hbody, isTrivia_of_length? hpattern hsound.matched⟩

/-- Only a value or a spread is left by a match of nothing. -/
theorem mode_of_leavesEmpty (h : s.leavesEmpty = true) : s.mode = .attribute ∨ s.mode = .spread := by
  unfold leavesEmpty at h
  split at h
  · cases h
  · rename_i hit hs
    simp only [Bool.and_eq_true, decide_eq_true_eq] at h
    have hsound := Mode.search_sound hs
    have hahead : hit.rule.pattern.looksAhead = true := by
      by_contra hne
      have hpos := Pattern.length?_pos (Bool.eq_false_iff.mpr hne) hsound.matched
      omega
    exact s.mode.eq_of_looksAhead _ hsound.mem hahead

/-- A step takes something, or leaves its context, or is at the end of the text. -/
theorem progress (s : Step) : 0 < s.taken ∨ s.leavesEmpty = true ∨ s.place.rest = [] := by
  cases hs : s.hit? with
  | none =>
    rw [taken_of_none hs, List.length_pos_iff]
    exact (em _).symm.imp_right .inr
  | some h =>
    rw [taken_of_hit hs]
    by_cases hpop : h.rule.move = .pop
    · by_cases hzero : h.length = 0
      · exact .inr (.inl (by simp [leavesEmpty, hs, hpop, hzero]))
      · exact .inl (by omega)
    · have hsound := Mode.search_sound hs
      have hpos := Pattern.length?_pos (s.mode.looksAhead_rules _ hsound.mem hpop) hsound.matched
      exact .inl (by omega)

end Lexer.Step

end BlockMarkup
