import BlockMarkup.Token.Rule

/-!
# BlockMarkup.Proofs.Token.Bound

How much a pattern takes: never more than there is (`Pattern.length?_le`), and something unless it
only looks ahead (`Pattern.length?_pos`). `Mode.Hit.Sound.le` says the same of a search.
-/

namespace BlockMarkup

theorem through_le (c : Char) (s : List Char) : ∀ n, through c s = some n → n ≤ s.length ∧ 0 < n := by
  induction s with
  | nil => intro n h; simp [through] at h
  | cons d s ih =>
    intro n h
    simp only [through] at h
    split at h
    · cases h; simp
    · obtain ⟨k, hk, rfl⟩ := Option.map_eq_some_iff.mp h
      have := ih k hk
      simp only [List.length_cons]
      omega

theorem throughPair_le (a b : Char) (s : List Char) :
    ∀ n, throughPair a b s = some n → n ≤ s.length ∧ 0 < n := by
  induction s with
  | nil => intro n h; simp [throughPair] at h
  | cons c s ih =>
    intro n h
    cases s with
    | nil => simp [throughPair] at h
    | cons d t =>
      simp only [throughPair] at h
      split at h
      · cases h; simp
      · obtain ⟨k, hk, rfl⟩ := Option.map_eq_some_iff.mp h
        have := ih k hk
        simp only [List.length_cons] at this ⊢
        omega

theorem throughOnLine_le (c : Char) (s : List Char) :
    ∀ n, throughOnLine c s = some n → n ≤ s.length ∧ 0 < n := by
  induction s with
  | nil => intro n h; simp [throughOnLine] at h
  | cons d s ih =>
    intro n h
    simp only [throughOnLine] at h
    split at h
    · cases h; simp
    · split at h
      · cases h
      · obtain ⟨k, hk, rfl⟩ := Option.map_eq_some_iff.mp h
        have := ih k hk
        simp only [List.length_cons]
        omega

theorem stringTail_le (s : List Char) : ∀ n, stringTail s = some n → n ≤ s.length ∧ 0 < n := by
  fun_induction stringTail s with
  | case1 => intro n h; cases h
  | case2 s => intro n h; cases h; simp
  | case3 => intro n h; cases h
  | case4 s => intro n h; cases h
  | case5 c s hc ih =>
    intro n h
    obtain ⟨k, hk, rfl⟩ := Option.map_eq_some_iff.mp h
    have := ih k hk
    simp only [List.length_cons]
    omega
  | case6 c s _ _ _ ih =>
    intro n h
    obtain ⟨k, hk, rfl⟩ := Option.map_eq_some_iff.mp h
    have := ih k hk
    simp only [List.length_cons]
    omega

theorem pathTail_le (s : List Char) : pathTail s ≤ s.length := by
  fun_induction pathTail s with
  | case1 => simp
  | case2 c s _ ih => simp only [List.length_cons]; omega
  | case3 => simp
  | case4 c s _ _ ih => simp only [List.length_cons]; omega
  | case5 => simp

namespace Pattern

theorem one_eq_some {p : Char → Bool} {s : List Char} {n : Nat} (h : one p s = some n) :
    n = 1 ∧ ∃ c t, s = c :: t ∧ p c = true := by
  cases s with
  | nil => simp [one] at h
  | cons c t =>
    simp only [one] at h
    split at h
    · rename_i hc; cases h; exact ⟨rfl, c, t, rfl, hc⟩
    · cases h

theorem ahead_eq_some {p : Char → Bool} {s : List Char} {n : Nat} (h : ahead p s = some n) :
    n = 0 ∧ ∃ c t, s = c :: t ∧ p c = true := by
  cases s with
  | nil => simp [ahead] at h
  | cons c t =>
    simp only [ahead] at h
    split at h
    · rename_i hc; cases h; exact ⟨rfl, c, t, rfl, hc⟩
    · cases h

theorem many_eq_some {p : Char → Bool} {s : List Char} {n : Nat} :
    many p s = some n ↔ n = (s.takeWhile p).length ∧ 0 < n := by
  simp only [many]
  split
  · rename_i h0; constructor
    · intro h; cases h
    · intro h; omega
  · rename_i k hk; constructor
    · intro h; cases h; omega
    · intro h; rw [h.1, hk]

theorem withBrace_eq_some {s : List Char} {k n : Nat} (h : withBrace s k = some n) :
    n = k + Text.leading (s.drop k) + 1 ∧ n ≤ s.length ∧
      ∃ t, s.drop (k + Text.leading (s.drop k)) = '\x7b' :: t := by
  simp only [withBrace] at h
  split at h
  · rename_i t ht
    cases h
    have := congrArg List.length ht
    simp only [List.length_drop, List.length_cons] at this
    exact ⟨rfl, by omega, t, ht⟩
  · cases h

theorem withColon_eq_some {s : List Char} {k n : Nat} (h : withColon s k = some n) :
    n = k + Text.leading (s.drop k) + 1 ∧ n ≤ s.length ∧
      ∃ t, s.drop (k + Text.leading (s.drop k)) = ':' :: t ∧ ∀ u, t ≠ ':' :: u := by
  simp only [withColon] at h
  split at h
  · cases h
  · rename_i t hne ht
    cases h
    have := congrArg List.length ht
    simp only [List.length_drop, List.length_cons] at this
    exact ⟨rfl, by omega, t, ht, fun u hu => hne u hu⟩
  · cases h

theorem stringLength?_le {s : List Char} {n : Nat} (h : stringLength? s = some n) :
    n ≤ s.length ∧ 0 < n := by
  unfold stringLength? at h
  split at h
  · obtain ⟨k, hk, rfl⟩ := Option.map_eq_some_iff.mp h
    have := stringTail_le _ k hk
    simp only [List.length_cons]
    omega
  · cases h

theorem atLineEnd_eq_some {s : List Char} {k n : Nat} (h : atLineEnd s k = some n) : n = k := by
  unfold atLineEnd at h
  split at h
  · cases h; rfl
  · split at h
    · cases h; rfl
    · cases h
  · cases h

theorem charTail_le {s : List Char} {n : Nat} (h : charTail s = some n) : n ≤ s.length ∧ 0 < n := by
  unfold charTail at h
  split at h
  · obtain ⟨k, hk, rfl⟩ := Option.map_eq_some_iff.mp h
    have := throughOnLine_le _ _ k hk
    simp only [List.length_cons]
    omega
  · split at h
    · cases h
    · cases h; simp
  · cases h

/-- No pattern takes more than there is. -/
theorem length?_le {p : Pattern} {s : List Char} {n : Nat} (h : p.length? s = some n) :
    n ≤ s.length := by
  have hmany : ∀ q : Char → Bool, many q s = some n → n ≤ s.length := by
    intro q hq
    rw [(many_eq_some.mp hq).1]
    exact (List.takeWhile_prefix q).length_le
  have hone : ∀ q : Char → Bool, one q s = some n → n ≤ s.length := by
    intro q hq
    obtain ⟨rfl, c, t, rfl, -⟩ := one_eq_some hq
    simp
  have hahead : ∀ q : Char → Bool, ahead q s = some n → n ≤ s.length := by
    intro q hq
    rw [(ahead_eq_some hq).1]
    exact Nat.zero_le _
  cases p <;> simp only [length?] at h
  case blanks | spaces => exact hmany _ h
  case separator | opener | closer | decoratorEnd | quote | groupOpener | groupCloser | looseMark =>
    exact hone _ h
  case closerAhead | spreadEnd => exact hahead _ h
  case lineComment =>
    split at h
    · rename_i t
      cases h
      have := (List.takeWhile_prefix (l := t) (fun c => decide (c ≠ '\n'))).length_le
      simp only [List.length_cons]
      omega
    · cases h
  case blockComment | hashString =>
    split at h
    · obtain ⟨k, hk, rfl⟩ := Option.map_eq_some_iff.mp h
      have := throughPair_le _ _ _ k hk
      simp only [List.length_cons]
      omega
    · cases h
  case rawString =>
    split at h
    · obtain ⟨k, hk, rfl⟩ := Option.map_eq_some_iff.mp h
      have := through_le _ _ k hk
      simp only [List.length_cons]
      omega
    · cases h
  case decorator | dots =>
    split at h <;> cases h <;> simp
  case string => exact (stringLength?_le h).1
  case tag | path =>
    obtain ⟨k, -, hk⟩ := Option.bind_eq_some_iff.mp h
    exact (withBrace_eq_some hk).2.1
  case name | quotedName =>
    obtain ⟨k, -, hk⟩ := Option.bind_eq_some_iff.mp h
    exact (withColon_eq_some hk).2.1
  case lastString =>
    obtain ⟨k, hk, hn⟩ := Option.bind_eq_some_iff.mp h
    rw [atLineEnd_eq_some hn]
    exact (stringLength?_le hk).1
  case char =>
    split at h
    · obtain ⟨k, hk, rfl⟩ := Option.map_eq_some_iff.mp h
      have := charTail_le hk
      simp only [List.length_cons]
      omega
    · cases h
  case run =>
    split at h
    · rename_i hr; cases h; exact hmany _ hr
    · exact hone _ h

/-- Patterns that take nothing. -/
def looksAhead : Pattern → Bool
  | .closerAhead | .spreadEnd => true
  | _ => false

/-- A pattern that does not only look ahead takes something. -/
theorem length?_pos {p : Pattern} {s : List Char} {n : Nat} (hp : p.looksAhead = false)
    (h : p.length? s = some n) : 0 < n := by
  have hone : ∀ q : Char → Bool, one q s = some n → 0 < n := by
    intro q hq
    rw [(one_eq_some hq).1]
    exact Nat.one_pos
  cases p <;> simp only [length?, looksAhead] at h hp
  case blanks | spaces => exact (many_eq_some.mp h).2
  case separator | opener | closer | decoratorEnd | quote | groupOpener | groupCloser | looseMark =>
    exact hone _ h
  case closerAhead | spreadEnd => cases hp
  case lineComment =>
    split at h
    · cases h; omega
    · cases h
  case blockComment | hashString | rawString =>
    split at h
    · obtain ⟨k, -, rfl⟩ := Option.map_eq_some_iff.mp h
      omega
    · cases h
  case decorator | dots => split at h <;> cases h <;> omega
  case string => exact (stringLength?_le h).2
  case tag | path =>
    obtain ⟨k, -, hk⟩ := Option.bind_eq_some_iff.mp h
    have := (withBrace_eq_some hk).1
    omega
  case name | quotedName =>
    obtain ⟨k, -, hk⟩ := Option.bind_eq_some_iff.mp h
    have := (withColon_eq_some hk).1
    omega
  case lastString =>
    obtain ⟨k, hk, hn⟩ := Option.bind_eq_some_iff.mp h
    rw [atLineEnd_eq_some hn]
    exact (stringLength?_le hk).2
  case char =>
    split at h
    · obtain ⟨k, -, rfl⟩ := Option.map_eq_some_iff.mp h
      omega
    · cases h
  case run =>
    split at h
    · rename_i hr; cases h; exact (many_eq_some.mp hr).2
    · exact hone _ h

end Pattern

theorem Rule.first?_eq_some {rules : List Rule} {s : List Char} {n : Nat} {r : Rule}
    (h : Rule.first? rules s = some (n, r)) : r ∈ rules ∧ r.pattern.length? s = some n := by
  obtain ⟨r', hr', h'⟩ := List.exists_of_findSome?_eq_some h
  obtain ⟨n', hn', he⟩ := Option.map_eq_some_iff.mp h'
  cases he
  exact ⟨hr', hn'⟩

namespace Mode

/-- What a search says about the place it found. -/
structure Hit.Sound (h : Hit) (m : Mode) (s : List Char) : Prop where
  skipped_lt : h.skipped < s.length
  first : Rule.first? m.rules (s.drop h.skipped) = some (h.length, h.rule)

namespace Hit.Sound

variable {h : Hit} {m : Mode} {s : List Char}

theorem mem (hs : h.Sound m s) : h.rule ∈ m.rules := (Rule.first?_eq_some hs.first).1

theorem matched (hs : h.Sound m s) : h.rule.pattern.length? (s.drop h.skipped) = some h.length :=
  (Rule.first?_eq_some hs.first).2

theorem le (hs : h.Sound m s) : h.skipped + h.length ≤ s.length := by
  have h1 := Pattern.length?_le hs.matched
  have h2 := hs.skipped_lt
  rw [List.length_drop] at h1
  omega

end Hit.Sound

theorem search_sound {m : Mode} {s : List Char} {h : Hit} (hs : m.search s = some h) :
    h.Sound m s := by
  induction s generalizing h with
  | nil => cases hs
  | cons c s ih =>
    simp only [search] at hs
    split at hs
    · rename_i n r hr
      cases hs
      exact ⟨by simp, hr⟩
    · obtain ⟨k, hk, rfl⟩ := Option.map_eq_some_iff.mp hs
      have := ih hk
      exact ⟨by simp only [List.length_cons]; have := this.skipped_lt; omega, this.first⟩

/-- Only rules that leave the mode look ahead. -/
theorem looksAhead_rules (m : Mode) :
    ∀ r ∈ m.rules, r.move ≠ .pop → r.pattern.looksAhead = false := by
  cases m <;> decide

/-- No rule matches at the front of text that is passed over. -/
theorem first?_of_skipped {m : Mode} {s : List Char} {h : Hit} (hs : m.search s = some h)
    (hpos : 0 < h.skipped) : Rule.first? m.rules s = none := by
  cases s with
  | nil => cases hs
  | cons c s =>
    simp only [search] at hs
    split at hs
    · cases hs
      exact absurd hpos (Nat.lt_irrefl 0)
    · assumption

theorem first?_of_search_none {m : Mode} {s : List Char} (hs : m.search s = none) (hne : s ≠ []) :
    Rule.first? m.rules s = none := by
  cases s with
  | nil => exact absurd rfl hne
  | cons c s =>
    simp only [search] at hs
    split at hs
    · cases hs
    · assumption

end Mode
end BlockMarkup
