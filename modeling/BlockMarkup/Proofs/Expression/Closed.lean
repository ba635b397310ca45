import BlockMarkup.Proofs.Token.First

/-!
# BlockMarkup.Proofs.Expression.Closed

Patterns that find their end themselves. Whether such a pattern takes the first `n` characters of a
text depends on these characters alone (`Pattern.length?_append_iff`), and the last of them is no
white space (`Pattern.last_of_length?`).
-/

namespace BlockMarkup

theorem through_append_iff {c : Char} {u t : List Char} : ∀ {n : Nat}, n ≤ u.length →
    (through c (u ++ t) = some n ↔ through c u = some n) := by
  induction u with
  | nil =>
    intro n hn
    obtain rfl : n = 0 := Nat.le_zero.mp hn
    refine iff_of_false (fun h => ?_) nofun
    exact absurd (through_le c _ _ h).2 (Nat.lt_irrefl 0)
  | cons d u ih =>
    intro n hn
    rw [List.cons_append, through, through]
    split
    · rfl
    · cases n with
      | zero => simp
      | succ n =>
        have hn' : n ≤ u.length := Nat.le_of_succ_le_succ hn
        simp [ih hn']

theorem throughOnLine_append_iff {c : Char} {u t : List Char} : ∀ {n : Nat}, n ≤ u.length →
    (throughOnLine c (u ++ t) = some n ↔ throughOnLine c u = some n) := by
  induction u with
  | nil =>
    intro n hn
    obtain rfl : n = 0 := Nat.le_zero.mp hn
    refine iff_of_false (fun h => ?_) nofun
    exact absurd (throughOnLine_le c _ _ h).2 (Nat.lt_irrefl 0)
  | cons d u ih =>
    intro n hn
    rw [List.cons_append, throughOnLine, throughOnLine]
    split
    · rfl
    · split
      · rfl
      · cases n with
        | zero => simp
        | succ n =>
          have hn' : n ≤ u.length := Nat.le_of_succ_le_succ hn
          simp [ih hn']

theorem two_le_of_throughPair {a b : Char} {s : List Char} :
    ∀ {n : Nat}, throughPair a b s = some n → 2 ≤ n := by
  induction s with
  | nil => exact nofun
  | cons c s ih =>
    intro n h
    cases s with
    | nil => cases h
    | cons d s =>
      rw [throughPair] at h
      split at h
      · cases h
        exact Nat.le_refl 2
      · obtain ⟨k, hk, rfl⟩ := Option.map_eq_some_iff.mp h
        exact (ih hk).trans (Nat.le_succ k)

theorem throughPair_append_iff {a b : Char} {u t : List Char} : ∀ {n : Nat}, n ≤ u.length →
    (throughPair a b (u ++ t) = some n ↔ throughPair a b u = some n) := by
  induction u with
  | nil =>
    intro n hn
    refine iff_of_false (fun h => ?_) nofun
    exact absurd ((two_le_of_throughPair h).trans hn) (by decide)
  | cons c u ih =>
    intro n hn
    cases u with
    | nil =>
      refine iff_of_false (fun h => ?_) nofun
      have hle : 2 ≤ 1 := (two_le_of_throughPair h).trans hn
      exact absurd hle (by decide)
    | cons d u =>
      rw [List.cons_append, List.cons_append, throughPair, throughPair]
      split
      · rfl
      · cases n with
        | zero => simp
        | succ n =>
          have hn' : n ≤ (d :: u).length := Nat.le_of_succ_le_succ hn
          have hrest := ih hn'
          rw [List.cons_append] at hrest
          simp [hrest]

theorem stringTail_cons {c : Char} {s : List Char} (hquote : c ≠ '"') (hbackslash : c ≠ '\\') :
    stringTail (c :: s) = (stringTail s).map (· + 1) := by
  rw [stringTail]
  · exact hquote
  · exact fun hc _ => hbackslash hc
  · exact fun _ _ hc _ => hbackslash hc

theorem stringTail_append_iff {t : List Char} (u : List Char) : ∀ {n : Nat}, n ≤ u.length →
    (stringTail (u ++ t) = some n ↔ stringTail u = some n) := by
  fun_induction stringTail u with
  | case1 =>
    intro n hn
    obtain rfl : n = 0 := Nat.le_zero.mp hn
    refine iff_of_false (fun h => ?_) (by decide)
    exact absurd (stringTail_le _ _ h).2 (Nat.lt_irrefl 0)
  | case2 u => exact fun _ => Iff.rfl
  | case3 =>
    intro n hn
    refine iff_of_false (fun h => ?_) (by rintro ⟨⟩)
    cases t with
    | nil => cases h
    | cons c t =>
      rw [List.cons_append, List.nil_append, stringTail] at h
      split at h
      · cases h
      · obtain ⟨k, -, rfl⟩ := Option.map_eq_some_iff.mp h
        simp at hn
  | case4 u =>
    intro n _
    rw [List.cons_append, List.cons_append, stringTail, if_pos rfl]
  | case5 c u hc ih =>
    intro n hn
    rw [List.cons_append, List.cons_append, stringTail, if_neg hc]
    rcases n with _ | _ | n
    · simp
    · simp
    · have hn' : n ≤ u.length := Nat.le_of_succ_le_succ (Nat.le_of_succ_le_succ hn)
      simp [ih hn']
  | case6 c u hquote hlone hescape ih =>
    intro n hn
    have hbackslash : c ≠ '\\' := by
      intro hc
      cases u with
      | nil => exact hlone hc rfl
      | cons d u => exact hescape d u hc rfl
    rw [List.cons_append, stringTail_cons hquote hbackslash]
    cases n with
    | zero => simp
    | succ n =>
      have hn' : n ≤ u.length := Nat.le_of_succ_le_succ hn
      simp [ih hn']

/-! ## Patterns -/

namespace Pattern

/-- The patterns whose matches do not depend on what comes behind them. -/
def isClosed : Pattern → Bool
  | .hashString | .rawString | .string | .char | .blockComment => true
  | .groupOpener | .groupCloser | .separator => true
  | _ => false

variable {p : Pattern} {u t : List Char} {n : Nat}

/-- Where a pattern is a fixed lead and a body, it finds its end if the body does. -/
theorem lead_append_iff {f g : List Char → Option Nat} (lead : List Char)
    (hlead : ∀ s, f (lead ++ s) = (g s).map (· + lead.length))
    (hstart : ∀ s k, f s = some k → lead <+: s)
    (hbody : ∀ {v : List Char} {k : Nat}, k ≤ v.length → (g (v ++ t) = some k ↔ g v = some k))
    (hn : n ≤ u.length) : f (u ++ t) = some n ↔ f u = some n := by
  by_cases hu : lead <+: u
  · obtain ⟨v, rfl⟩ := hu
    rw [List.length_append] at hn
    rw [List.append_assoc, hlead, hlead]
    simp only [Option.map_eq_some_iff]
    refine exists_congr fun k => and_congr_left fun hk => hbody ?_
    omega
  · refine iff_of_false (fun h => hu ?_) (fun h => hu (hstart _ _ h))
    obtain ⟨v, hv⟩ := hstart _ _ h
    rw [← hv, hlead] at h
    obtain ⟨k, -, rfl⟩ := Option.map_eq_some_iff.mp h
    exact List.prefix_of_prefix_length_le ⟨v, hv⟩ (List.prefix_append u t) (by omega)

theorem charTail_escape (s : List Char) :
    charTail ('\\' :: s) = (throughOnLine '\'' s).map (· + 1) := by
  rw [charTail]

/-- A character without a backslash has its quote right behind it. -/
theorem charTail_cons {c : Char} (hc : c ≠ '\\') (s : List Char) :
    charTail (c :: s) =
      if s.head? = some '\'' ∧ c ≠ '\'' ∧ c ≠ '\n' then some 2 else none := by
  unfold charTail
  split
  · rename_i heq
    cases heq
    exact absurd rfl hc
  · rename_i heq
    cases heq
    simp only [List.head?_cons, true_and, ← not_or, ite_not]
  · rename_i hne
    rw [if_neg]
    rintro ⟨hs, -⟩
    cases s with
    | nil => cases hs
    | cons d s =>
      cases hs
      exact hne c s rfl

theorem charTail_append_iff {v : List Char} (hn : n ≤ v.length) :
    charTail (v ++ t) = some n ↔ charTail v = some n := by
  rcases v with _ | ⟨c, v⟩
  · obtain rfl : n = 0 := Nat.le_zero.mp hn
    refine iff_of_false (fun h => ?_) nofun
    exact absurd (charTail_le h).2 (Nat.lt_irrefl 0)
  · rw [List.cons_append]
    rw [List.length_cons] at hn
    by_cases hc : c = '\\'
    · subst hc
      simp only [charTail_escape, Option.map_eq_some_iff]
      refine exists_congr fun k => and_congr_left fun hk => throughOnLine_append_iff ?_
      omega
    · rw [charTail_cons hc, charTail_cons hc]
      cases v with
      | nil =>
        refine iff_of_false (fun h => ?_) (fun h => ?_)
        · split at h
          · cases h
            exact absurd hn (by decide)
          · cases h
        · split at h
          · cases h
            exact absurd hn (by decide)
          · cases h
      | cons d v => rfl

/-- What every match of a literal or a comment starts with. -/
def lead : Pattern → List Char
  | .hashString => ['r', '#', '"']
  | .rawString => ['r', '"']
  | .string => ['"']
  | .char => ['\'']
  | .lineComment => ['/', '/']
  | .blockComment => ['/', '*']
  | _ => []

theorem lead_isPrefix {s : List Char} (h : p.length? s = some n) : p.lead <+: s := by
  cases p <;> simp only [lead, List.nil_prefix]
  case string =>
    simp only [length?, stringLength?] at h
    split at h
    · exact ⟨_, rfl⟩
    · cases h
  all_goals
    simp only [length?] at h
    split at h
    · exact ⟨_, rfl⟩
    · cases h

/-- Such a pattern takes the front of a text if and only if it takes all of that front. -/
theorem length?_append_iff (hp : p.isClosed = true) (hn : n ≤ u.length) :
    p.length? (u ++ t) = some n ↔ p.length? u = some n := by
  have hstart : ∀ s k, p.length? s = some k → p.lead <+: s := fun _ _ => lead_isPrefix
  cases p <;> simp only [isClosed, Bool.false_eq_true] at hp
  case hashString =>
    exact lead_append_iff _ (fun _ => rfl) hstart throughPair_append_iff hn
  case rawString => exact lead_append_iff _ (fun _ => rfl) hstart through_append_iff hn
  case string => exact lead_append_iff _ (fun _ => rfl) hstart (stringTail_append_iff _) hn
  case char => exact lead_append_iff _ (fun _ => rfl) hstart charTail_append_iff hn
  case blockComment =>
    exact lead_append_iff _ (fun _ => rfl) hstart throughPair_append_iff hn
  case groupOpener | groupCloser | separator =>
    cases u with
    | nil =>
      obtain rfl : n = 0 := Nat.le_zero.mp hn
      refine iff_of_false (fun h => ?_) nofun
      exact absurd (one_eq_some h).1 nofun
    | cons c u => rfl

end Pattern

/-! ## Where literals and comments end -/

theorem last_of_through {c : Char} {s : List Char} :
    through c s = some s.length → s.getLast? = some c := by
  induction s with
  | nil => exact nofun
  | cons d s ih =>
    intro h
    rw [through] at h
    split at h
    · rename_i hd
      have hs : s = [] := by simpa using h
      rw [hs, hd]
      rfl
    · obtain ⟨k, hk, he⟩ := Option.map_eq_some_iff.mp h
      obtain rfl : k = s.length := Nat.succ.inj he
      rw [List.getLast?_cons, ih hk]
      rfl

theorem last_of_throughOnLine {c : Char} {s : List Char} :
    throughOnLine c s = some s.length → s.getLast? = some c := by
  induction s with
  | nil => exact nofun
  | cons d s ih =>
    intro h
    rw [throughOnLine] at h
    split at h
    · rename_i hd
      have hs : s = [] := by simpa using h
      rw [hs, hd]
      rfl
    · split at h
      · cases h
      · obtain ⟨k, hk, he⟩ := Option.map_eq_some_iff.mp h
        obtain rfl : k = s.length := Nat.succ.inj he
        rw [List.getLast?_cons, ih hk]
        rfl

theorem last_of_throughPair {a b : Char} {s : List Char} :
    throughPair a b s = some s.length → s.getLast? = some b := by
  induction s with
  | nil => exact nofun
  | cons c s ih =>
    intro h
    cases s with
    | nil => cases h
    | cons d s =>
      rw [throughPair] at h
      split at h
      · rename_i hcd
        have hs : s = [] := by simpa using h
        rw [hs, hcd.2]
        rfl
      · obtain ⟨k, hk, he⟩ := Option.map_eq_some_iff.mp h
        obtain rfl : k = (d :: s).length := Nat.succ.inj he
        rw [List.getLast?_cons, ih hk]
        rfl

theorem last_of_stringTail (s : List Char) :
    stringTail s = some s.length → s.getLast? = some '"' := by
  fun_induction stringTail s with
  | case1 => decide
  | case2 s =>
    intro h
    have hs : s = [] := by simpa using h
    rw [hs]
    rfl
  | case3 => decide
  | case4 s => rintro ⟨⟩
  | case5 c s hc ih =>
    intro h
    obtain ⟨k, hk, he⟩ := Option.map_eq_some_iff.mp h
    obtain rfl : k = s.length := Nat.succ.inj (Nat.succ.inj he)
    rw [List.getLast?_cons, List.getLast?_cons, ih hk]
    rfl
  | case6 c s _ _ _ ih =>
    intro h
    obtain ⟨k, hk, he⟩ := Option.map_eq_some_iff.mp h
    obtain rfl : k = s.length := Nat.succ.inj he
    rw [List.getLast?_cons, ih hk]
    rfl

/-- A text with a mark in front ends as the text does. -/
theorem last_append {u v : List Char} {c : Char} (h : v.getLast? = some c) :
    (u ++ v).getLast? = some c := by
  rw [List.getLast?_append, h]
  rfl

theorem last_of_charTail {s : List Char} (h : Pattern.charTail s = some s.length) :
    s.getLast? = some '\'' := by
  cases s with
  | nil => cases h
  | cons c s =>
    by_cases hc : c = '\\'
    · subst hc
      rw [Pattern.charTail_escape] at h
      obtain ⟨k, hk, he⟩ := Option.map_eq_some_iff.mp h
      obtain rfl : k = s.length := Nat.succ.inj he
      exact last_append (u := ['\\']) (last_of_throughOnLine hk)
    · rw [Pattern.charTail_cons hc] at h
      split at h
      · rename_i hchar
        obtain ⟨v, rfl⟩ := List.head?_eq_some_iff.mp hchar.1
        have hv : v = [] := by simpa using h
        rw [hv]
        rfl
      · cases h

/-- A literal or a comment with its end ends in a mark. -/
theorem Pattern.last_of_length? {p : Pattern} {u : List Char} (hp : p.isClosed = true)
    (h : p.length? u = some u.length) : ∀ c ∈ u.getLast?, Text.isBlank c = false := by
  have hmark : ∀ d : Char, u.getLast? = some d → Text.isBlank d = false →
      ∀ c ∈ u.getLast?, Text.isBlank c = false := by
    intro d hd hsolid c hc
    rw [hd] at hc
    cases hc
    exact hsolid
  have hsingle : ∀ q : Char → Bool, (∀ c, q c = true → Text.isBlank c = false) →
      Pattern.one q u = some u.length → ∀ c ∈ u.getLast?, Text.isBlank c = false := by
    intro q hq hone c hc
    obtain ⟨hn, d, v, rfl, hd⟩ := Pattern.one_eq_some hone
    obtain rfl : v = [] := by simpa using hn
    cases hc
    exact hq _ hd
  have hbody : ∀ (mark v : List Char) (k : Option Nat), u = mark ++ v →
      k.map (· + mark.length) = some u.length → k = some v.length := by
    rintro mark v k rfl hk
    obtain ⟨j, rfl, hj⟩ := Option.map_eq_some_iff.mp hk
    rw [List.length_append] at hj
    congr 1
    omega
  cases p <;> simp only [Pattern.isClosed, Bool.false_eq_true] at hp
  case separator =>
    refine hsingle _ (fun c hc => ?_) h
    obtain rfl := of_decide_eq_true hc
    decide
  case groupOpener =>
    refine hsingle _ (fun c hc => ?_) h
    simp only [Bool.or_eq_true, decide_eq_true_eq] at hc
    rcases hc with (rfl | rfl) | rfl <;> decide
  case groupCloser =>
    refine hsingle _ (fun c hc => ?_) h
    simp only [Bool.or_eq_true, decide_eq_true_eq] at hc
    rcases hc with (rfl | rfl) | rfl <;> decide
  all_goals
    obtain ⟨v, rfl⟩ := Pattern.lead_isPrefix h
  case blockComment =>
    exact hmark '/' (last_append (last_of_throughPair (hbody _ v _ rfl h))) (by decide)
  case string =>
    exact hmark '"' (last_append (last_of_stringTail v (hbody _ v _ rfl h))) (by decide)
  case hashString =>
    exact hmark '#' (last_append (last_of_throughPair (hbody _ v _ rfl h))) (by decide)
  case rawString =>
    exact hmark '"' (last_append (last_of_through (hbody _ v _ rfl h))) (by decide)
  case char =>
    exact hmark '\'' (last_append (last_of_charTail (hbody _ v _ rfl h))) (by decide)

end BlockMarkup
