import BlockMarkup.Proofs.Expression.Stands

/-!
# BlockMarkup.Proofs.Expression.Relaid

Texts that differ in the layout of their lines. In `Relaid P n s t`, the white space around line feeds
of `s` may be different in `t`, but not that around a line feed into a firm line of `P`; `n` line feeds
stand in front of `s`, and `P.line n` in front of `t`. Where all lines that start inside a literal are
firm, lexing finds the same tokens in both texts but for white space and comments (`Relaid.cuts`).
-/

namespace BlockMarkup

open Text

/-- What becomes of the lines of a text in a new layout: a line stays as it is if it is firm, and
`line` gives the number of each line that is kept. -/
structure Relayout where
  firm : Nat → Prop
  line : Nat → Nat

inductive Relaid (P : Relayout) : Nat → List Char → List Char → Prop where
  | done {n : Nat} {w v : List Char} : (∀ c ∈ w, isBlank c = true) → v = [] ∨ v = ['\n'] →
      Relaid P n w v
  | keep {n : Nat} {c : Char} {s t : List Char} : c ≠ '\n' → Relaid P n s t →
      Relaid P n (c :: s) (c :: t)
  | feed {n : Nat} {s t : List Char} : P.line (n + 1) = P.line n + 1 → Relaid P (n + 1) s t →
      Relaid P n ('\n' :: s) ('\n' :: t)
  | soft {n : Nat} {w m s t : List Char} : (∀ c ∈ w, isBlank c = true) → '\n' ∈ w →
      (∀ k, n < k → k ≤ n + w.count '\n' → ¬ P.firm k) → (∀ c ∈ m, isBlank c = true) → '\n' ∉ m →
      P.line (n + w.count '\n') = P.line n + 1 → Relaid P (n + w.count '\n') s t →
      Relaid P n (w ++ s) ('\n' :: (m ++ t))

namespace Relaid

variable {P : Relayout} {n : Nat} {s t : List Char}

/-- Nothing but white space comes in front, and nothing but white space is lost. -/
theorem head (h : Relaid P n s t) :
    ∀ c ∈ t.head?, isBlank c = true ∨ s.head? = some c := by
  cases h with
  | done _ hv =>
    rcases hv with rfl | rfl
    · exact nofun
    · rintro c ⟨⟩
      exact .inl (by decide)
  | keep _ _ =>
    rintro c ⟨⟩
    exact .inr rfl
  | feed _ _ =>
    rintro c ⟨⟩
    exact .inr rfl
  | soft _ _ _ _ _ _ _ =>
    rintro c ⟨⟩
    exact .inl (by decide)

theorem inv_nil (h : Relaid P n [] t) : t = [] ∨ t = ['\n'] := by
  generalize hs : ([] : List Char) = s at h
  cases h with
  | done _ hv =>
    subst hs
    exact hv
  | keep => cases hs
  | feed => cases hs
  | soft _ hfeed _ _ _ _ _ =>
    obtain ⟨rfl, -⟩ := List.append_eq_nil_iff.mp hs.symm
    cases hfeed

theorem inv_keep {c : Char} (hc : isBlank c = false) (h : Relaid P n (c :: s) t) :
    ∃ t', t = c :: t' ∧ Relaid P n s t' := by
  generalize hs : c :: s = r at h
  cases h with
  | done hw _ =>
    subst hs
    rw [hw c List.mem_cons_self] at hc
    cases hc
  | keep _ h =>
    cases hs
    exact ⟨_, rfl, h⟩
  | feed _ _ =>
    cases hs
    exact absurd hc (by decide)
  | @soft _ w _ _ _ hw hfeed _ _ _ _ _ =>
    cases w with
    | nil => cases hfeed
    | cons d w =>
      cases hs
      rw [hw c List.mem_cons_self] at hc
      cases hc

/-- Whatever is no white space stays, on the line that its line has become. -/
theorem exists_split {a b : List Char} {c : Char} (hc : isBlank c = false)
    (h : Relaid P n (a ++ c :: b) t) :
    ∃ a' b', t = a' ++ c :: b' ∧ P.line n + a'.count '\n' = P.line (n + a.count '\n') := by
  generalize hs : a ++ c :: b = s at h
  induction h generalizing a with
  | done hw _ =>
    subst hs
    rw [hw c (List.mem_append_right _ List.mem_cons_self)] at hc
    cases hc
  | @keep n d s t hd _ ih =>
    cases a with
    | nil =>
      cases hs
      exact ⟨[], t, rfl, rfl⟩
    | cons e a =>
      cases hs
      obtain ⟨a', b', rfl, hline⟩ := ih rfl
      exact ⟨d :: a', b', rfl, by rwa [List.count_cons_of_ne hd, List.count_cons_of_ne hd]⟩
  | @feed n s t hnext _ ih =>
    cases a with
    | nil =>
      cases hs
      exact absurd hc (by decide)
    | cons e a =>
      cases hs
      obtain ⟨a', b', rfl, hline⟩ := ih rfl
      refine ⟨'\n' :: a', b', rfl, ?_⟩
      rw [hnext] at hline
      rw [List.count_cons_self, List.count_cons_self, Nat.add_comm (a'.count '\n'),
        Nat.add_comm (a.count '\n'), ← Nat.add_assoc, ← Nat.add_assoc, hline]
  | @soft n w m s t hw _ _ _ hm hnext _ ih =>
    obtain ⟨v, rfl, rfl⟩ : ∃ v, a = w ++ v ∧ s = v ++ c :: b := by
      rcases List.append_eq_append_iff.mp hs with ⟨v, rfl, hv⟩ | ⟨v, rfl, rfl⟩
      · cases v with
        | nil => exact ⟨[], by rw [List.append_nil, List.append_nil], hv.symm⟩
        | cons d v =>
          cases hv
          rw [hw c (List.mem_append_right _ List.mem_cons_self)] at hc
          cases hc
      · exact ⟨v, rfl, rfl⟩
    obtain ⟨a', b', rfl, hline⟩ := ih rfl
    refine ⟨'\n' :: (m ++ a'), b', by simp, ?_⟩
    rw [hnext] at hline
    rw [List.count_cons_self, List.count_append, List.count_eq_zero_of_not_mem hm, Nat.zero_add,
      List.count_append, ← Nat.add_assoc n, ← hline]
    omega

end Relaid

/-! ## Closing marks do not come about -/

theorem through_blanks {a : Char} (ha : isBlank a = false) {w : List Char}
    (hw : ∀ c ∈ w, isBlank c = true) (s : List Char) :
    through a (w ++ s) = (through a s).map (· + w.length) := by
  induction w with
  | nil => simp
  | cons c w ih =>
    have hc : c ≠ a := by
      rintro rfl
      rw [hw c List.mem_cons_self] at ha
      cases ha
    rw [List.cons_append, through, if_neg hc, ih fun d hd => hw d (List.mem_cons_of_mem _ hd),
      Option.map_map]
    rfl

theorem throughPair_cons_of_ne {a b c : Char} (hc : c ≠ a) (s : List Char) :
    throughPair a b (c :: s) = (throughPair a b s).map (· + 1) := by
  cases s with
  | nil => rfl
  | cons d s => rw [throughPair, if_neg fun h => hc h.1]

theorem throughPair_cons_of_head {a b : Char} {s : List Char} (hs : s.head? ≠ some b) (c : Char) :
    throughPair a b (c :: s) = (throughPair a b s).map (· + 1) := by
  cases s with
  | nil => rfl
  | cons d s => rw [throughPair, if_neg fun h => hs (by rw [h.2]; rfl)]

theorem throughPair_blanks {a b : Char} (ha : isBlank a = false) {w : List Char}
    (hw : ∀ c ∈ w, isBlank c = true) (s : List Char) :
    throughPair a b (w ++ s) = (throughPair a b s).map (· + w.length) := by
  induction w with
  | nil => simp
  | cons c w ih =>
    have hc : c ≠ a := by
      rintro rfl
      rw [hw c List.mem_cons_self] at ha
      cases ha
    rw [List.cons_append, throughPair_cons_of_ne hc,
      ih fun d hd => hw d (List.mem_cons_of_mem _ hd), Option.map_map]
    rfl

theorem stringTail_blanks {w : List Char} (hw : ∀ c ∈ w, isBlank c = true) (s : List Char) :
    stringTail (w ++ s) = (stringTail s).map (· + w.length) := by
  induction w with
  | nil => simp
  | cons c w ih =>
    have hc := hw c List.mem_cons_self
    have hquote : c ≠ '"' := by
      rintro rfl
      exact absurd hc (by decide)
    have hescape : c ≠ '\\' := by
      rintro rfl
      exact absurd hc (by decide)
    rw [List.cons_append, stringTail_cons hquote hescape,
      ih fun d hd => hw d (List.mem_cons_of_mem _ hd), Option.map_map]
    rfl

theorem throughPair_eq_none_of_cons {a b c : Char} {s : List Char}
    (h : throughPair a b (c :: s) = none) :
    throughPair a b s = none ∧ ¬ (c = a ∧ s.head? = some b) := by
  cases s with
  | nil => exact ⟨rfl, nofun⟩
  | cons d s =>
    rw [throughPair] at h
    split at h
    · cases h
    · rename_i hcd
      refine ⟨Option.map_eq_none_iff.mp h, ?_⟩
      rintro ⟨rfl, hd⟩
      cases hd
      exact hcd ⟨rfl, rfl⟩

namespace Relaid

variable {P : Relayout} {n : Nat} {s t : List Char}

theorem through_none {a : Char} (ha : isBlank a = false) (h : Relaid P n s t) :
    through a s = none → through a t = none := by
  have hfeed : '\n' ≠ a := by
    rintro rfl
    exact absurd ha (by decide)
  induction h with
  | done _ hv =>
    intro _
    rcases hv with rfl | rfl
    · rfl
    · rw [through, if_neg hfeed]
      rfl
  | keep _ _ ih =>
    intro hs
    rw [through] at hs ⊢
    split at hs
    · cases hs
    · rename_i hc
      rw [if_neg hc, ih (Option.map_eq_none_iff.mp hs), Option.map_none]
  | feed _ _ ih =>
    intro hs
    rw [through, if_neg hfeed] at hs ⊢
    rw [ih (Option.map_eq_none_iff.mp hs), Option.map_none]
  | soft hw _ _ hm _ _ _ ih =>
    intro hs
    rw [through_blanks ha hw] at hs
    rw [through, if_neg hfeed, through_blanks ha hm, ih (Option.map_eq_none_iff.mp hs)]
    rfl

theorem throughPair_none {a b : Char} (ha : isBlank a = false) (hb : isBlank b = false)
    (h : Relaid P n s t) : throughPair a b s = none → throughPair a b t = none := by
  have hfeed : '\n' ≠ a := by
    rintro rfl
    exact absurd ha (by decide)
  induction h with
  | done _ hv =>
    intro _
    rcases hv with rfl | rfl <;> rfl
  | @keep n c s t _ h ih =>
    intro hs
    obtain ⟨hnone, hpair⟩ := throughPair_eq_none_of_cons hs
    by_cases hc : c = a
    · rw [throughPair_cons_of_head, ih hnone, Option.map_none]
      intro ht
      rcases h.head b ht with hblank | hs
      · rw [hb] at hblank
        cases hblank
      · exact hpair ⟨hc, hs⟩
    · rw [throughPair_cons_of_ne hc, ih hnone, Option.map_none]
  | feed _ _ ih =>
    intro hs
    obtain ⟨hnone, -⟩ := throughPair_eq_none_of_cons hs
    rw [throughPair_cons_of_ne hfeed, ih hnone, Option.map_none]
  | soft hw _ _ hm _ _ _ ih =>
    intro hs
    rw [throughPair_blanks ha hw] at hs
    rw [throughPair_cons_of_ne hfeed, throughPair_blanks ha hm, ih (Option.map_eq_none_iff.mp hs)]
    rfl

theorem stringTail_escape {c : Char} (hc : c ≠ '\n') (s : List Char) :
    stringTail ('\\' :: c :: s) = (stringTail s).map (· + 2) := by
  rw [stringTail, if_neg hc]

/-- No string literal comes about, not even behind a backslash. -/
theorem stringTail_none (h : Relaid P n s t) :
    (stringTail s = none → stringTail t = none) ∧
      (stringTail ('\\' :: s) = none → stringTail ('\\' :: t) = none) := by
  induction h with
  | done _ hv => rcases hv with rfl | rfl <;> exact ⟨fun _ => rfl, fun _ => rfl⟩
  | @keep n c s t hc _ ih =>
    constructor
    · intro hs
      by_cases hquote : c = '"'
      · subst hquote
        cases hs
      · by_cases hescape : c = '\\'
        · subst hescape
          exact ih.2 hs
        · rw [stringTail_cons hquote hescape] at hs ⊢
          rw [ih.1 (Option.map_eq_none_iff.mp hs), Option.map_none]
    · intro hs
      rw [stringTail_escape hc] at hs ⊢
      rw [ih.1 (Option.map_eq_none_iff.mp hs), Option.map_none]
  | feed _ _ ih =>
    refine ⟨fun hs => ?_, fun _ => rfl⟩
    rw [stringTail_cons (by decide) (by decide)] at hs ⊢
    rw [ih.1 (Option.map_eq_none_iff.mp hs), Option.map_none]
  | soft hw _ _ hm _ _ _ ih =>
    refine ⟨fun hs => ?_, fun _ => rfl⟩
    rw [stringTail_blanks hw] at hs
    rw [stringTail_cons (by decide) (by decide), stringTail_blanks hm,
      ih.1 (Option.map_eq_none_iff.mp hs)]
    rfl

theorem throughOnLine_none {a : Char} (ha : isBlank a = false) (h : Relaid P n s t) :
    throughOnLine a s = none → throughOnLine a t = none := by
  have hfeed : ∀ v, throughOnLine a ('\n' :: v) = none := by
    intro v
    have hne : '\n' ≠ a := by
      rintro rfl
      exact absurd ha (by decide)
    rw [throughOnLine, if_neg hne, if_pos rfl]
  induction h with
  | done _ hv =>
    intro _
    rcases hv with rfl | rfl
    · rfl
    · exact hfeed []
  | keep hc _ ih =>
    intro hs
    rw [throughOnLine, if_neg hc] at hs ⊢
    split at hs
    · cases hs
    · rename_i hca
      rw [if_neg hca, ih (Option.map_eq_none_iff.mp hs), Option.map_none]
  | feed _ _ _ => exact fun _ => hfeed _
  | soft _ _ _ _ _ _ _ _ => exact fun _ => hfeed _

theorem charTail_none (h : Relaid P n s t) (hs : Pattern.charTail s = none) :
    Pattern.charTail t = none := by
  cases t with
  | nil => rfl
  | cons c t =>
    by_cases hc : c = '\\'
    · subst hc
      rcases h.head '\\' rfl with hblank | hhead
      · exact absurd hblank (by decide)
      · obtain ⟨s, rfl⟩ := List.head?_eq_some_iff.mp hhead
        obtain ⟨t', ht, hrest⟩ := h.inv_keep (by decide)
        cases ht
        rw [Pattern.charTail_escape] at hs ⊢
        rw [hrest.throughOnLine_none (by decide) (Option.map_eq_none_iff.mp hs), Option.map_none]
    · rw [Pattern.charTail_cons hc]
      refine if_neg fun hchar => ?_
      obtain ⟨hquote, hcquote, hcfeed⟩ := hchar
      obtain ⟨v, hv⟩ : ∃ v, s = c :: v ∧ Relaid P n v t := by
        cases hblank : isBlank c with
        | true =>
          cases h with
          | done _ hv =>
            rcases hv with hv | hv
            · cases hv
            · cases hv
              exact absurd rfl hcfeed
          | keep _ h => exact ⟨_, rfl, h⟩
          | feed _ _ => exact absurd rfl hcfeed
          | soft _ _ _ _ _ _ _ => exact absurd rfl hcfeed
        | false =>
          rcases h.head c rfl with hb | hhead
          · rw [hblank] at hb
            cases hb
          · obtain ⟨v, rfl⟩ := List.head?_eq_some_iff.mp hhead
            obtain ⟨t', ht, hrest⟩ := h.inv_keep hblank
            cases ht
            exact ⟨v, rfl, hrest⟩
      obtain ⟨rfl, hrest⟩ := hv
      rcases hrest.head '\'' hquote with hb | hhead
      · exact absurd hb (by decide)
      · rw [Pattern.charTail_cons hc, if_pos ⟨hhead, hcquote, hcfeed⟩] at hs
        cases hs

end Relaid
end BlockMarkup
