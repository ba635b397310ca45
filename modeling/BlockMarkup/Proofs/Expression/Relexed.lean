import BlockMarkup.Proofs.Expression.Rendered
import BlockMarkup.Proofs.Expression.Stable
import Mathlib.Data.List.Forall2

/-!
# BlockMarkup.Proofs.Expression.Relexed

The lexemes of an expression after its lines are laid out anew. They are the same, one by one, but for
white space and comments (`Relaid.exists_lexemes`). What keeps an expression in one piece where it is
read does not depend on its layout, and so a value or a spread that is written can be read back
(`isValueText_hung_tidy`, `isSpreadText_hung_tidy`).
-/

namespace BlockMarkup

open Text Lexeme

/-- White space in front of something else stays white space, and gets no line feed. -/
theorem Relaid.blanks {P : Relayout} {n : Nat} {w s t : List Char} {c : Char}
    (hw : ∀ d ∈ w, isBlank d = true) (hc : isBlank c = false) (h : Relaid P n (w ++ c :: s) t) :
    ∃ w' t', t = w' ++ c :: t' ∧ (∀ d ∈ w', isBlank d = true) ∧ (w ≠ [] → w' ≠ []) ∧
      ('\n' ∈ w' → '\n' ∈ w) ∧ Relaid P (n + w.count '\n') (c :: s) (c :: t') := by
  generalize hr : w ++ c :: s = r at h
  induction h generalizing w with
  | done hall _ =>
    subst hr
    rw [hall c (List.mem_append_right _ List.mem_cons_self)] at hc
    cases hc
  | @keep n d r t hd h ih =>
    cases w with
    | nil =>
      cases hr
      exact ⟨[], t, rfl, nofun, fun hne => hne, nofun, .keep hd h⟩
    | cons e w =>
      cases hr
      obtain ⟨hblank, hw⟩ := List.forall_mem_cons.mp hw
      obtain ⟨w', t', rfl, hw', -, hfeed, hrest⟩ := ih hw rfl
      rw [← List.count_cons_of_ne hd] at hrest
      refine ⟨d :: w', t', rfl, List.forall_mem_cons.mpr ⟨hblank, hw'⟩, fun _ => nofun, ?_, hrest⟩
      exact fun hm => (List.mem_cons.mp hm).elim (fun he => absurd he.symm hd) fun hm =>
        List.mem_cons_of_mem _ (hfeed hm)
  | @feed n r t _ _ ih =>
    cases w with
    | nil =>
      cases hr
      cases hc
    | cons e w =>
      cases hr
      obtain ⟨hblank, hw⟩ := List.forall_mem_cons.mp hw
      obtain ⟨w', t', rfl, hw', -, -, hrest⟩ := ih hw rfl
      rw [Nat.add_assoc, Nat.add_comm 1, ← List.count_cons_self] at hrest
      exact ⟨'\n' :: w', t', rfl, List.forall_mem_cons.mpr ⟨hblank, hw'⟩, fun _ => nofun,
        fun _ => List.mem_cons_self, hrest⟩
  | @soft n u m r t hu hfeed _ hm hmfeed _ _ ih =>
    obtain ⟨v, rfl, rfl⟩ : ∃ v, w = u ++ v ∧ r = v ++ c :: s := by
      rcases List.append_eq_append_iff.mp hr with ⟨v, rfl, hv⟩ | ⟨v, rfl, rfl⟩
      · cases v with
        | nil => exact ⟨[], by rw [List.append_nil, List.append_nil], hv.symm⟩
        | cons d v =>
          cases hv
          rw [hu c (List.mem_append_right _ List.mem_cons_self)] at hc
          cases hc
      · exact ⟨v, rfl, rfl⟩
    obtain ⟨w', t', rfl, hw', -, -, hrest⟩ := ih (List.forall_mem_append.mp hw).2 rfl
    rw [Nat.add_assoc, ← List.count_append] at hrest
    refine ⟨'\n' :: (m ++ w'), t', by simp, ?_, fun _ => nofun,
      fun _ => List.mem_append_left _ hfeed, hrest⟩
    exact List.forall_mem_cons.mpr ⟨by decide, List.forall_mem_append.mpr ⟨hm, hw'⟩⟩

namespace Lexeme

/-- What may become of a lexeme where the lines are laid out anew: white space gets no line feed that
it did not have, and a comment keeps its mark. -/
inductive Alike : Lexeme → Lexeme → Prop where
  | same {l : Lexeme} : Alike l l
  | blank {u v : List Char} : (∀ c ∈ v, isBlank c = true) → ('\n' ∈ v → '\n' ∈ u) →
      Alike ⟨u, .blank⟩ ⟨v, .blank⟩
  | comment {u v : List Char} : v.take 2 = u.take 2 → Alike ⟨u, .comment⟩ ⟨v, .comment⟩

namespace Alike

variable {l l' : Lexeme}

theorem cls (h : Alike l l') : l'.cls = l.cls := by cases h <;> rfl

theorem move (h : Alike l l') : l'.move = l.move := by cases h <;> rfl

theorem isLineComment (h : Alike l l') : l'.isLineComment = l.isLineComment := by
  cases h with
  | same | blank _ _ => rfl
  | @comment u v htake =>
    have hprefix : ∀ s : List Char, ['/', '/'].isPrefixOf s = decide (['/', '/'] = s.take 2) := by
      intro s
      rw [Bool.eq_iff_iff, List.isPrefixOf_iff_prefix, List.prefix_iff_eq_take, decide_eq_true_iff]
      rfl
    rw [Lexeme.isLineComment, Lexeme.isLineComment, hprefix, hprefix, htake]

theorem isTrailing (h : Alike l l') : l'.isTrailing = l.isTrailing := by
  have hcomment := h.isLineComment
  rw [Lexeme.isLineComment, Lexeme.isLineComment] at hcomment
  rw [Lexeme.isTrailing, Lexeme.isTrailing, hcomment, h.cls]

/-- Neither white space nor a comment is a comma. -/
theorem comma (h : Alike l l') (hl : l'.text = [',']) : l.text = [','] := by
  cases h with
  | same => exact hl
  | @blank _ v hv _ =>
    obtain rfl : v = [','] := hl
    exact absurd (hv ',' List.mem_cons_self) (by decide)
  | @comment u v htake =>
    obtain rfl : v = [','] := hl
    rcases u with _ | ⟨a, _ | ⟨b, u⟩⟩
    · cases htake
    · exact htake.symm
    · cases htake

theorem feed (h : Alike l l') (hl : l.cls = .blank) (hfeed : '\n' ∈ l'.text) : '\n' ∈ l.text := by
  cases h with
  | same => exact hfeed
  | blank _ h => exact h hfeed
  | comment _ => cases hl

end Alike

end Lexeme

/-- The lexemes of a text are the same after its lines are laid out anew, but for white space and
comments. -/
theorem Relaid.exists_lexemes {P : Relayout} {ls : List Lexeme} (hfit : AllFit [] ls)
    (hlast : ∀ l : Lexeme, l ∈ ls.getLast? → l.isTrailing = false) :
    ∀ {n : Nat} {t : List Char}, (∀ k ∈ literalFrom n ls, P.firm k) → Relaid P n (textOf ls) t →
      ∃ ls' z, t = textOf ls' ++ z ∧ (z = [] ∨ z = ['\n']) ∧ AllFit z ls' ∧
        List.Forall₂ Alike ls ls' := by
  induction ls with
  | nil => exact fun {n t} _ h => ⟨[], t, rfl, h.inv_nil, trivial, .nil⟩
  | cons l ls ih =>
    intro n t hP h
    obtain ⟨hl, hls⟩ := hfit
    rw [List.append_nil] at hl
    rw [literalFrom, List.forall_mem_append] at hP
    have hlast' : ∀ k : Lexeme, k ∈ ls.getLast? → k.isTrailing = false := by
      intro k hk
      refine hlast k ?_
      cases ls with
      | nil => cases hk
      | cons j ls => rwa [List.getLast?_cons_cons]
    by_cases hblank : l.cls = .blank
    · -- White space is not the last of the lexemes.
      obtain ⟨hall, hhead⟩ := hl.inv_blank hblank
      obtain ⟨c, s, hs⟩ : ∃ c s, textOf ls = c :: s := by
        cases ls with
        | nil =>
          have htrailing := hlast l rfl
          rw [isTrailing, hblank] at htrailing
          cases htrailing
        | cons k ks =>
          exact List.exists_cons_of_ne_nil (List.append_ne_nil_of_left_ne_nil hls.1.text_ne_nil _)
      have hc : isBlank c = false := hhead c (by rw [hs]; rfl)
      rw [textOf_cons, hs] at h
      obtain ⟨w, t', rfl, hw, hne, hfeed, hrest⟩ := h.blanks hall hc
      rw [← hs] at hrest
      obtain ⟨ls', z, ht, hz, hfit', halike⟩ := ih hls hlast' hP.2 hrest
      obtain ⟨u, cls⟩ := l
      obtain rfl : cls = .blank := hblank
      refine ⟨⟨w, .blank⟩ :: ls', z, by rw [ht, textOf_cons, List.append_assoc], hz,
        ⟨.blank (hne hl.text_ne_nil) hw ?_, hfit'⟩, .cons (.blank hw hfeed) halike⟩
      rw [← ht]
      rintro d ⟨⟩
      exact hc
    · have hfirm : l.cls.isLiteral = true → ∀ k, n < k → k ≤ n + l.text.count '\n' → P.firm k := by
        intro hliteral k hlt hle
        refine hP.1 k ?_
        rw [if_pos hliteral, List.mem_range'_1]
        omega
      obtain ⟨u, t', rfl, hu, htake, hsame, -, hrest⟩ := carried_of_fits hl hblank hfirm h
      obtain ⟨ls', z, rfl, hz, hfit', halike⟩ := ih hls hlast' hP.2 hrest
      refine ⟨⟨u, l.cls⟩ :: ls', z, by rw [textOf_cons, List.append_assoc], hz, ⟨hu, hfit'⟩,
        .cons ?_ halike⟩
      obtain ⟨v, cls⟩ := l
      by_cases hcomment : cls = .comment
      · subst hcomment
        exact .comment htake
      · rw [(hsame hcomment).1]
        exact .same

/-! ## What does not depend on the layout -/

namespace Lexeme

variable {A : Lexeme → List Lexeme → Prop} {ls ls' : List Lexeme}

/-- What is asked of lexemes does not depend on the layout of their lines. -/
def LayoutFree (A : Lexeme → List Lexeme → Prop) : Prop :=
  ∀ {l l' : Lexeme} {ks ks' : List Lexeme}, Alike l l' → List.Forall₂ Alike ks ks' → A l ks → A l' ks'

theorem exists_alike_append {ks : List Lexeme} :
    ∀ {ls'}, List.Forall₂ Alike (ks ++ ls) ls' → ∃ ks' ms, ls' = ks' ++ ms ∧
      List.Forall₂ Alike ks ks' ∧ List.Forall₂ Alike ls ms := by
  induction ks with
  | nil => exact fun {ls'} h => ⟨[], ls', rfl, .nil, h⟩
  | cons k ks ih =>
    intro ls' h
    obtain ⟨k', rest, hk, hrest, rfl⟩ := List.forall₂_cons_left_iff.mp h
    obtain ⟨ks', ms, rfl, hks, hms⟩ := ih hrest
    exact ⟨k' :: ks', ms, rfl, .cons hk hks, hms⟩

theorem Nest.alike (h : Nest A ls) :
    ∀ {ls'}, LayoutFree A → List.Forall₂ Alike ls ls' → Nest A ls' := by
  induction h with
  | nil =>
    intro ls' _ hls
    cases hls
    exact .nil
  | @token A l ls hstay hA _ ih =>
    intro ls' hfree hls
    obtain ⟨l', rest, hl, hrest, rfl⟩ := List.forall₂_cons_left_iff.mp hls
    exact .token (hl.move.trans hstay) (hfree hl hrest hA) (ih hfree hrest)
  | @group A o k inner ls ho hk _ _ ihinner ih =>
    intro ls' hfree hls
    obtain ⟨o', rest, ho', hrest, rfl⟩ := List.forall₂_cons_left_iff.mp hls
    obtain ⟨inner', rest', rfl, hinner, hrest'⟩ := exists_alike_append hrest
    obtain ⟨k', ms, hk', hms, rfl⟩ := List.forall₂_cons_left_iff.mp hrest'
    exact .group (ho'.move.trans ho) (hk'.move.trans hk) (ihinner (fun _ _ _ => trivial) hinner)
      (ih hfree hms)

theorem head?_alike (h : List.Forall₂ Alike ls ls') {l' : Lexeme} (hl : l' ∈ ls'.head?) :
    ∃ l : Lexeme, l ∈ ls.head? ∧ Alike l l' := by
  cases h with
  | nil => cases hl
  | cons h _ =>
    cases hl
    exact ⟨_, rfl, h⟩

theorem getLast?_alike (h : List.Forall₂ Alike ls ls') {l' : Lexeme} (hl : l' ∈ ls'.getLast?) :
    ∃ l : Lexeme, l ∈ ls.getLast? ∧ Alike l l' := by
  rw [← List.head?_reverse] at hl
  obtain ⟨l, hmem, halike⟩ := head?_alike (List.rel_reverse h) hl
  exact ⟨l, by rwa [List.head?_reverse] at hmem, halike⟩

theorem goesOn_alike (h : List.Forall₂ Alike ls ls') (hls : goesOn ls) : goesOn ls' := by
  cases h with
  | nil => trivial
  | @cons l l' ls ls' hl hrest =>
    obtain ⟨hcomment, hblank⟩ := hls
    refine ⟨hl.isLineComment.trans hcomment, fun hl' => ?_⟩
    rw [hl.cls] at hl'
    obtain ⟨hfeed, hnext⟩ := hblank hl'
    refine ⟨fun hm => hfeed (hl.feed hl' hm), fun k' hk' => ?_⟩
    obtain ⟨k, hk, halike⟩ := head?_alike hrest hk'
    exact halike.isLineComment.trans (hnext k hk)

theorem layoutFree_inValue : LayoutFree InValue := by
  intro l l' ks ks' hl hks hvalue
  refine ⟨fun hcomma => hvalue.1 (hl.comma hcomma), fun hstring => goesOn_alike hks (hvalue.2 ?_)⟩
  exact hl.cls.symm.trans hstring

theorem layoutFree_inSpread : LayoutFree InSpread := by
  intro l l' ks ks' hl _ hspread
  refine ⟨fun hcomma => hspread.1 (hl.comma hcomma), fun hblank hfeed => ?_⟩
  have hl' := hl.cls.symm.trans hblank
  exact hspread.2 hl' (hl.feed hl' hfeed)

/-! ## Expressions in one piece -/

/-- The text of lexemes ends in something else than white space, if the last of them does not go on. -/
theorem textOf_last_not_blank {z : List Char} (hfit : AllFit z ls)
    (hlast : ∀ l : Lexeme, l ∈ ls.getLast? → l.isTrailing = false) :
    ∀ c ∈ (textOf ls).getLast?, isBlank c = false := by
  rcases List.eq_nil_or_concat ls with rfl | ⟨init, l, rfl⟩
  · exact nofun
  · rw [List.concat_eq_append] at hfit hlast ⊢
    have hl := (allFit_append_iff.mp hfit).2.1
    rw [textOf_append, List.getLast?_append_of_ne_nil _ (by simpa [textOf] using hl.text_ne_nil)]
    have htext : textOf [l] = l.text := by simp [textOf]
    rw [htext]
    exact (Stands.fits hl).last_not_blank (hlast l (by rw [List.getLast?_concat]; rfl))

theorem AllFit.truncate {z : List Char} (h : AllFit z ls) : AllFit [] ls := by
  induction ls with
  | nil => trivial
  | cons l ls ih =>
    refine ⟨?_, ih h.2⟩
    rw [List.append_nil]
    exact h.1.truncate

/-- No string literal comes about. -/
theorem quote_of_alike (hfit : AllFit [] ls') (h : List.Forall₂ Alike ls ls') {b : List Char}
    (hb : isQuotable b = true) (hq : textOf ls' = quote b) : textOf ls = quote b := by
  cases h with
  | nil => cases hq
  | @cons l l' ks ks' hl hks =>
    obtain ⟨hl', hks'⟩ := hfit
    rw [List.append_nil] at hl'
    obtain ⟨rfl, hrest⟩ := hl'.eq_string hb hq
    obtain rfl : ks' = [] := by
      cases ks' with
      | nil => rfl
      | cons k ks' => exact absurd (List.append_eq_nil_iff.mp hrest).1 hks'.1.text_ne_nil
    cases hks
    cases hl
    exact hq

/-- An expression in one piece stays in one piece where its lines are laid out anew. -/
theorem Whole.relaid {P : Relayout} {t : List Char} (h : Whole A ls) (hA : LayoutFree A)
    (hP : ∀ k ∈ literalFrom 0 ls, P.firm k) (ht : Relaid P 0 (textOf ls) t) :
    ∃ ls' z, t = textOf ls' ++ z ∧ (z = [] ∨ z = ['\n']) ∧ Whole A ls' ∧
      ∀ b, isQuotable b = true → textOf ls' = quote b → textOf ls = quote b := by
  obtain ⟨ls', z, ht, hz, hfit, halike⟩ := ht.exists_lexemes h.fit h.last hP
  have hlast : ∀ l' : Lexeme, l' ∈ ls'.getLast? → l'.isTrailing = false := by
    intro l' hl'
    obtain ⟨l, hl, hll'⟩ := getLast?_alike halike hl'
    exact hll'.isTrailing.trans (h.last l hl)
  refine ⟨ls', z, ht, hz, ⟨hfit.truncate, h.nest.alike hA halike, ⟨?_, ?_⟩, ?_, hlast⟩,
    fun b hb => quote_of_alike hfit.truncate halike hb⟩
  · intro c hc
    cases ls' with
    | nil => cases hc
    | cons l' ls' =>
      have hl' : l' ∈ (l' :: ls').head? := rfl
      obtain ⟨l, hl, hll'⟩ := head?_alike halike hl'
      have hblank : l'.cls ≠ .blank := hll'.cls ▸ first_not_blank h.fit h.trimmed hl
      obtain ⟨d, s, hd, hsolid⟩ := hfit.truncate.1.head_not_blank hblank
      rw [List.append_nil, ← textOf_cons] at hd
      rw [hd] at hc
      cases hc
      exact hsolid
  · exact textOf_last_not_blank hfit hlast
  · rintro rfl
    exact h.ne_nil (List.forall₂_nil_right_iff.mp halike)

/-- It does so where it is laid out and written behind a margin. -/
theorem Whole.hung_tidy (h : Whole A ls) (hA : LayoutFree A) {margin : List Char}
    (hmargin : ∀ c ∈ margin, isBlank c = true) (hfeed : '\n' ∉ margin) : ∃ ls',
    textOf ls' = hung margin (tidy (textOf ls)) ∧ Whole A ls' ∧
      ∀ b, isQuotable b = true → textOf ls' = quote b → textOf ls = quote b := by
  have hlines : ∀ {ks}, Whole A ks → literalLines (textOf ks) = literalFrom 0 ks := fun hks =>
    literalLines_textOf hks.fit (hks.nest.mono fun _ _ _ => trivial)
  have hfirst := relaid_tidy (textOf ls)
  rw [strip_of_trimmed h.trimmed] at hfirst
  obtain ⟨ks, z, htidy, hz, hks, hquote⟩ := h.relaid hA (fun k hk => hlines h ▸ hk) hfirst
  obtain rfl : z = [] := by
    refine hz.resolve_right ?_
    rintro rfl
    have hlast := (trimmed_tidy (textOf ls)).last '\n' (by rw [htidy, List.getLast?_concat]; rfl)
    cases hlast
  rw [List.append_nil] at htidy
  have hsecond := relaid_hung hmargin hfeed (tidy (textOf ls))
  rw [htidy] at hsecond ⊢
  obtain ⟨ms, y, hhung, hy, hms, hquote'⟩ := hks.relaid hA (fun k hk => hlines hks ▸ hk) hsecond
  refine ⟨ms, ?_, hms, fun b hb hq => hquote b hb (hquote' b hb hq)⟩
  rcases hy with rfl | rfl
  · have hlast := hms.trimmed.last '\n' (by
      rw [List.append_nil] at hhung
      rw [← hhung, List.getLast?_concat]
      rfl)
    cases hlast
  · exact (List.append_cancel_right hhung).symm

end Lexeme

section

variable {ls : List Lexeme} {margin : List Char}

/-- A value in one piece can be read back from where it is written. -/
theorem isValueText_hung_tidy (h : Whole InValue ls)
    (hlone : ∀ b, isQuotable b = true → textOf ls ≠ quote b)
    (hmargin : ∀ c ∈ margin, isBlank c = true) (hfeed : '\n' ∉ margin) :
    IsValueText (hung margin (tidy (textOf ls))) := by
  obtain ⟨ls', htext, hwhole, hquote⟩ := h.hung_tidy layoutFree_inValue hmargin hfeed
  rw [← htext]
  exact isValueText_of_whole hwhole fun b hb hq => hlone b hb (hquote b hb hq)

theorem isSpreadText_hung_tidy (h : Whole InSpread ls) (hmargin : ∀ c ∈ margin, isBlank c = true)
    (hfeed : '\n' ∉ margin) : IsSpreadText (hung margin (tidy (textOf ls))) := by
  obtain ⟨ls', htext, hwhole, -⟩ := h.hung_tidy layoutFree_inSpread hmargin hfeed
  rw [← htext]
  exact isSpreadText_of_whole hwhole

end
end BlockMarkup
