import BlockMarkup.Proofs.Expression.Extent
import Mathlib.Data.List.Basic

/-!
# BlockMarkup.Proofs.Expression.Readable

Expressions and decorations that can be read back from where they are written: their lexemes fit,
their brackets match, and outside of brackets there is nothing that would end them too early.
-/

namespace BlockMarkup

open Text Lexeme

/-- A token without its place. -/
def Token.lexeme (t : Token) : Lexeme := ⟨t.text, t.cls⟩

namespace Lexeme

/-- The lexemes of an expression without white space around it, with `A` outside of brackets. -/
structure Whole (A : Lexeme → List Lexeme → Prop) (ls : List Lexeme) : Prop where
  fit : AllFit [] ls
  nest : Nest A ls
  trimmed : Trimmed (textOf ls)
  ne_nil : ls ≠ []
  last : ∀ l : Lexeme, l ∈ ls.getLast? → l.isTrailing = false

theorem Whole.text_ne_nil {A : Lexeme → List Lexeme → Prop} {ls : List Lexeme} (h : Whole A ls) :
    textOf ls ≠ [] := by
  cases ls with
  | nil => exact absurd rfl h.ne_nil
  | cons l ls => exact List.append_ne_nil_of_left_ne_nil h.fit.1.text_ne_nil _

/-- A text without white space around it does not start with white space. -/
theorem first_not_blank {ls : List Lexeme} {l : Lexeme} (hfit : AllFit [] ls)
    (htrim : Trimmed (textOf ls)) (hl : l ∈ ls.head?) : l.cls ≠ .blank := by
  intro hblank
  obtain ⟨ks, rfl⟩ := List.head?_eq_some_iff.mp hl
  obtain ⟨c, s, hc⟩ := List.exists_cons_of_ne_nil hfit.1.text_ne_nil
  have hhead := htrim.head c (by simp [textOf_cons, hc])
  rw [(hfit.1.inv_blank hblank).1 c (by simp [hc])] at hhead
  cases hhead

/-- A text without white space around it does not end in white space. -/
theorem last_not_blank {ls : List Lexeme} {l : Lexeme} (hfit : AllFit [] ls)
    (htrim : Trimmed (textOf ls)) (hl : l ∈ ls.getLast?) : l.cls ≠ .blank := by
  intro hblank
  obtain ⟨init, rfl⟩ := List.getLast?_eq_some_iff.mp hl
  have hlfit := (allFit_append_iff.mp hfit).2.1
  have hne := hlfit.text_ne_nil
  have hlast := htrim.last (l.text.getLast hne) (by
    have htext : textOf (init ++ [l]) = textOf init ++ l.text := by simp [textOf]
    rw [htext, List.getLast?_append_of_ne_nil _ hne, List.getLast?_eq_some_getLast]
    rfl)
  rw [(hlfit.inv_blank hblank).1 _ (List.getLast_mem hne)] at hlast
  cases hlast

/-- Nothing but white space is in front of a lexeme or behind it. -/
theorem eq_singleton_of_filter {ls : List Lexeme} {l : Lexeme} (hfit : AllFit [] ls)
    (htrim : Trimmed (textOf ls)) (h : ls.filter (fun k => k.cls ≠ .blank) = [l]) : ls = [l] := by
  cases ls with
  | nil => cases h
  | cons k ks =>
    have hk : k.cls ≠ .blank := first_not_blank hfit htrim rfl
    rw [List.filter_cons_of_pos (by simpa using hk)] at h
    obtain ⟨rfl, hks⟩ := List.cons.inj h
    rcases List.eq_nil_or_concat ks with rfl | ⟨init, z, rfl⟩
    · rfl
    · rw [List.concat_eq_append] at hks hfit htrim
      have hz : z.cls = .blank := by
        rw [List.filter_eq_nil_iff] at hks
        simpa using hks z (by simp)
      refine absurd hz (last_not_blank hfit htrim ?_)
      rw [← List.cons_append, List.getLast?_concat]
      rfl

end Lexeme

/-! ## Lone string literals -/

theorem Item.filter_tokensAll {items : List Item} : ∀ {us : List Token},
    items.filter (fun i => !i.isBlank) = us.map .token →
      (tokensAll items).filter (fun t => t.cls ≠ .blank) = us := by
  induction items with
  | nil =>
    intro us h
    exact (List.map_eq_nil_iff.mp h.symm).symm
  | cons i is ih =>
    intro us h
    cases i with
    | context m sub =>
      rw [List.filter_cons_of_pos rfl] at h
      cases us with
      | nil => cases h
      | cons u us => cases h
    | token t =>
      rw [tokensAll, tokens, List.singleton_append]
      by_cases ht : t.cls = .blank
      · rw [List.filter_cons_of_neg (by simp [isBlank, ht])] at h
        rw [List.filter_cons_of_neg (by simp [ht]), ih h]
      · rw [List.filter_cons_of_pos (by simp [isBlank, ht])] at h
        cases us with
        | nil => cases h
        | cons u us =>
          obtain ⟨hu, hus⟩ := List.cons.inj h
          cases hu
          rw [List.filter_cons_of_pos (by simp [ht]), ih hus]

theorem filter_place (pos : Nat) (ls : List Lexeme) :
    ((place pos ls).filter (fun t => t.cls ≠ .blank)).map Token.lexeme =
      ls.filter (fun l => l.cls ≠ .blank) := by
  induction ls generalizing pos with
  | nil => rfl
  | cons l ls ih =>
    rw [place]
    by_cases hl : l.cls = .blank
    · rw [List.filter_cons_of_neg (by simp [hl]), List.filter_cons_of_neg (by simp [hl]), ih]
    · rw [List.filter_cons_of_pos (by simp [hl]), List.filter_cons_of_pos (by simp [hl]),
        List.map_cons, ih]
      rfl

theorem valueItems_comma {items : List Item} {t : Token} (ht : t.text = [',']) :
    valueItems (items ++ [.token t]) = items := by
  simp only [valueItems, Item.closedBy?, List.getLast?_concat, ht, if_true, List.dropLast_concat]

theorem Item.dropTrailing_eq_self {items : List Item}
    (h : ∀ i ∈ items.getLast?, i.isTrailing = false) : dropTrailing items = items := by
  rcases List.eq_nil_or_concat items with rfl | ⟨init, i, rfl⟩
  · rfl
  · rw [List.concat_eq_append] at h ⊢
    have hi : i.isTrailing = false := h i (by rw [List.getLast?_concat]; rfl)
    rw [dropTrailing, List.reverse_append, List.reverse_singleton, List.singleton_append,
      List.dropWhile_cons_of_neg (by simp [hi]), List.reverse_cons, List.reverse_reverse]

theorem isValueText_of_whole {ls : List Lexeme} (h : Whole InValue ls)
    (hlone : ∀ b, isQuotable b = true → textOf ls ≠ quote b) : IsValueText (textOf ls) := by
  intro c more hc
  have hfit := h.fit.endsLine (.comma more) fun l hl => .inl (h.last l hl)
  obtain ⟨items, hreads, hspelt⟩ := h.nest.reads (c.pos + 1) rfl (readsEach_attribute _) hfit
  have hspace := reads_space hc (by
    rw [head?_append_of_ne_nil h.text_ne_nil]
    exact h.trimmed.head)
  have hcomma : Scans .attribute ⟨c.pos + 1 + (textOf ls).length, ',' :: '\n' :: more⟩ _ _ :=
    Scans.leave_text (u := [',']) (r := ⟨.separator, .emit .separator, .pop⟩) rfl (by decide)
      (by rw [List.singleton_append, Rule.first?_eq_filter]; rfl) rfl rfl
  refine ⟨_, _, (hspace.trans hreads) _ _ hcomma, rfl, ?_⟩
  rw [valueItems_comma rfl]
  have hne := hspelt.ne_nil h.ne_nil
  constructor
  · have hlast : ∀ i ∈ ([Item.token ⟨c.pos, [' '], .blank⟩] ++ items).getLast?,
        i.isTrailing = false := by
      rw [List.getLast?_append_of_ne_nil _ hne]
      exact hspelt.last h.last
    have hspelling : Item.spellingAll ([.token ⟨c.pos, [' '], .blank⟩] ++ items) =
        .ok ([' '] ++ textOf ls) := Item.spellingAll_append rfl hspelt.spelling
    refine ⟨_, by rw [Item.dropTrailing_eq_self hlast, hspelling], ?_, h.text_ne_nil⟩
    rw [strip, stripStart_append blank_space]
    exact strip_of_trimmed h.trimmed
  · cases hl : Item.isLoneString ([.token ⟨c.pos, [' '], .blank⟩] ++ items) with
    | false => rfl
    | true =>
      obtain ⟨u, hu, hcls⟩ := Item.isLoneString_iff.mp hl
      have hitems : items.filter (fun i => !i.isBlank) = [u].map .token := hu
      have htokens := Item.filter_tokensAll hitems
      rw [hspelt.tokens (by decide)] at htokens
      have hlexemes := filter_place (c.pos + 1) ls
      rw [htokens] at hlexemes
      have hls := eq_singleton_of_filter h.fit h.trimmed hlexemes.symm
      have hfits := h.fit
      rw [hls] at hfits
      have hstring : Pattern.string.length? (u.text ++ []) = some u.text.length := by
        rw [List.append_nil]
        exact hfits.1.inv_string hcls
      obtain ⟨b, hb, hq⟩ := eq_quote_of_string hstring
      refine absurd ?_ (hlone b hq)
      rw [hls, ← hb]
      simp [textOf, Token.lexeme]

theorem isSpreadText_of_whole {ls : List Lexeme} (h : Whole InSpread ls) :
    IsSpreadText (textOf ls) := by
  intro c more hc
  have hfit := h.fit.endsLine (.feed more) fun l hl => .inl (h.last l hl)
  obtain ⟨items, hreads, hspelt⟩ := h.nest.reads c.pos rfl (readsEach_spread _) hfit
  have hcursor : c = ⟨c.pos, textOf ls ++ '\n' :: more⟩ := by rw [← hc]
  rw [← hcursor] at hreads
  have hend : Scans .spread ⟨c.pos + (textOf ls).length, '\n' :: more⟩ _ _ :=
    Scans.leave_ahead (r := ⟨.spreadEnd, .skip, .pop⟩) nofun
      (by rw [Rule.first?_eq_filter]; rfl) rfl rfl
  refine ⟨_, _, hreads _ _ hend, rfl, ?_⟩
  rw [List.append_nil]
  exact ⟨_, by rw [Item.dropTrailing_eq_self (hspelt.last h.last), hspelt.spelling],
    strip_of_trimmed h.trimmed, h.text_ne_nil⟩

/-- A decoration may hold anything but a bracket that closes it early. -/
theorem isDecorationText_of_nest {ls : List Lexeme} {o : List Char}
    (ho : o = ['#', '['] ∨ o = ['#', '!', '[']) (hfit : AllFit [] ls)
    (hnest : Nest (fun _ _ => True) ls)
    (hlast : ∀ l : Lexeme, l ∈ ls.getLast? → l.isLineComment = false) :
    IsDecorationText (o ++ (textOf ls ++ [']'])) := by
  refine ⟨o, _, rfl, ho, fun c more hc => ?_⟩
  have hfit' : AllFit (']' :: '\n' :: more) ls := by
    refine hfit.endsLine (.bracket more) fun l hl => ?_
    by_cases hblank : l.cls = .blank
    · exact .inr ⟨hblank, by rintro d ⟨⟩; decide⟩
    · have hcomment := hlast l hl
      rw [isLineComment] at hcomment
      exact .inl (by simp [isTrailing, hblank, hcomment])
  obtain ⟨items, hreads, hspelt⟩ := hnest.reads c.pos rfl (readsEach_decoration _) hfit'
  rw [List.append_assoc, List.singleton_append] at hc
  have hcursor : c = ⟨c.pos, textOf ls ++ ']' :: '\n' :: more⟩ := by rw [← hc]
  rw [← hcursor] at hreads
  have hclose : Scans .decoration ⟨c.pos + (textOf ls).length, ']' :: '\n' :: more⟩ _ _ :=
    Scans.leave_text (u := [']']) (r := ⟨.decoratorEnd, .emit .decorator, .pop⟩) rfl (by decide)
      (by rw [List.singleton_append, Rule.first?_eq_filter]; rfl) rfl rfl
  refine ⟨_, _, hreads _ _ hclose, rfl, ?_, ?_⟩
  · simp [Item.closedBy?]
  · exact Item.spellingAll_append hspelt.spelling rfl

end BlockMarkup
