import BlockMarkup.Proofs.Document.Joined
import BlockMarkup.Proofs.Expression.Gaps
import BlockMarkup.Proofs.Expression.Orderly
import BlockMarkup.Proofs.Expression.Relexed

/-!
# BlockMarkup.Proofs.Expression.Sealed

Expressions of a text whose tokens are sealed. The items that lexing finds for such an expression are
lexemes that fit (`Pieces.exists_lexemes`), and so the expression is orderly: it is the same expression
wherever it stands (`isOrderly_of_lexes`).
-/

namespace BlockMarkup

open Text Lexeme

namespace Lexeme

variable {l : Lexeme} {ls : List Lexeme} {s t q : List Char}

/-! ## Loose marks -/

/-- What stands in front of a text fits there, unless it is a quote mark or a loose mark. -/
theorem Stands.fits_of_closed (h : Stands t l) (hcls : l.cls ≠ .stray)
    (hloose : isLoose l.text t = false) : l.Fits t := by
  cases h with
  | fits h => exact h
  | quote _ => exact absurd rfl hcls
  | comment _ | raw _ | hash _ => cases hloose

theorem Fits.not_loose (h : l.Fits t) : isLoose l.text t = false := by
  cases h with
  | @closed r u cls hr hclosed _ hu =>
    have hmarks : ∀ r ∈ Mode.group.rules, r.pattern.isClosed = true →
        ∀ m ∈ [['/'], ['r'], ['r', '#']], r.pattern.length? m = none := by decide
    have hne : ∀ m ∈ [['/'], ['r'], ['r', '#']], u ≠ m := by
      rintro m hm rfl
      rw [hmarks r hr hclosed u hm] at hu
      cases hu
    simp [isLoose, hne ['/'] (by decide), hne ['r'] (by decide), hne ['r', '#'] (by decide)]
  | comment _ _ => simp [isLoose]
  | @blank u _ hu _ =>
    have hne : ∀ c v, isBlank c = false → u ≠ c :: v := by
      rintro c v hc rfl
      rw [hu c List.mem_cons_self] at hc
      cases hc
    simp [isLoose, hne '/' [] (by decide), hne 'r' [] (by decide), hne 'r' ['#'] (by decide)]
  | run _ _ _ hloose | slash _ hloose => exact hloose
  | tick _ => simp [isLoose]

theorem AllFit.looseFree (h : AllFit [] ls) : LooseFree ls := by
  induction ls with
  | nil => trivial
  | cons l ls ih =>
    have hl := h.1.not_loose
    rw [List.append_nil] at hl
    exact ⟨hl, ih h.2⟩

theorem isLoose_append_of_head {m : List Char} (hs : isLoose m s = false)
    (ht : ∀ c ∈ t.head?, c ≠ '*' ∧ c ≠ '"') : isLoose m (s ++ t) = false := by
  by_cases hnil : s = []
  · subst hnil
    cases t with
    | nil => exact isLoose_nil m
    | cons c t =>
      obtain ⟨hstar, hquote⟩ := ht c rfl
      simp [isLoose, hstar, hquote]
  · rwa [isLoose_append_of_ne_nil hnil]

/-- A line comment goes on up to a line feed. -/
theorem Fits.inv_lineComment (h : l.Fits t) (hl : l.isLineComment = true) :
    ∃ v, l.text = '/' :: '/' :: v ∧ '\n' ∉ v ∧ ∀ c ∈ t.head?, c = '\n' := by
  rw [isLineComment, Bool.and_eq_true, decide_eq_true_iff, List.isPrefixOf_iff_prefix] at hl
  obtain ⟨hcls, w, hw⟩ := hl
  cases h with
  | @closed r u cls hr hclosed hemit hu =>
    obtain rfl : cls = .comment := hcls
    have hrules : ∀ r ∈ Mode.group.rules, r.pattern.isClosed = true → r.effect = .emit .comment →
        r.pattern = .blockComment := by decide
    obtain ⟨z, hz⟩ := Pattern.lead_isPrefix hu
    rw [hrules r hr hclosed hemit] at hz
    cases hw.trans hz.symm
  | @comment v hv ht => exact ⟨v, rfl, hv, ht⟩
  | blank _ _ _ | run _ _ _ _ | slash _ _ | tick _ => cases hcls

/-- What may stand behind an expression without being taken into it. -/
def Bounds (q : List Char) : Prop := ∀ c ∈ q.head?, isBlank c = false ∧ c ≠ '*' ∧ c ≠ '"'

/-- A mark that is not loose in a text is not loose in a part of it, with something else behind. -/
theorem Bounds.not_loose_append {m text : List Char} {p : Nat} (hq : Bounds q)
    (hs : s <+: text.drop p) (h : isLoose m (text.drop p) = false) : isLoose m (s ++ q) = false := by
  obtain ⟨z, hz⟩ := hs
  rw [← hz] at h
  exact isLoose_append_of_head (isLoose_of_append h) fun c hc => (hq c hc).2

/-! ## Lexemes of a text -/

/-- The lexemes make up the text `s`, they fit with `q` behind them, and their brackets match. -/
structure Lexes (s q : List Char) (ls : List Lexeme) : Prop where
  text : textOf ls = s
  fit : AllFit q ls
  nest : Nest (fun _ _ => True) ls

namespace Lexes

variable {w : List Char}

theorem nil : Lexes [] q [] := ⟨rfl, trivial, .nil⟩

theorem token (hl : l.Fits (s ++ q)) (hstay : l.move = .stay) (h : Lexes s q ls) :
    Lexes (l.text ++ s) q (l :: ls) := by
  refine ⟨by rw [textOf_cons, h.text], ⟨?_, h.fit⟩, .token hstay trivial h.nest⟩
  rw [h.text]
  exact hl

theorem group {o k : Lexeme} {i : List Char} {inner : List Lexeme}
    (ho : o.Fits (i ++ (k.text ++ (s ++ q)))) (hopen : o.move = .push .group)
    (hinner : Lexes i (k.text ++ (s ++ q)) inner) (hk : k.Fits (s ++ q)) (hclose : k.move = .pop)
    (h : Lexes s q ls) : Lexes (o.text ++ (i ++ (k.text ++ s))) q (o :: (inner ++ k :: ls)) := by
  have htext : textOf (inner ++ k :: ls) = i ++ (k.text ++ s) := by
    rw [textOf_append, textOf_cons, hinner.text, h.text]
  refine ⟨by rw [textOf_cons, htext], ⟨?_, ?_⟩, .group hopen hclose hinner.nest h.nest⟩
  · rw [htext]
    simpa using ho
  · refine allFit_append_iff.mpr ⟨?_, ?_, h.fit⟩
    · rw [textOf_cons, h.text, List.append_assoc]
      exact hinner.fit
    · rw [h.text]
      exact hk

/-- White space in front of something else is a lexeme. -/
theorem behind_gap (h : Lexes s q ls) (hw : ∀ c ∈ w, isBlank c = true)
    (hhead : ∀ c ∈ (s ++ q).head?, isBlank c = false) : ∃ ks, Lexes (w ++ s) q ks := by
  by_cases hne : w = []
  · subst hne
    exact ⟨ls, h⟩
  · exact ⟨⟨w, .blank⟩ :: ls, .token (l := ⟨w, .blank⟩) (.blank hne hw hhead) rfl h⟩

theorem truncate (h : Lexes s q ls) : Lexes s [] ls := ⟨h.text, AllFit.truncate h.fit, h.nest⟩

/-- In front of something else than a line feed, no line comment is the last lexeme. -/
theorem last_not_comment {c : Char} (h : Lexes s (c :: q) ls) (hc : c ≠ '\n') {l : Lexeme}
    (hl : l ∈ ls.getLast?) : l.isLineComment = false := by
  obtain ⟨init, rfl⟩ := List.getLast?_eq_some_iff.mp hl
  have hfit : l.Fits (c :: q) := (allFit_append_iff.mp h.fit).2.1
  rw [← Bool.not_eq_true]
  intro hcomment
  obtain ⟨v, -, -, hfeed⟩ := hfit.inv_lineComment hcomment
  exact hc (hfeed c rfl)

end Lexes

end Lexeme

/-! ## Items and their lexemes -/

theorem prefix_drop_add {u s text : List Char} {p : Nat} (h : u ++ s <+: text.drop p) :
    s <+: text.drop (p + u.length) := by
  obtain ⟨z, hz⟩ := h
  exact ⟨z, by rw [← List.drop_drop, ← hz, List.append_assoc, List.drop_left]⟩

/-- In a text whose tokens are sealed, the items of an expression are lexemes that fit. White space in
front of them may be added. -/
theorem Pieces.exists_lexemes {text : List Char} {pos : Nat} {s q : List Char} {is : List Item}
    (h : Pieces pos s is q) : Bounds q → (∀ t ∈ Item.tokensAll is, t.Sealed text) →
      s <+: text.drop pos → ∀ w, (∀ c ∈ w, isBlank c = true) → ∃ ls, Lexes (w ++ s) q ls := by
  induction h with
  | nil =>
    intro hq _ _ w hw
    exact Lexes.nil.behind_gap hw fun c hc => (hq c hc).1
  | @blank pos u s q is _ hu _ ih =>
    intro hq hsealed hs w hw
    have hmore := fun t ht => hsealed t (List.mem_append_right _ ht)
    obtain ⟨ls, hls⟩ := ih hq hmore (prefix_drop_add hs) (w ++ u) (List.forall_mem_append.mpr ⟨hw, hu⟩)
    exact ⟨ls, by rwa [List.append_assoc] at hls⟩
  | @token pos l s q is hl hblank hstray hmove _ ih =>
    intro hq hsealed hs w hw
    have hmore := fun t ht => hsealed t (List.mem_append_right _ ht)
    have hrest := prefix_drop_add hs
    obtain ⟨ls, hls⟩ := ih hq hmore hrest [] (List.forall_mem_nil _)
    have hfits := hl.fits_of_closed hstray
      (hq.not_loose_append hrest (hsealed ⟨pos, l.text, l.cls⟩ List.mem_cons_self).closed)
    obtain ⟨c, v, hv, hc⟩ := hl.head_not_blank hblank
    refine (Lexes.token hfits hmove hls).behind_gap hw ?_
    rw [List.append_assoc, hv]
    rintro d ⟨⟩
    exact hc
  | @group pos o k i s q sub is ho hopen _ hk hclose _ ihsub ih =>
    intro hq hsealed hs w hw
    obtain ⟨hocls, hotext⟩ := ho.opener hopen
    obtain ⟨hkcls, hktext⟩ := hk.closer hclose
    have hkbounds : Bounds (k.text ++ (s ++ q)) := by
      rcases hktext with he | he | he <;> rw [he] <;> rintro c ⟨⟩ <;> decide
    have hohead : ∀ c ∈ (o.text ++ (i ++ (k.text ++ s)) ++ q).head?, isBlank c = false := by
      rcases hotext with he | he | he <;> rw [he] <;> rintro c ⟨⟩ <;> decide
    have hinside := prefix_drop_add hs
    have hbehind := prefix_drop_add hinside
    have hrest := prefix_drop_add hbehind
    have hi : i <+: text.drop (pos + o.text.length) := (List.prefix_append i _).trans hinside
    -- The tokens of the brackets, of the group, and of what is behind it.
    have hsub : ∀ t ∈ Item.tokensAll sub, t.Sealed text := fun t ht => hsealed t (by
      simp [Item.tokensAll, Item.tokens, Item.tokensAll_append, ht])
    have hmore : ∀ t ∈ Item.tokensAll is, t.Sealed text := fun t ht => hsealed t (by
      simp [Item.tokensAll, ht])
    have hosealed := (hsealed ⟨pos, o.text, o.cls⟩ List.mem_cons_self).closed
    have hksealed := (hsealed ⟨pos + o.text.length + i.length, k.text, k.cls⟩ (by
      simp [Item.tokensAll, Item.tokens, Item.tokensAll_append])).closed
    obtain ⟨inner, hinner⟩ := ihsub hkbounds hsub hi [] (List.forall_mem_nil _)
    obtain ⟨ls, hls⟩ := ih hq hmore hrest [] (List.forall_mem_nil _)
    have hofits := ho.fits_of_closed (by rw [hocls]; decide)
      (hkbounds.not_loose_append hi hosealed)
    have hkfits := hk.fits_of_closed (by rw [hkcls]; decide)
      (hq.not_loose_append hrest hksealed)
    exact (Lexes.group hofits hopen hinner hkfits hclose hls).behind_gap hw hohead

/-! ## Orderly expressions -/

theorem Lexeme.map_lexeme_place (pos : Nat) (ls : List Lexeme) :
    (place pos ls).map Token.lexeme = ls := by
  induction ls generalizing pos with
  | nil => rfl
  | cons l ls ih => rw [place, List.map_cons, ih]; rfl

/-- An own token of an expression is no closing bracket in class. -/
theorem Item.not_bracket_of_closer {s : List Char} {t : Token} (ht : .token t ∈ lex .expression s)
    {d : Char} (hd : d ∈ [')', ']', '\x7d']) (htext : t.text = [d]) : t.cls ≠ .bracket := by
  intro hcls
  obtain ⟨left, hformed⟩ := formed_lex isBottom_expression s
  rcases hformed.origin t ht with ⟨hstray, -⟩ | ⟨r, hmakes⟩
  · rw [hstray] at hcls
    cases hcls
  · have hrules : ∀ r ∈ Mode.expression.rules, r.effect = .emit .bracket →
        r.pattern = .groupOpener := by decide
    obtain ⟨rest, hmatch⟩ := hmakes.matched
    rw [hrules r hmakes.mem (hcls ▸ hmakes.effect)] at hmatch
    obtain ⟨c, hc, hopen⟩ := eq_of_one hmatch
    rw [htext] at hc
    cases hc
    have hclosers : ∀ d ∈ [')', ']', '\x7d'], (d = '(' || d = '[' || d = '\x7b') = false := by
      simp
    rw [hclosers d hd] at hopen
    cases hopen

theorem Lexeme.Fits.closing {l : Lexeme} {t : List Char} (h : l.Fits t) {d : Char}
    (hd : d ∈ [')', ']', '\x7d']) (hl : l.text = [d]) : l.cls = .bracket := by
  obtain ⟨r, -, htakes, hemit, -⟩ := h.takes
  rw [Rule.Takes, hl, List.singleton_append, Rule.first?_eq_filter] at htakes
  simp only [List.mem_cons, List.not_mem_nil, or_false] at hd
  rcases hd with rfl | rfl | rfl <;>
    (cases htakes.symm.trans (Rule.first?_cons_some rfl); exact (Effect.emit.inj hemit).symm)

theorem Lexeme.AllFit.exists_fits {ls : List Lexeme} {l : Lexeme} {q : List Char}
    (h : AllFit q ls) (hl : l ∈ ls) : ∃ t, l.Fits t := by
  obtain ⟨ks, ms, rfl⟩ := List.append_of_mem hl
  exact ⟨_, (allFit_append_iff.mp h).2.1⟩

/-- An expression of lexemes that fit is orderly, and they are its lexemes. -/
theorem isOrderly_of_lexes {s : List Char} {ls : List Lexeme} (h : Lexes s [] ls)
    (hsound : SoundTree .expression (lex .expression s)) : IsOrderly s ∧ lexemesOf s = ls := by
  have htokens := expressionTokens_textOf h.fit h.nest
  rw [h.text] at htokens
  have hlexemes : lexemesOf s = ls := by
    rw [lexemesOf, Item.lexemes, ← expressionTokens, htokens, map_lexeme_place]
  refine ⟨⟨hsound, fun t ht d hd htext => ?_, ?_⟩, hlexemes⟩
  · have hmem : t.lexeme ∈ ls :=
      hlexemes ▸ mem_lexemesOf.mpr ⟨t, Item.mem_tokensAll_of_mem ht, rfl⟩
    obtain ⟨u, hu⟩ := h.fit.exists_fits hmem
    exact Item.not_bracket_of_closer ht hd htext (hu.closing hd htext)
  · rw [← lexemesOf, hlexemes]
    exact h.fit.looseFree

end BlockMarkup
