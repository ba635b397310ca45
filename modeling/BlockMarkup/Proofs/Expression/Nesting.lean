import BlockMarkup.Document.Value
import BlockMarkup.Proofs.Expression.Lexeme

/-!
# BlockMarkup.Proofs.Expression.Nesting

Lexemes with matching brackets, and what the lexer makes of them. `Nest A ls` says that the brackets
among `ls` match, and that the lexemes outside all brackets satisfy `A`. In a mode that can read
such lexemes, all of `ls` are read, groups and all (`Nest.reads`).
-/

namespace BlockMarkup

open Text

namespace Lexeme

/-- Brackets match, and outside of them every lexeme satisfies `A`, with the lexemes behind it. -/
inductive Nest : (Lexeme → List Lexeme → Prop) → List Lexeme → Prop where
  | nil {A : Lexeme → List Lexeme → Prop} : Nest A []
  | token {A : Lexeme → List Lexeme → Prop} {l : Lexeme} {ls : List Lexeme} : l.move = .stay →
      A l ls → Nest A ls → Nest A (l :: ls)
  | group {A : Lexeme → List Lexeme → Prop} {o k : Lexeme} {inner ls : List Lexeme} :
      o.move = .push .group → k.move = .pop → Nest (fun _ _ => True) inner → Nest A ls →
      Nest A (o :: (inner ++ k :: ls))

/-- What holds of lexemes outside of brackets may be weakened, for each by what comes behind it. -/
theorem Nest.imp {A B : Lexeme → List Lexeme → Prop} {ls : List Lexeme} (h : Nest A ls) :
    (∀ l ks, (l :: ks) <:+ ls → A l ks → B l ks) → Nest B ls := by
  induction h with
  | nil => exact fun _ => .nil
  | @token A l ls hstay hA _ ih =>
    intro hB
    refine .token hstay (hB l ls List.suffix_rfl hA) (ih fun k ks hks => ?_)
    exact hB k ks (hks.trans (List.suffix_cons _ _))
  | @group A o k inner ls ho hk hinner _ _ ih =>
    intro hB
    refine .group ho hk hinner (ih fun l ks hks => hB l ks (hks.trans ?_))
    exact ((List.suffix_cons k ls).trans (List.suffix_append inner _)).trans (List.suffix_cons o _)

theorem Nest.mono {A B : Lexeme → List Lexeme → Prop} {ls : List Lexeme} (h : Nest A ls)
    (hB : ∀ l ks, A l ks → B l ks) : Nest B ls := h.imp fun l ks _ => hB l ks

/-- The tokens of lexemes in a row, from a position on. -/
def place (pos : Nat) : List Lexeme → List Token
  | [] => []
  | l :: ls => ⟨pos, l.text, l.cls⟩ :: place (pos + l.text.length) ls

theorem place_append (pos : Nat) (ks ls : List Lexeme) :
    place pos (ks ++ ls) = place pos ks ++ place (pos + (textOf ks).length) ls := by
  induction ks generalizing pos with
  | nil => rfl
  | cons k ks ih =>
    rw [List.cons_append, place, place, ih, textOf_cons, List.length_append, Nat.add_assoc,
      List.cons_append]

end Lexeme

namespace Item

theorem tokensAll_append (is js : List Item) :
    tokensAll (is ++ js) = tokensAll is ++ tokensAll js := by
  induction is with
  | nil => rfl
  | cons i is ih => rw [List.cons_append, tokensAll, tokensAll, ih, List.append_assoc]

theorem spellingAll_append {is js : List Item} {s t : List Char} (hs : spellingAll is = .ok s)
    (ht : spellingAll js = .ok t) : spellingAll (is ++ js) = .ok (s ++ t) := by
  induction is generalizing s with
  | nil =>
    cases hs
    exact ht
  | cons i is ih =>
    rw [spellingAll] at hs
    cases hi : spelling i with
    | error e => rw [hi] at hs; cases hs
    | ok u =>
      cases his : spellingAll is with
      | error e => rw [hi, his] at hs; cases hs
      | ok v =>
        rw [hi, his] at hs
        cases hs
        rw [List.cons_append, spellingAll, hi, ih his, List.append_assoc]

end Item

open Lexeme

/-- The items are those of the lexemes, read in mode `m` from a position on. A spread expression
may take white space apart. -/
structure Spelt (m : Mode) (pos : Nat) (items : List Item) (ls : List Lexeme) : Prop where
  spelling : Item.spellingAll items = .ok (textOf ls)
  last : (∀ l : Lexeme, l ∈ ls.getLast? → l.isTrailing = false) →
    ∀ i ∈ items.getLast?, i.isTrailing = false
  ne_nil : ls ≠ [] → items ≠ []
  tokens : m ≠ .spread → Item.tokensAll items = place pos ls

namespace Spelt

variable {m : Mode} {pos : Nat} {is js : List Item} {ks ls : List Lexeme}

theorem nil : Spelt m pos [] [] := ⟨rfl, fun _ => nofun, fun h => absurd rfl h, fun _ => rfl⟩

theorem append (h : Spelt m pos is ks) (h' : Spelt m (pos + (textOf ks).length) js ls) :
    Spelt m pos (is ++ js) (ks ++ ls) := by
  refine ⟨?_, ?_, ?_, ?_⟩
  · rw [textOf_append]
    exact Item.spellingAll_append h.spelling h'.spelling
  · intro hlast i hi
    rw [List.getLast?_append] at hi hlast
    cases ls with
    | nil =>
      cases js with
      | nil => exact h.last (by simpa using hlast) i (by simpa using hi)
      | cons j js => exact h'.last nofun i (by simpa using hi)
    | cons l ls =>
      obtain ⟨j, hj⟩ : ∃ j, js.getLast? = some j := by
        cases hjs : js.getLast? with
        | none => exact absurd (List.getLast?_eq_none_iff.mp hjs) (h'.ne_nil nofun)
        | some j => exact ⟨j, rfl⟩
      rw [hj] at hi
      exact h'.last (by simpa using hlast) i (by rw [hj]; exact hi)
  · intro hne
    cases ks with
    | nil => exact List.append_ne_nil_of_right_ne_nil _ (h'.ne_nil hne)
    | cons k ks => exact List.append_ne_nil_of_left_ne_nil (h.ne_nil nofun) _
  · intro hm
    rw [Item.tokensAll_append, h.tokens hm, h'.tokens hm, place_append]

theorem token {l : Lexeme} (hl : l.cls ≠ .stray) :
    Spelt m pos [.token ⟨pos, l.text, l.cls⟩] [l] := by
  refine ⟨?_, ?_, fun _ => (by rintro ⟨⟩), fun _ => rfl⟩
  · simp [Item.spellingAll, Item.spelling, hl, textOf]
  · intro hlast i hi
    cases hi
    exact hlast l rfl

theorem group {o k : Lexeme} {inner : List Lexeme} {sub : List Item} (ho : o.cls ≠ .stray)
    (hk : k.cls ≠ .stray) (hclose : k.text = [')'] ∨ k.text = [']'] ∨ k.text = ['\x7d'])
    (h : Spelt .group (pos + o.text.length) sub inner) :
    Spelt m pos (.token ⟨pos, o.text, o.cls⟩ :: Item.nested .group
      (sub ++ [.token ⟨pos + o.text.length + (textOf inner).length, k.text, k.cls⟩]))
      (o :: (inner ++ [k])) := by
  have hsub := h.append (Spelt.token (m := .group) hk)
  have hnested : ∀ items : List Item, items ≠ [] → Item.nested .group items =
      [.context .group items] := by
    intro items hne
    cases items with
    | nil => exact absurd rfl hne
    | cons i is => rfl
  have hclosed : Item.isClosed (sub ++
      [.token ⟨pos + o.text.length + (textOf inner).length, k.text, k.cls⟩]) = true := by
    simp only [Item.isClosed, Item.closedBy?, List.getLast?_concat]
    rcases hclose with hk | hk | hk <;> simp [hk]
  rw [hnested _ (List.append_ne_nil_of_right_ne_nil sub (List.cons_ne_nil _ _))]
  refine ⟨?_, ?_, fun _ => (by rintro ⟨⟩), ?_⟩
  · simp only [Item.spellingAll, Item.spelling, ho, if_false, hsub.spelling, hclosed, if_true,
      List.append_nil]
    rfl
  · intro _ i hi
    cases hi
    rfl
  · intro _
    simp only [Item.tokensAll, Item.tokens, hsub.tokens (by decide), List.append_nil]
    rfl

end Spelt

/-! ## Reading groups -/

namespace Lexeme

variable {l : Lexeme} {t : List Char}

theorem Fits.cls_ne_stray (h : l.Fits t) : l.cls ≠ .stray := by
  obtain ⟨r, hr, htakes, hemit, -⟩ := h.takes
  cases h with
  | @closed q u cls hq hclosed hemit' hu =>
    have hquote : ∀ q ∈ Mode.group.rules, q.pattern.isClosed = true → q.effect ≠ .emit .stray := by
      decide
    rintro rfl
    exact hquote q hq hclosed hemit'
  | comment _ _ | blank _ _ _ | run _ _ _ _ | slash _ _ | tick _ => exact nofun

/-- A lexeme with a bracket is that bracket. -/
theorem Fits.bracket (h : l.Fits t) (hl : l.cls = .bracket) :
    (l.move = .push .group ∧ (l.text = ['('] ∨ l.text = ['['] ∨ l.text = ['\x7b'])) ∨
      (l.move = .pop ∧ (l.text = [')'] ∨ l.text = [']'] ∨ l.text = ['\x7d'])) := by
  cases h with
  | @closed r u cls hr hclosed hemit hu =>
    obtain rfl : cls = .bracket := hl
    have hrule : ∀ q ∈ Mode.group.rules, q.effect = .emit .bracket →
        q = ⟨.groupCloser, .emit .bracket, .pop⟩ ∨
          q = ⟨.groupOpener, .emit .bracket, .push .group⟩ := by decide
    rcases hrule r hr hemit with rfl | rfl
    · right
      obtain ⟨hn, c, s, rfl, hc⟩ := Pattern.one_eq_some hu
      obtain rfl : s = [] := by simpa using hn
      simp only [Bool.or_eq_true, decide_eq_true_eq] at hc
      rcases hc with (rfl | rfl) | rfl <;> simp [move]
    · left
      obtain ⟨hn, c, s, rfl, hc⟩ := Pattern.one_eq_some hu
      obtain rfl : s = [] := by simpa using hn
      simp only [Bool.or_eq_true, decide_eq_true_eq] at hc
      rcases hc with (rfl | rfl) | rfl <;> simp [move]
  | comment _ _ | blank _ _ _ | run _ _ _ _ | slash _ _ | tick _ => cases hl

theorem cls_of_move (h : l.move ≠ .stay) : l.cls = .bracket := by
  unfold move at h
  split at h
  all_goals first | assumption | exact absurd rfl h

theorem Fits.opener (h : l.Fits t) (hl : l.move = .push .group) :
    l.cls = .bracket ∧ (l.text = ['('] ∨ l.text = ['['] ∨ l.text = ['\x7b']) := by
  have hcls := cls_of_move (by rw [hl]; exact nofun)
  rcases h.bracket hcls with ⟨-, hs⟩ | ⟨hm, -⟩
  · exact ⟨hcls, hs⟩
  · rw [hl] at hm
    cases hm

theorem Fits.closer (h : l.Fits t) (hl : l.move = .pop) :
    l.cls = .bracket ∧ (l.text = [')'] ∨ l.text = [']'] ∨ l.text = ['\x7d']) := by
  have hcls := cls_of_move (by rw [hl]; exact nofun)
  rcases h.bracket hcls with ⟨hm, -⟩ | ⟨-, hs⟩
  · rw [hl] at hm
    cases hm
  · exact ⟨hcls, hs⟩

end Lexeme

/-- In any expression, an opening bracket opens a group. -/
theorem Mode.first?_groupOpener {m : Mode} (hm : m.isBody = false) {u : List Char} (t : List Char)
    (hu : u = ['('] ∨ u = ['['] ∨ u = ['\x7b']) : Rule.first? m.rules (u ++ t) =
      some (u.length, ⟨.groupOpener, .emit .bracket, .push .group⟩) := by
  rcases hu with rfl | rfl | rfl <;> cases m <;> cases hm <;>
    (rw [List.singleton_append, Rule.first?_eq_filter]; exact Rule.first?_cons_some rfl)

/-- In front of `t`, the lexer reads the lexemes in mode `m`, from a position on. -/
def ReadsAs (m : Mode) (pos : Nat) (ls : List Lexeme) (t : List Char) : Prop :=
  ∃ items, Reads m ⟨pos, textOf ls ++ t⟩ items ⟨pos + (textOf ls).length, t⟩ ∧
    Spelt m pos items ls

namespace ReadsAs

variable {m : Mode} {pos : Nat} {ks ls : List Lexeme} {t : List Char}

theorem nil : ReadsAs m pos [] t := ⟨[], .refl, .nil⟩

theorem append (h : ReadsAs m pos ks (textOf ls ++ t))
    (h' : ReadsAs m (pos + (textOf ks).length) ls t) : ReadsAs m pos (ks ++ ls) t := by
  obtain ⟨items, hreads, hspelt⟩ := h
  obtain ⟨items', hreads', hspelt'⟩ := h'
  refine ⟨items ++ items', ?_, hspelt.append hspelt'⟩
  rw [textOf_append, List.append_assoc, List.length_append, ← Nat.add_assoc]
  exact hreads.trans hreads'

theorem token {l : Lexeme} {r : Rule} (hne : l.text ≠ []) (hcls : l.cls ≠ .stray)
    (hfirst : Rule.first? m.rules (l.text ++ t) = some (l.text.length, r))
    (hemit : r.effect = .emit l.cls) (hmove : r.move = .stay) : ReadsAs m pos [l] t := by
  have hreads := Reads.stay_text (c := ⟨pos, l.text ++ t⟩) rfl hne hfirst hemit hmove
  refine ⟨_, ?_, .token hcls⟩
  simpa [textOf] using hreads

/-- A group is read in any mode for expressions. -/
theorem group {o k : Lexeme} {inner : List Lexeme} (hm : m.isBody = false)
    (ho : o.Fits (textOf inner ++ (k.text ++ t))) (hk : k.Fits t) (hopen : o.move = .push .group)
    (hclose : k.move = .pop)
    (hinner : ReadsAs .group (pos + o.text.length) inner (k.text ++ t)) :
    ReadsAs m pos (o :: (inner ++ [k])) t := by
  obtain ⟨hocls, hotext⟩ := ho.opener hopen
  obtain ⟨hkcls, hktext⟩ := hk.closer hclose
  obtain ⟨sub, hsub, hspelt⟩ := hinner
  obtain ⟨r, -, htakes, hemit, hmove⟩ := hk.takes
  have hscans := hsub _ _ (Scans.leave_text rfl hk.text_ne_nil htakes hemit (hmove.trans hclose))
  have hreads := Reads.push_text (c := ⟨pos, o.text ++ (textOf inner ++ (k.text ++ t))⟩) rfl
    ho.text_ne_nil (Mode.first?_groupOpener hm _ hotext) rfl rfl hscans
  have hgroup : Spelt m pos _ (o :: (inner ++ [k])) :=
    .group ho.cls_ne_stray hk.cls_ne_stray hktext hspelt
  rw [hocls] at hgroup
  refine ⟨_, ?_, hgroup⟩
  have htext : textOf (o :: (inner ++ [k])) ++ t = o.text ++ (textOf inner ++ (k.text ++ t)) := by
    simp [textOf]
  have hlength : pos + (textOf (o :: (inner ++ [k]))).length =
      pos + o.text.length + (textOf inner).length + k.text.length := by
    simp [textOf]
    omega
  rw [htext, hlength]
  exact hreads

end ReadsAs

/-- In mode `m`, lexemes with `A` are read one by one, where `t` comes behind the last of them. -/
def ReadsEach (m : Mode) (A : Lexeme → List Lexeme → Prop) (t : List Char) : Prop :=
  ∀ (l : Lexeme) (ls : List Lexeme) (pos : Nat), A l ls → l.move = .stay → AllFit t (l :: ls) →
    ReadsAs m pos [l] (textOf ls ++ t)

theorem readsEach_group (t : List Char) : ReadsEach .group (fun _ _ => True) t := by
  intro l ls pos _ hstay hfit
  obtain ⟨r, -, htakes, hemit, hmove⟩ := hfit.1.takes
  exact .token hfit.1.text_ne_nil hfit.1.cls_ne_stray htakes hemit (hmove.trans hstay)

/-- Lexemes with matching brackets are read in any mode that reads those outside the brackets. -/
theorem Lexeme.Nest.reads {A : Lexeme → List Lexeme → Prop} {ls : List Lexeme} (h : Nest A ls) :
    ∀ {m : Mode} {t : List Char} (pos : Nat), m.isBody = false → ReadsEach m A t → AllFit t ls →
      ReadsAs m pos ls t := by
  induction h with
  | nil => exact fun _ _ _ _ => .nil
  | @token A l ls hstay hA _ ih =>
    intro m t pos hm heach hfit
    exact (heach l ls pos hA hstay hfit).append (ih _ hm heach hfit.2)
  | @group A o k inner ls ho hk _ _ ihinner ih =>
    intro m t pos hm heach hfit
    obtain ⟨hofit, hfit⟩ := hfit
    obtain ⟨hinner, hkfit, hls⟩ := allFit_append_iff.mp hfit
    have hofit' : o.Fits (textOf inner ++ (k.text ++ (textOf ls ++ t))) := by
      simpa [textOf] using hofit
    rw [textOf_cons, List.append_assoc] at hinner
    have hsub := ihinner (pos + o.text.length) rfl (readsEach_group _) hinner
    have hgroup := ReadsAs.group hm hofit' hkfit ho hk hsub
    have hall := hgroup.append (ih _ hm heach hls)
    rwa [List.cons_append, List.append_assoc, List.singleton_append] at hall

end BlockMarkup
