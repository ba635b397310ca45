import BlockMarkup.Proofs.Document.Hosted
import BlockMarkup.Proofs.Expression.Relaid

/-!
# BlockMarkup.Proofs.Expression.Pieces

The items of an expression with the text they were read from. `Pieces pos s is r` says that lexing finds
the items `is` in the text `s` with `r` behind it: each token stands where it is, and all groups are
closed. What is found is found as well where less text comes behind (`Pieces.truncate`), or a comma
(`Pieces.comma`), and it is how the text is cut on its own (`Pieces.cuts`).
-/

namespace BlockMarkup

open Text Lexeme

/-! ## More text behind -/

theorem through_append_eq_none {c : Char} {u s : List Char} (hu : through c u = none)
    (hs : through c s = none) : through c (u ++ s) = none := by
  induction u with
  | nil => exact hs
  | cons d u ih =>
    rw [through] at hu
    rw [List.cons_append, through]
    split at hu
    · cases hu
    · rename_i hd
      rw [if_neg hd, ih (Option.map_eq_none_iff.mp hu), Option.map_none]

theorem throughPair_append_eq_none {a b : Char} {u s : List Char} (hu : throughPair a b u = none)
    (hs : throughPair a b s = none) (hhead : s.head? ≠ some b) : throughPair a b (u ++ s) = none := by
  induction u with
  | nil => exact hs
  | cons c u ih =>
    obtain ⟨hnone, hpair⟩ := throughPair_eq_none_of_cons hu
    have hrest := ih hnone
    rw [List.cons_append]
    by_cases hc : c = a
    · rw [throughPair_cons_of_head, hrest, Option.map_none]
      cases u with
      | nil => exact hhead
      | cons d u => exact fun hd => hpair ⟨hc, hd⟩
    · rw [throughPair_cons_of_ne hc, hrest, Option.map_none]

namespace Lexeme

variable {l : Lexeme} {t : List Char}

/-- What stands in front of a text stands there with a comma behind it, unless it goes on. -/
theorem Stands.comma (h : Stands t l) (hcls : l.cls ≠ .stray)
    (ht : t ≠ [] ∨ l.isTrailing = false) : Stands (t ++ [',']) l := by
  cases h with
  | fits h =>
    have hends : EndsLine [',', '\n'] := .comma []
    have hfits : l.Fits (t ++ [',', '\n']) := by
      by_cases hnil : t = []
      · subst hnil
        exact h.endsLine hends (.inl (ht.resolve_left fun hne => hne rfl))
      · exact h.append hnil hends
    refine .fits (Fits.truncate (u := t ++ [',']) (t := ['\n']) ?_)
    rwa [List.append_assoc]
  | quote _ => exact absurd rfl hcls
  | comment hv => exact .comment (throughPair_append_eq_none hv rfl (by decide))
  | raw hv => exact .raw (through_append_eq_none hv rfl)
  | hash hv => exact .hash (throughPair_append_eq_none hv rfl (by decide))

theorem Stands.closer (h : Stands t l) (hl : l.move = .pop) :
    l.cls = .bracket ∧ (l.text = [')'] ∨ l.text = [']'] ∨ l.text = ['\x7d']) := by
  cases h with
  | fits h => exact h.closer hl
  | quote _ | comment _ | raw _ | hash _ => cases hl

theorem Stands.opener (h : Stands t l) (hl : l.move = .push .group) :
    l.cls = .bracket ∧ (l.text = ['('] ∨ l.text = ['['] ∨ l.text = ['\x7b']) := by
  cases h with
  | fits h => exact h.opener hl
  | quote _ | comment _ | raw _ | hash _ => cases hl

end Lexeme

/-! ## Items with their text -/

/-- In the text `s`, from position `pos` on and in front of `r`, lexing finds these items. -/
inductive Pieces : Nat → List Char → List Item → List Char → Prop where
  | nil {pos : Nat} {r : List Char} : Pieces pos [] [] r
  | blank {pos : Nat} {u s r : List Char} {is : List Item} : u ≠ [] → (∀ c ∈ u, isBlank c = true) →
      Pieces (pos + u.length) s is r → Pieces pos (u ++ s) (.token ⟨pos, u, .blank⟩ :: is) r
  | token {pos : Nat} {l : Lexeme} {s r : List Char} {is : List Item} : Stands (s ++ r) l →
      l.cls ≠ .blank → l.cls ≠ .stray → l.move = .stay → Pieces (pos + l.text.length) s is r →
      Pieces pos (l.text ++ s) (.token ⟨pos, l.text, l.cls⟩ :: is) r
  | group {pos : Nat} {o k : Lexeme} {i s r : List Char} {sub is : List Item} :
      Stands (i ++ (k.text ++ (s ++ r))) o → o.move = .push .group →
      Pieces (pos + o.text.length) i sub (k.text ++ (s ++ r)) → Stands (s ++ r) k → k.move = .pop →
      Pieces (pos + o.text.length + i.length + k.text.length) s is r →
      Pieces pos (o.text ++ (i ++ (k.text ++ s))) (.token ⟨pos, o.text, o.cls⟩ ::
        .context .group (sub ++ [.token ⟨pos + o.text.length + i.length, k.text, k.cls⟩]) :: is) r

namespace Pieces

variable {pos : Nat} {s r : List Char} {is : List Item}

theorem truncate {u v : List Char} (h : Pieces pos s is r) (hr : r = u ++ v) : Pieces pos s is u := by
  induction h generalizing u with
  | nil => exact .nil
  | blank hne hu _ ih => exact .blank hne hu (ih hr)
  | token hstands hblank hstray hmove _ ih =>
    rw [hr, ← List.append_assoc] at hstands
    exact .token hstands.truncate hblank hstray hmove (ih hr)
  | @group pos o k i s r sub is ho hopen _ hk hclose _ ihsub ih =>
    have hsplit : k.text ++ (s ++ r) = (k.text ++ (s ++ u)) ++ v := by simp [hr]
    rw [hsplit, ← List.append_assoc] at ho
    rw [hr, ← List.append_assoc] at hk
    exact .group ho.truncate hopen (ihsub hsplit) hk.truncate hclose (ih hr)

theorem text_ne_nil (h : Pieces pos s is r) (hne : is ≠ []) : s ≠ [] := by
  cases h with
  | nil => exact absurd rfl hne
  | blank hu _ _ => exact List.append_ne_nil_of_left_ne_nil hu _
  | token hl _ _ _ _ => exact List.append_ne_nil_of_left_ne_nil hl.text_ne_nil _
  | group ho _ _ _ _ _ => exact List.append_ne_nil_of_left_ne_nil ho.text_ne_nil _

theorem forall_getLast?_tail {i : Item} {P : Item → Prop} (h : ∀ j ∈ (i :: is).getLast?, P j) :
    ∀ j ∈ is.getLast?, P j := by
  cases is with
  | nil => exact nofun
  | cons k ks => rwa [List.getLast?_cons_cons] at h

/-- A comma behind an expression is not taken into it. -/
theorem comma (h : Pieces pos s is r)
    (hlast : r ≠ [] ∨ ∀ i ∈ is.getLast?, i.isTrailing = false) : Pieces pos s is (r ++ [',']) := by
  induction h with
  | nil => exact .nil
  | blank hne hu _ ih => exact .blank hne hu (ih (hlast.imp_right forall_getLast?_tail))
  | @token pos l s r is hl hblank hstray hmove h ih =>
    refine .token ?_ hblank hstray hmove (ih (hlast.imp_right forall_getLast?_tail))
    rw [← List.append_assoc]
    refine hl.comma hstray ?_
    rcases hlast with hr | hlast
    · exact .inl (List.append_ne_nil_of_right_ne_nil s hr)
    · cases is with
      | nil => exact .inr (hlast _ rfl)
      | cons i is =>
        exact .inl (List.append_ne_nil_of_left_ne_nil (h.text_ne_nil (List.cons_ne_nil i is)) r)
  | @group pos o k i s r sub is ho hopen _ hk hclose h ihsub ih =>
    have hkne : k.text ++ (s ++ r) ≠ [] := List.append_ne_nil_of_left_ne_nil hk.text_ne_nil _
    have hocls := (ho.opener hopen).1
    obtain ⟨hkcls, -⟩ := hk.closer hclose
    have ho' := ho.comma (by rw [hocls]; exact nofun)
      (.inl (List.append_ne_nil_of_right_ne_nil i hkne))
    have hsub := ihsub (.inl hkne)
    have hk' := hk.comma (by rw [hkcls]; exact nofun) (.inr (by simp [Lexeme.isTrailing, hkcls]))
    simp only [List.append_assoc] at ho' hsub hk'
    have htail : ∀ j ∈ is.getLast?, j.isTrailing = false ∨ r ≠ [] := by
      intro j hj
      rcases hlast with hr | hlast
      · exact .inr hr
      · exact .inl (forall_getLast?_tail (forall_getLast?_tail hlast) j hj)
    refine .group ho' hopen hsub hk' hclose (ih ?_)
    exact hlast.imp_right fun hlast => forall_getLast?_tail (forall_getLast?_tail hlast)

/-- The items are how the text is cut, and they leave no bracket open. -/
theorem cuts {ts' : List Token} (h : Pieces pos s is r) :
    Cuts (pos + s.length) r ts' → ∃ ts, Cuts pos (s ++ r) (ts ++ ts') ∧ NoStray ts ∧
      ∀ d, levels d ts = Item.solid d is ∧ after d ts = d := by
  induction h generalizing ts' with
  | nil => exact fun hr => ⟨[], hr, (fun _ => by rintro ⟨⟩), fun _ => ⟨rfl, rfl⟩⟩
  | @blank pos u s r is _ hu _ ih =>
    intro hr
    rw [List.length_append, ← Nat.add_assoc] at hr
    obtain ⟨ts, hts, hstray, hlevels⟩ := ih hr
    rw [List.append_assoc]
    refine ⟨ts, hts.blanks hu, hstray, fun d => ?_⟩
    rw [Item.solid_blank d rfl]
    exact hlevels d
  | @token pos l s r is hl hblank hstray hmove _ ih =>
    intro hr
    rw [List.length_append, ← Nat.add_assoc] at hr
    obtain ⟨ts, hts, hstray', hlevels⟩ := ih hr
    obtain ⟨q, htakes, hemit⟩ := hl.takes
    rw [List.append_assoc]
    refine ⟨⟨pos, l.text, l.cls⟩ :: ts, .piece hl.text_ne_nil htakes hemit hblank hts,
      List.forall_mem_cons.mpr ⟨hstray, hstray'⟩, fun d => ?_⟩
    obtain ⟨hd, hafter⟩ := hlevels d
    rw [Item.solid_token d (t := ⟨pos, l.text, l.cls⟩) hblank,
      levels_stay (t := ⟨pos, l.text, l.cls⟩) d hmove,
      after_stay (t := ⟨pos, l.text, l.cls⟩) d hmove, hd]
    exact ⟨rfl, hafter⟩
  | @group pos o k i s r sub is ho hopen _ hk hclose _ ihsub ih =>
    intro hr
    simp only [List.length_append, ← Nat.add_assoc] at hr
    obtain ⟨ts, hts, hstray, hlevels⟩ := ih hr
    obtain ⟨q, htakes, hemit⟩ := hk.takes
    obtain ⟨hkcls, -⟩ := hk.closer hclose
    have hkblank : k.cls ≠ .blank := by
      rw [hkcls]
      decide
    have hktoken : Cuts (pos + o.text.length + i.length) (k.text ++ (s ++ r)) _ :=
      .piece hk.text_ne_nil htakes hemit hkblank hts
    obtain ⟨us, hus, hsubstray, hsublevels⟩ := ihsub hktoken
    obtain ⟨q', htakes', hemit'⟩ := ho.takes
    have hocls := (ho.opener hopen).1
    have hoblank : o.cls ≠ .blank := by
      rw [hocls]
      decide
    have htext : o.text ++ (i ++ (k.text ++ s)) ++ r = o.text ++ (i ++ (k.text ++ (s ++ r))) := by
      simp
    refine ⟨⟨pos, o.text, o.cls⟩ ::
      (us ++ ⟨pos + o.text.length + i.length, k.text, k.cls⟩ :: ts), ?_, ?_, fun d => ?_⟩
    · rw [htext, List.cons_append, List.append_assoc]
      exact .piece ho.text_ne_nil htakes' hemit' hoblank hus
    · rw [NoStray, List.forall_mem_cons, List.forall_mem_append, List.forall_mem_cons]
      exact ⟨by rw [hocls]; rintro ⟨⟩, hsubstray, by rw [hkcls]; rintro ⟨⟩, hstray⟩
    · obtain ⟨hd, hafter⟩ := hlevels d
      obtain ⟨hd', hafter'⟩ := hsublevels (d + 1)
      constructor
      · rw [Item.solid_token d (t := ⟨pos, o.text, o.cls⟩) hoblank, Item.solid_context,
          Item.solid_append, Item.solid_token (d + 1) (t := ⟨_, k.text, k.cls⟩) hkblank,
          levels_push (t := ⟨pos, o.text, o.cls⟩) d hopen, levels_append, hafter',
          levels_pop (t := ⟨_, k.text, k.cls⟩) d hclose, hd, hd', List.append_assoc]
        rfl
      · rw [after_push (t := ⟨pos, o.text, o.cls⟩) d hopen, after_append, hafter',
          after_pop (t := ⟨_, k.text, k.cls⟩) _ hclose, Nat.add_sub_cancel, hafter]

theorem spellingAll_eq (h : Pieces pos s is r) : Item.spellingAll is = .ok s := by
  induction h with
  | nil => rfl
  | blank _ _ _ ih =>
    rw [Item.spellingAll, Item.spelling, if_neg (by rintro ⟨⟩), ih]
  | token _ _ hstray _ _ ih =>
    rw [Item.spellingAll, Item.spelling, if_neg hstray, ih]
  | @group pos o k i s r sub is ho hopen _ hk hclose _ ihsub ih =>
    obtain ⟨hocls, -⟩ := ho.opener hopen
    obtain ⟨hkcls, hktext⟩ := hk.closer hclose
    have hkspelling : Item.spellingAll
        [.token ⟨pos + o.text.length + i.length, k.text, k.cls⟩] = .ok k.text := by
      simp [Item.spellingAll, Item.spelling, hkcls]
    have hclosed : Item.isClosed
        (sub ++ [.token ⟨pos + o.text.length + i.length, k.text, k.cls⟩]) = true := by
      simp only [Item.isClosed, Item.closedBy?, List.getLast?_concat]
      rcases hktext with hk | hk | hk <;> simp [hk]
    have hgroup := Item.spellingAll_append ihsub hkspelling
    simp [Item.spellingAll, Item.spelling, hocls, hgroup, hclosed, ih]

/-- Behind a text that does not end in white space. -/
theorem last_append {u : List Char} (h : Pieces pos s is r)
    (hu : is = [] → ∀ c ∈ u.getLast?, isBlank c = false) (hs : ∀ c ∈ s.getLast?, isBlank c = false) :
    ∀ c ∈ (u ++ s).getLast?, isBlank c = false := by
  intro c hc
  cases is with
  | nil =>
    cases h
    rw [List.append_nil] at hc
    exact hu rfl c hc
  | cons i is =>
    rw [List.getLast?_append_of_ne_nil _ (h.text_ne_nil (List.cons_ne_nil i is))] at hc
    exact hs c hc

/-- The text ends in something else than white space if its last item does not go on. -/
theorem last_not_blank (h : Pieces pos s is r) (hlast : ∀ i ∈ is.getLast?, i.isTrailing = false) :
    ∀ c ∈ s.getLast?, isBlank c = false := by
  induction h with
  | nil => exact nofun
  | blank hne hu h ih =>
    refine h.last_append (fun hnil => ?_) (ih (forall_getLast?_tail hlast))
    subst hnil
    cases hlast _ rfl
  | token hl hblank hstray hmove h ih =>
    refine h.last_append (fun hnil => ?_) (ih (forall_getLast?_tail hlast))
    subst hnil
    exact hl.last_not_blank (hlast _ rfl)
  | @group pos o k i s r sub is ho hopen _ hk hclose h _ ih =>
    obtain ⟨hkcls, -⟩ := hk.closer hclose
    have hklast := hk.last_not_blank (by simp [Lexeme.isTrailing, hkcls])
    have htext : o.text ++ (i ++ (k.text ++ s)) = (o.text ++ (i ++ k.text)) ++ s := by simp
    rw [htext]
    refine h.last_append (fun _ c hc => ?_)
      (ih (forall_getLast?_tail (forall_getLast?_tail hlast)))
    rw [List.getLast?_append_of_ne_nil _ (List.append_ne_nil_of_right_ne_nil i hk.text_ne_nil),
      List.getLast?_append_of_ne_nil _ hk.text_ne_nil] at hc
    exact hklast c hc

end Pieces

/-! ## Reading an expression -/

theorem Rule.first?_group_of_expression {s : List Char} {n : Nat} {r : Rule}
    (h : first? expression s = some (n, r)) : first? Mode.group.rules s = some (n, r) := by
  have hrules : Mode.group.rules = [⟨.groupCloser, .emit .bracket, .pop⟩,
    ⟨.separator, .emit .text, .stay⟩] ++ expression := rfl
  obtain ⟨hr, hmatch⟩ := first?_eq_some h
  obtain ⟨c, v, rfl, hc⟩ := Pattern.opensWith_of_length? hmatch
  rw [hrules, first?_append_of_none, h]
  have hmark := fun d hd => Rule.opensWith_mark r hr d hd
  have hne : ∀ d ∈ [',', ')', ']', '\x7d'], c ≠ d := by
    rintro d hd rfl
    rw [hmark c hd] at hc
    cases hc
  intro q hq
  apply Pattern.length?_eq_none
  simp only [List.mem_cons, List.not_mem_nil, or_false] at hq
  rcases hq with rfl | rfl
  · simp [Pattern.opensWith, hne ')' (by decide), hne ']' (by decide), hne '\x7d' (by decide)]
  · simp [Pattern.opensWith, hne ',' (by decide)]

theorem Rule.first?_append_eq_some {before rs : List Rule} {s : List Char} {n : Nat} {r : Rule}
    (h : first? (before ++ rs) s = some (n, r)) :
    r ∈ before ∧ r.pattern.length? s = some n ∨ first? rs s = some (n, r) := by
  rw [first?, List.findSome?_append] at h
  cases hb : first? before s with
  | none =>
    rw [first?] at hb
    rw [hb] at h
    exact .inr h
  | some p =>
    rw [first?] at hb
    rw [hb] at h
    cases h
    exact .inl (first?_eq_some hb)

/-- The token is white space, or it stands there as in any group, where the rule that took it moves
the same way or only ends the expression. -/
def FoundAs (r : Rule) (t : List Char) (l : Lexeme) : Prop :=
  l.cls = .blank ∧ (∀ c ∈ l.text, isBlank c = true) ∨
    l.cls ≠ .blank ∧ Stands t l ∧ (l.move = r.move ∨ r.move = .pop ∧ l.move = .stay)

theorem Rule.Takes.foundAs {r : Rule} {u t : List Char} {cls : TokenClass} (h : r.Takes u t)
    (hne : u ≠ []) (hemit : r.effect = .emit cls) : FoundAs r t ⟨u, cls⟩ := by
  by_cases hblank : cls = .blank
  · subst hblank
    have hrule : ∀ q ∈ Mode.group.rules, q.effect = .emit .blank → q.pattern = .blanks := by decide
    have hmatched := h.matched
    rw [hrule r h.mem hemit] at hmatched
    obtain ⟨hn, -⟩ := Pattern.many_eq_some.mp hmatched
    exact .inl ⟨rfl, (takeWhile_eq_of_length hn).1⟩
  · exact .inr ⟨hblank, stands_of_takes hne h hemit, .inl (h.move_eq hemit)⟩

/-- The modes of contexts that are made of the tokens of expressions. -/
def Mode.isInline (m : Mode) : Bool := m.isValue || m = .decoration

theorem Mode.isInline_of_isValue {m : Mode} (h : m.isValue = true) : m.isInline = true := by
  rw [isInline, h, Bool.true_or]

/-- The rules that a mode has in front of those of all expressions. -/
theorem foundAs_of_own_rule {m : Mode} (hm : m.isInline = true) {u t : List Char} {r : Rule}
    {cls : TokenClass} (hne : u ≠ []) (hr : r ∈ m.rules) (hown : r ∉ Rule.expression)
    (hmatch : r.pattern.length? (u ++ t) = some u.length) (hemit : r.effect = .emit cls)
    (hstay : r.move = .stay ∨ r.pattern = .lastString) : FoundAs r t ⟨u, cls⟩ := by
  have hrules : ∀ m : Mode, m.isInline = true → ∀ q ∈ m.rules, q ∉ Rule.expression →
      (q.move = .stay ∨ q.pattern = .lastString) →
        q = ⟨.lastString, .emit .string, .pop⟩ ∨ q = ⟨.spaces, .emit .blank, .stay⟩ ∨
          q = ⟨.separator, .emit .text, .stay⟩ := by
    intro m hm
    cases m <;> cases hm <;> decide
  rcases hrules m hm r hr hown hstay with rfl | rfl | rfl
  · cases hemit
    obtain ⟨n, hn, hend⟩ := Option.bind_eq_some_iff.mp hmatch
    obtain rfl := Pattern.atLineEnd_eq_some hend
    have hstring : Pattern.string.length? u = some u.length :=
      (Pattern.length?_append_iff rfl (Nat.le_refl _)).mp hn
    have htakes : Rule.Takes ⟨.string, .emit .string, .stay⟩ u t :=
      Rule.takes_of_closed (by decide) rfl hstring t
    exact .inr ⟨nofun, stands_of_takes hne htakes rfl, .inr ⟨rfl, rfl⟩⟩
  · cases hemit
    obtain ⟨hn, -⟩ := Pattern.many_eq_some.mp hmatch
    exact .inl ⟨rfl, fun c hc => isBlank_of_isSpace ((takeWhile_eq_of_length hn).1 c hc)⟩
  · cases hemit
    have hcomma : Pattern.separator.length? u = some u.length :=
      (Pattern.length?_append_iff rfl (Nat.le_refl _)).mp hmatch
    have htakes : Rule.Takes ⟨.separator, .emit .text, .stay⟩ u t :=
      Rule.takes_of_closed (by decide) rfl hcomma t
    exact htakes.foundAs hne rfl

theorem foundAs_of_first? {m : Mode} {u t : List Char} {r : Rule} {cls : TokenClass}
    (hm : m.isInline = true) (hne : u ≠ [])
    (h : Rule.first? m.rules (u ++ t) = some (u.length, r)) (hemit : r.effect = .emit cls)
    (hstay : r.move = .stay ∨ r.pattern = .lastString) : FoundAs r t ⟨u, cls⟩ := by
  obtain ⟨before, hrules, hbefore⟩ : ∃ before, m.rules = before ++ Rule.expression ∧
      ∀ q ∈ before, q ∉ Rule.expression := by
    cases m <;> cases hm <;> exact ⟨_, rfl, by decide⟩
  obtain ⟨hr, hmatch⟩ := Rule.first?_eq_some h
  rw [hrules] at h
  rcases Rule.first?_append_eq_some h with ⟨hown, -⟩ | hexpression
  · exact foundAs_of_own_rule hm hne hr (hbefore r hown) hmatch hemit hstay
  · have htakes : r.Takes u t := Rule.first?_group_of_expression hexpression
    exact htakes.foundAs hne hemit

theorem Mode.Hit.skipped_eq_zero {m : Mode} {c : Cursor} {h : Mode.Hit}
    (hs : m.search c.rest = some h) (hstray : ∀ t, .token t ∈ h.items c → t.cls ≠ .stray) :
    h.skipped = 0 := by
  by_contra hne
  have htake := c.take_eq .stray (Nat.pos_of_ne_zero hne) (Mode.search_sound hs).skipped_lt.le
  refine hstray ⟨c.pos, c.rest.take h.skipped, .stray⟩ ?_ rfl
  rw [Mode.Hit.items, htake]
  exact List.mem_append_left _ List.mem_cons_self

/-- A match that passes nothing over is a token, or it is left out. -/
theorem Mode.Hit.items_of_skipped {m : Mode} {c : Cursor} {h : Mode.Hit}
    (hs : m.search c.rest = some h) (hskipped : h.skipped = 0) :
    h.rule.effect = .skip ∧ h.items c = [] ∨ ∃ t, h.items c = [.token t] ∧ m.Makes h.rule t := by
  rw [Mode.Hit.items, hskipped, Cursor.take_zero, List.nil_append]
  cases he : h.rule.effect with
  | skip => exact .inl ⟨rfl, rfl⟩
  | emit cls =>
    obtain ⟨t, ht, hmakes⟩ := emit_eq hs he
    rw [hskipped, he] at ht
    exact .inr ⟨t, ht, hmakes⟩

theorem Mode.rule_of_inline {m : Mode} (hm : m.isInline = true ∨ m = .group) :
    ∀ r ∈ m.rules, r.move = .stay ∧ r.effect ≠ .skip ∨ r.move = .pop ∨
      r = ⟨.groupOpener, .emit .bracket, .push .group⟩ := by
  rcases hm with hm | rfl
  · cases m <;> cases hm <;> decide
  · decide

/-- A token in front of the items. -/
theorem Pieces.cons {r : Rule} {l : Lexeme} {pos : Nat} {s v : List Char} {is : List Item}
    (hl : FoundAs r (s ++ v) l) (hne : l.text ≠ []) (hstray : l.cls ≠ .stray) (hstay : l.move = .stay)
    (h : Pieces (pos + l.text.length) s is v) :
    Pieces pos (l.text ++ s) (.token ⟨pos, l.text, l.cls⟩ :: is) v := by
  rcases hl with ⟨hblank, hall⟩ | ⟨hblank, hstands, -⟩
  · rw [hblank]
    exact .blank hne hall h
  · exact .token hstands hblank hstray hstay h

theorem FoundAs.stay {r : Rule} {t : List Char} {l : Lexeme} (h : FoundAs r t l)
    (hr : r.move = .stay) : l.move = .stay := by
  rcases h with ⟨hblank, -⟩ | ⟨-, -, hmove | ⟨-, hmove⟩⟩
  · by_contra hmove
    rw [cls_of_move hmove] at hblank
    cases hblank
  · rw [hmove, hr]
  · exact hmove

/-- A match that opens a group, in an expression in order. -/
theorem Mode.Hit.opens_group {m inner : Mode} {c : Cursor} {h : Mode.Hit} {sub items : List Item}
    (hm : m.isInline = true ∨ m = .group) (hs : m.search c.rest = some h)
    (hmove : h.rule.move = .push inner) (hstart : StartsWithToken items)
    (hsound : SoundItems m (h.items c ++ Item.nested inner sub ++ items)) : inner = .group ∧
      ∃ o : Lexeme, o.move = .push .group ∧ Stands (h.after c).rest o ∧
        c.rest = o.text ++ (h.after c).rest ∧ (h.after c).pos = c.pos + o.text.length ∧
        h.items c = [.token ⟨c.pos, o.text, o.cls⟩] ∧ Item.isClosed sub = true ∧
        SoundItems .group sub ∧ SoundItems m items := by
  have hmem := (Mode.search_sound hs).mem
  have hrule : h.rule = ⟨.groupOpener, .emit .bracket, .push .group⟩ := by
    rcases Mode.rule_of_inline hm _ hmem with ⟨he, -⟩ | he | he
    · rw [hmove] at he
      cases he
    · rw [hmove] at he
      cases he
    · exact he
  obtain rfl : inner = .group := by
    rw [hrule] at hmove
    exact (Move.push.inj hmove).symm
  have hemit : h.rule.effect = .emit .bracket := by rw [hrule]
  rw [List.append_assoc] at hsound
  have hskipped := Mode.Hit.skipped_eq_zero hs fun t ht =>
    hsound.not_stray t (List.mem_append_left _ ht)
  obtain ⟨u, hne, hc, hpos, hfirst, hitems⟩ := Mode.Hit.token_of_start hs hemit hskipped
  rw [hitems, List.singleton_append] at hsound
  obtain ⟨⟨htoken, htree⟩, hrest⟩ := (soundItems_push hstart).mp hsound
  have hbody : m.isBody = false := by
    rcases hm with hm | rfl
    · cases m <;> first | rfl | cases hm
    · rfl
  have hopens : Opens m ⟨c.pos, u, .bracket⟩ .group :=
    opens_of_makes hmove ⟨hemit, ⟨_, hfirst⟩, hne⟩
  have hclosed := (soundToken_group_iff hbody hopens).mp htoken
  rw [soundTree_iff_soundItems (by decide) (by decide)] at htree
  have hu : u = ['('] ∨ u = ['['] ∨ u = ['\x7b'] := by
    cases hopens with
    | group _ _ ht => exact ht
  have htakes : Rule.Takes ⟨.groupOpener, .emit .bracket, .push .group⟩ u (h.after c).rest :=
    Mode.first?_groupOpener rfl _ hu
  refine ⟨rfl, ⟨u, .bracket⟩, htakes.move_eq rfl, stands_of_takes hne htakes rfl, hc, hpos, hitems,
    hclosed, htree, hrest⟩

theorem Item.nested_eq {m : Mode} {sub : List Item} (h : sub ≠ []) :
    nested m sub = [.context m sub] := by
  cases sub with
  | nil => exact absurd rfl h
  | cons i is => rfl

/-- A group in order, with its closing bracket. -/
theorem Scans.pieces_group {m : Mode} {c stop : Cursor} {items : List Item}
    (h : Scans m c items stop) : m = .group → SoundItems m items → Item.isClosed items = true →
      ∃ i k sub, items = sub ++ [.token ⟨c.pos + i.length, k.text, k.cls⟩] ∧
        c.rest = i ++ (k.text ++ stop.rest) ∧ stop.pos = c.pos + i.length + k.text.length ∧
        Pieces c.pos i sub (k.text ++ stop.rest) ∧ Stands stop.rest k ∧ k.move = .pop := by
  induction h with
  | @stop m c hs =>
    rintro rfl _ hclosed
    rw [Mode.search_eq_none (.inr rfl) hs, List.length_nil, c.take_zero] at hclosed
    cases hclosed
  | @stay m c stop h items hs hmove hscan ih =>
    rintro rfl hsound hclosed
    obtain ⟨u, cls, hne, hc, hpos, hfirst, hemit, hitems⟩ := Mode.Hit.token_of_total (.inr rfl) hs
    obtain ⟨left, hformed, -⟩ := hscan.formed
    have htakes : h.rule.Takes u (h.after c).rest := hfirst
    rw [hitems, List.singleton_append] at hsound hclosed ⊢
    obtain ⟨htoken, hrest⟩ := (soundItems_token hformed.startsWithToken).mp hsound
    cases items with
    | nil =>
      have hopen : Formed .group [.token ⟨c.pos, u, cls⟩] false :=
        .stay hmove ⟨hemit, ⟨_, hfirst⟩, hne⟩ .stop
      cases hopen.closed_group_iff.mp hclosed
    | cons j js =>
      rw [← List.singleton_append, Item.isClosed_append (List.cons_ne_nil j js)] at hclosed
      obtain ⟨i, k, sub, heq, hafter, hstop, hpieces, hk, hclose⟩ := ih rfl hrest hclosed
      have hfound := htakes.foundAs hne hemit
      rw [hafter] at hfound
      rw [hpos] at heq hstop hpieces
      refine ⟨u ++ i, k, .token ⟨c.pos, u, cls⟩ :: sub, ?_, ?_, ?_, ?_, hk, hclose⟩
      · rw [heq, List.length_append, ← Nat.add_assoc]
        rfl
      · rw [hc, hafter, List.append_assoc]
      · rw [hstop, List.length_append, ← Nat.add_assoc]
      · exact hpieces.cons (l := ⟨u, cls⟩) hfound hne htoken.matched (hfound.stay hmove)
  | @pop m c h hs hmove =>
    rintro rfl hsound hclosed
    obtain ⟨u, cls, hne, hc, hpos, hfirst, hemit, hitems⟩ := Mode.Hit.token_of_total (.inr rfl) hs
    have htakes : h.rule.Takes u (h.after c).rest := hfirst
    exact ⟨[], ⟨u, cls⟩, [], hitems, hc, hpos, .nil, stands_of_takes hne htakes hemit,
      (htakes.move_eq hemit).trans hmove⟩
  | @push m inner c back stop h sub items hs hmove hsub hrest ihsub ih =>
    rintro rfl hsound hclosed
    obtain ⟨left, hformed, -⟩ := hrest.formed
    obtain ⟨rfl, o, hopen, ho, hc, hpos, hitems, hsubclosed, hsubsound, hrestsound⟩ :=
      Mode.Hit.opens_group (.inr rfl) hs hmove hformed.startsWithToken hsound
    obtain ⟨i, k, inner, heq, hafter, hback, hpieces, hk, hclose⟩ := ihsub rfl hsubsound hsubclosed
    have hnested := Item.nested_eq (m := .group) (Item.ne_nil_of_isClosed hsubclosed)
    rw [hitems, hnested, List.append_assoc] at hclosed ⊢
    cases items with
    | nil => cases hclosed
    | cons j js =>
      rw [← List.append_assoc, Item.isClosed_append (List.cons_ne_nil j js)] at hclosed
      obtain ⟨i', k', sub', heq', hafter', hstop, hpieces', hk', hclose'⟩ := ih rfl hrestsound hclosed
      rw [hpos] at heq hback hpieces
      rw [hback] at heq' hstop hpieces'
      rw [hafter] at ho
      rw [hafter'] at ho hk hpieces
      refine ⟨o.text ++ (i ++ (k.text ++ i')), k',
        .token ⟨c.pos, o.text, o.cls⟩ :: .context .group sub :: sub', ?_, ?_, ?_, ?_, hk', hclose'⟩
      · rw [heq']
        simp [Nat.add_assoc]
      · rw [hc, hafter, hafter']
        simp
      · rw [hstop]
        simp [Nat.add_assoc]
      · rw [heq]
        exact .group ho hopen hpieces hk hclose hpieces'

theorem Item.closedBy?_append {c : List Char} {is js : List Item} (h : js ≠ []) :
    closedBy? c (is ++ js) = closedBy? c js := by
  simp only [closedBy?, List.getLast?_append_of_ne_nil is h]

/-- What ends a context is no part of its expression: the comma behind an attribute, and the mark
that closes a raw expression or a decoration. -/
structure Bounded (m : Mode) (items tail : List Item) : Prop where
  comma : m = .attribute → (Item.closedBy? [','] items).isSome = true → tail ≠ []
  mark : m = .rawExpression ∨ m = .decoration → tail ≠ []

theorem Bounded.of_append {m : Mode} {is items tail : List Item}
    (h : Bounded m (is ++ items) tail) : Bounded m items tail := by
  refine ⟨fun hm hcomma => h.comma hm ?_, h.mark⟩
  cases items with
  | nil => cases hcomma
  | cons i is' => rwa [Item.closedBy?_append (List.cons_ne_nil i is')]

/-- The token of a match that ends a value, if it belongs to the expression. -/
theorem pieces_of_pop {m : Mode} {c : Cursor} {h : Mode.Hit} {own tail : List Item}
    (hm : m.isInline = true) (hs : m.search c.rest = some h) (hmove : h.rule.move = .pop)
    (hsound : SoundItems m (h.items c)) (hbounded : Bounded m (h.items c) tail)
    (he : h.items c = own ++ tail) (hown : own ≠ []) :
    ∃ s r, c.rest = s ++ r ∧ Pieces c.pos s own r := by
  have hmem := (Mode.search_sound hs).mem
  have hskipped := Mode.Hit.skipped_eq_zero hs hsound.not_stray
  cases hemit : h.rule.effect with
  | skip =>
    have hnil : h.items c = [] := by
      rw [Mode.Hit.items, hskipped, Cursor.take_zero, hemit]
      rfl
    rw [hnil] at he
    exact absurd (List.append_eq_nil_iff.mp he.symm).1 hown
  | emit cls =>
    obtain ⟨u, hne, hc, hpos, hfirst, hitems⟩ := Mode.Hit.token_of_start hs hemit hskipped
    rw [hitems] at he hsound hbounded
    obtain ⟨rfl, rfl⟩ : own = [.token ⟨c.pos, u, cls⟩] ∧ tail = [] := by
      cases own with
      | nil => exact absurd rfl hown
      | cons i is =>
        obtain ⟨rfl, hnil⟩ := List.cons.inj he
        obtain ⟨rfl, rfl⟩ := List.append_eq_nil_iff.mp hnil.symm
        exact ⟨rfl, rfl⟩
    have hmark : ¬ (m = .rawExpression ∨ m = .decoration) := fun hm => hbounded.mark hm rfl
    have hrules : ∀ m : Mode, m.isInline = true → ¬ (m = .rawExpression ∨ m = .decoration) →
        ∀ r ∈ m.rules, r.move = .pop → m = .attribute ∧ r.pattern = .separator ∨ r.effect = .skip ∨
          r = ⟨.lastString, .emit .string, .pop⟩ := by
      intro m hm hmark
      cases m <;> first | decide | exact absurd (by decide) hmark | cases hm
    rcases hrules m hm hmark _ hmem hmove with ⟨hattribute, hp⟩ | hskip | hrule
    · have hmatch := (Rule.first?_eq_some hfirst).2
      rw [hp] at hmatch
      obtain ⟨d, rfl, hd⟩ := eq_of_one hmatch
      obtain rfl : d = ',' := by simpa using hd
      exact absurd rfl (hbounded.comma hattribute rfl)
    · rw [hskip] at hemit
      cases hemit
    · rw [hrule] at hemit
      cases hemit
      have hfound : FoundAs h.rule (h.after c).rest ⟨u, .string⟩ :=
        foundAs_of_first? hm hne hfirst (by rw [hrule]) (.inr (by rw [hrule]))
      refine ⟨u, (h.after c).rest, hc, ?_⟩
      have hpiece : Pieces c.pos (u ++ []) [.token ⟨c.pos, u, .string⟩] (h.after c).rest :=
        Pieces.cons (l := ⟨u, .string⟩) hfound hne (by rintro ⟨⟩) rfl .nil
      rwa [List.append_nil] at hpiece

/-- The items of an expression in order, up to the end of the expression, with their text. -/
theorem Scans.pieces {m : Mode} {c stop : Cursor} {items : List Item} (h : Scans m c items stop) :
    m.isInline = true → ∀ {own tail : List Item}, items = own ++ tail → StartsWithToken tail →
      SoundItems m items → Bounded m items tail → ∃ s r, c.rest = s ++ r ∧ Pieces c.pos s own r := by
  induction h with
  | @stop m c hs =>
    intro _ own tail he _ hsound _
    have hnil : c.rest = [] := by
      by_contra hne
      have htake := c.take_eq .stray (List.length_pos_iff.mpr hne) (Nat.le_refl _)
      rw [htake] at hsound
      exact hsound.not_stray _ List.mem_cons_self rfl
    rw [hnil, List.length_nil, c.take_zero] at he
    obtain ⟨rfl, -⟩ := List.append_eq_nil_iff.mp he.symm
    exact ⟨[], c.rest, rfl, .nil⟩
  | @stay m c stop h items hs hmove hscan ih =>
    intro hm own tail he htail hsound hbounded
    cases own with
    | nil => exact ⟨[], c.rest, rfl, .nil⟩
    | cons i own =>
      have hmem := (Mode.search_sound hs).mem
      have hskipped := Mode.Hit.skipped_eq_zero hs fun t ht =>
        hsound.not_stray t (List.mem_append_left _ ht)
      have hrules : ∀ m : Mode, m.isInline = true → ∀ r ∈ m.rules, r.move = .stay →
          r.effect ≠ .skip := by
        intro m hm
        cases m <;> cases hm <;> decide
      have hskip := hrules m hm _ hmem hmove
      obtain ⟨cls, hemit⟩ : ∃ cls, h.rule.effect = .emit cls := by
        cases hemit : h.rule.effect with
        | skip => exact absurd hemit hskip
        | emit cls => exact ⟨cls, rfl⟩
      obtain ⟨u, hne, hc, hpos, hfirst, hitems⟩ := Mode.Hit.token_of_start hs hemit hskipped
      obtain ⟨left, hformed, -⟩ := hscan.formed
      have hbounded' := hbounded.of_append
      rw [hitems, List.singleton_append] at he hsound
      obtain ⟨rfl, hitems'⟩ := List.cons.inj he
      obtain ⟨htoken, hrest⟩ := (soundItems_token hformed.startsWithToken).mp hsound
      obtain ⟨s, r, hafter, hpieces⟩ := ih hm hitems' htail hrest hbounded'
      have hfound := foundAs_of_first? hm hne hfirst hemit (.inl hmove)
      rw [hafter] at hfound
      rw [hpos] at hpieces
      refine ⟨u ++ s, r, by rw [hc, hafter, List.append_assoc], ?_⟩
      exact hpieces.cons (l := ⟨u, cls⟩) hfound hne htoken.matched (hfound.stay hmove)
  | @pop m c h hs hmove =>
    intro hm own tail he _ hsound hbounded
    by_cases hown : own = []
    · subst hown
      exact ⟨[], c.rest, rfl, .nil⟩
    · exact pieces_of_pop hm hs hmove hsound hbounded he hown
  | @push m inner c back stop h sub items hs hmove hsub hrest _ ih =>
    intro hm own tail he htail hsound hbounded
    cases own with
    | nil => exact ⟨[], c.rest, rfl, .nil⟩
    | cons j own =>
      obtain ⟨left, hformed, -⟩ := hrest.formed
      obtain ⟨rfl, o, hopen, ho, hc, hpos, hitems, hsubclosed, hsubsound, hrestsound⟩ :=
        Mode.Hit.opens_group (.inl hm) hs hmove hformed.startsWithToken hsound
      obtain ⟨i, k, inner, heq, hafter, hback, hpieces, hk, hclose⟩ :=
        hsub.pieces_group rfl hsubsound hsubclosed
      have hbounded' := hbounded.of_append
      have hnested := Item.nested_eq (m := .group) (Item.ne_nil_of_isClosed hsubclosed)
      rw [hitems, hnested, List.append_assoc, List.singleton_append] at he
      obtain ⟨rfl, he'⟩ := List.cons.inj he
      cases own with
      | nil => exact absurd he'.symm (htail _ _ _)
      | cons j own =>
        obtain ⟨rfl, hitems'⟩ := List.cons.inj he'
        obtain ⟨s, r, hafter', hpieces'⟩ := ih hm hitems' htail hrestsound hbounded'
        rw [hpos] at heq hback hpieces
        rw [hback] at hpieces'
        rw [hafter] at ho
        rw [hafter'] at ho hk hpieces
        refine ⟨o.text ++ (i ++ (k.text ++ s)), r, ?_, ?_⟩
        · rw [hc, hafter, hafter']
          simp
        · rw [heq]
          exact .group ho hopen hpieces hk hclose hpieces'

end BlockMarkup
