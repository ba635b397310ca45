import BlockMarkup.Proofs.Expression.Pieces

/-!
# BlockMarkup.Proofs.Expression.Gaps

The white space of an expression. The context of a value may find the white space between two tokens
in parts; lexing the expression on its own finds it in one. So what holds of the parts, and of any two
of them together, holds of the white space on its own (`Pieces.blank_of_lex`).
-/

namespace BlockMarkup

open Text Lexeme

variable {m : Mode}

/-- What a group takes and does not close it with, an expression on its own takes as well. -/
theorem Rule.Takes.first?_expression {r : Rule} {u t : List Char} {cls : TokenClass}
    (h : r.Takes u t) (hemit : r.effect = .emit cls) (hmove : r.move ≠ .pop) : ∃ q : Rule,
      first? Mode.expression.rules (u ++ t) = some (u.length, q) ∧ q.effect = .emit cls ∧
        q.move = r.move := by
  have hgroup : Mode.group.rules = [⟨.groupCloser, .emit .bracket, .pop⟩,
    ⟨.separator, .emit .text, .stay⟩] ++ expression := rfl
  have hrules : Mode.expression.rules = ⟨.looseMark, .emit .text, .stay⟩ :: expression := rfl
  have hfirst : first? Mode.group.rules (u ++ t) = some (u.length, r) := h
  rw [hgroup] at hfirst
  rw [hrules]
  rcases first?_append_eq_some hfirst with ⟨hr, hmatch⟩ | hshared
  · simp only [List.mem_cons, List.not_mem_nil, or_false] at hr
    rcases hr with rfl | rfl
    · exact absurd rfl hmove
    · obtain ⟨hn, c, s, hs, hc⟩ := Pattern.one_eq_some hmatch
      obtain rfl : c = ',' := by simpa using hc
      refine ⟨_, first?_cons_some ?_, hemit, rfl⟩
      rw [hs, hn]
      rfl
  · obtain ⟨hr, hmatch⟩ := first?_eq_some hshared
    obtain ⟨c, s, hs, hc⟩ := Pattern.opensWith_of_length? hmatch
    have hmark := opensWith_mark r hr
    have hne : ∀ d ∈ [',', ')', ']', '\x7d'], c ≠ d := by
      rintro d hd rfl
      rw [hmark c hd] at hc
      cases hc
    refine ⟨r, ?_, hemit, rfl⟩
    rw [first?_cons_none, hshared]
    rw [hs]
    apply Pattern.length?_eq_none
    simp [Pattern.opensWith, hne ',' (by decide), hne ')' (by decide), hne ']' (by decide),
      hne '\x7d' (by decide)]

/-- What stands in front of a text is read there, on its own and in a group. -/
theorem Lexeme.Stands.reads {l : Lexeme} {t : List Char} (h : Stands t l) (hmove : l.move = .stay)
    (hm : m = .expression ∨ m = .group) (p : Nat) :
    Reads m ⟨p, l.text ++ t⟩ [.token ⟨p, l.text, l.cls⟩] ⟨p + l.text.length, t⟩ := by
  obtain ⟨r, htakes, hemit⟩ := h.takes
  have hstay : r.move = .stay := (htakes.move_eq hemit).symm.trans hmove
  rcases hm with rfl | rfl
  · obtain ⟨q, hfirst, hemit', hmove'⟩ :=
      htakes.first?_expression hemit (by rw [hstay]; exact nofun)
    exact Reads.stay_text rfl h.text_ne_nil hfirst hemit' (hmove'.trans hstay)
  · exact Reads.stay_text rfl h.text_ne_nil htakes hemit hstay

theorem Lexeme.Stands.head_not_blank {l : Lexeme} {t : List Char} (h : Stands t l)
    (hl : l.cls ≠ .blank) : ∃ c s, l.text = c :: s ∧ isBlank c = false := by
  obtain ⟨r, htakes, hemit⟩ := h.takes
  obtain ⟨c, s, hs, hc⟩ := htakes.head_not_blank hemit hl
  obtain ⟨d, v, hv⟩ := List.exists_cons_of_ne_nil h.text_ne_nil
  rw [hv, List.cons_append] at hs
  obtain rfl := (List.cons.inj hs).1
  exact ⟨d, v, hv, hc⟩

/-- All white space in front of something else is one token. -/
theorem reads_gap {w t : List Char} (hw : ∀ c ∈ w, isBlank c = true)
    (ht : ∀ c ∈ t.head?, isBlank c = false) (hm : m = .expression ∨ m = .group) (p : Nat) :
    ∃ is, Reads m ⟨p, w ++ t⟩ is ⟨p + w.length, t⟩ ∧ ∀ u, .token u ∈ is → w ≠ [] ∧ u.text = w := by
  by_cases hne : w = []
  · subst hne
    exact ⟨[], .refl, nofun⟩
  · refine ⟨_, Stands.reads (l := ⟨w, .blank⟩) (.fits (.blank hne hw ht)) rfl hm p, fun u hu => ?_⟩
    cases List.mem_singleton.mp hu
    exact ⟨hne, rfl⟩

/-- `Q` holds of the white space outside of brackets. -/
def Item.Gaps (Q : List Char → Prop) (items : List Item) : Prop :=
  ∀ t : Token, .token t ∈ items → t.cls = .blank → Q t.text

namespace Item.Gaps

variable {Q : List Char → Prop} {is js : List Item}

theorem nil : Gaps Q [] := nofun

theorem append (hi : Gaps Q is) (hj : Gaps Q js) : Gaps Q (is ++ js) := fun t ht hc =>
  (List.mem_append.mp ht).elim (fun ht => hi t ht hc) fun ht => hj t ht hc

theorem right (h : Gaps Q (is ++ js)) : Gaps Q js := fun t ht => h t (List.mem_append_right _ ht)

theorem tail {i : Item} (h : Gaps Q (i :: is)) : Gaps Q is := @right Q [i] is h

theorem token {t : Token} (ht : t.cls ≠ .blank) (h : Gaps Q is) : Gaps Q (.token t :: is) := by
  intro u hu hc
  rcases List.mem_cons.mp hu with hu | hu
  · cases hu
    exact absurd hc ht
  · exact h u hu hc

theorem nested (m : Mode) (sub : List Item) : Gaps Q (Item.nested m sub) := by
  intro t ht
  cases sub with
  | nil => cases ht
  | cons i is => cases List.mem_singleton.mp ht

end Item.Gaps

/-- What is read behind white space is read with it. -/
theorem Reads.behind_gap {Q : List Char → Prop} {p : Nat} {w x : List Char} {js : List Item}
    {c : Cursor} (h : Reads m ⟨p + w.length, x⟩ js c) (hjs : Item.Gaps Q js)
    (hw : ∀ c ∈ w, isBlank c = true) (hx : ∀ c ∈ x.head?, isBlank c = false)
    (hm : m = .expression ∨ m = .group) (hQ : w ≠ [] → Q w) :
    ∃ ks, Reads m ⟨p, w ++ x⟩ ks c ∧ Item.Gaps Q ks := by
  obtain ⟨front, hreads, hfront⟩ := reads_gap hw hx hm p
  refine ⟨front ++ js, hreads.trans h, .append (fun t ht _ => ?_) hjs⟩
  obtain ⟨hne, he⟩ := hfront t ht
  exact he ▸ hQ hne

namespace Pieces

variable {pos : Nat} {s r : List Char} {is : List Item}

/-- In front of something else, an expression is read with white space in front of it. -/
theorem reads (h : Pieces pos s is r) :
    (∀ c ∈ r.head?, isBlank c = false) → (m = .expression ∨ m = .group) →
    ∀ {Q : List Char → Prop}, (∀ {a b}, Q a → Q b → Q (a ++ b)) → Item.Gaps Q is →
    ∀ p w, (∀ c ∈ w, isBlank c = true) → (w ≠ [] → Q w) →
      ∃ js, Reads m ⟨p, w ++ (s ++ r)⟩ js ⟨p + w.length + s.length, r⟩ ∧ Item.Gaps Q js := by
  induction h generalizing m with
  | nil =>
    intro hr hm Q _ _ p w hw hQ
    exact Reads.behind_gap .refl .nil hw hr hm hQ
  | @blank pos u s r is hne hu _ ih =>
    intro hr hm Q hjoin hgaps p w hw hQ
    have hwu : ∀ c ∈ w ++ u, isBlank c = true := List.forall_mem_append.mpr ⟨hw, hu⟩
    have hQu : Q u := hgaps _ List.mem_cons_self rfl
    have hQwu : Q (w ++ u) := by
      by_cases hnil : w = []
      · rw [hnil, List.nil_append]
        exact hQu
      · exact hjoin (hQ hnil) hQu
    obtain ⟨js, hreads, hjs⟩ := ih hr hm hjoin (hgaps.tail) p (w ++ u) hwu fun _ => hQwu
    refine ⟨js, ?_, hjs⟩
    rw [List.length_append, List.append_assoc, ← Nat.add_assoc] at hreads
    rw [List.length_append, List.append_assoc, ← Nat.add_assoc]
    exact hreads
  | @token pos l s r is hl hblank hstray hmove _ ih =>
    intro hr hm Q hjoin hgaps p w hw hQ
    obtain ⟨js, hreads, hjs⟩ := ih hr hm hjoin hgaps.tail (p + w.length + l.text.length) [] nofun
      fun hne => absurd rfl hne
    have hhead : ∀ c ∈ (l.text ++ (s ++ r)).head?, isBlank c = false := by
      obtain ⟨c, v, hv, hc⟩ := hl.head_not_blank hblank
      rw [hv]
      rintro d ⟨⟩
      exact hc
    have htoken := (hl.reads hmove hm (p + w.length)).trans hreads
    rw [List.append_assoc, List.length_append, ← Nat.add_assoc]
    exact htoken.behind_gap (.token hblank hjs) hw hhead hm hQ
  | @group pos o k i s r sub is ho hopen _ hk hclose _ ihsub ih =>
    intro hr hm Q hjoin hgaps p w hw hQ
    obtain ⟨hocls, hotext⟩ := ho.opener hopen
    obtain ⟨hkcls, hktext⟩ := hk.closer hclose
    have hkhead : ∀ c ∈ (k.text ++ (s ++ r)).head?, isBlank c = false := by
      rcases hktext with he | he | he <;> rw [he] <;> rintro c ⟨⟩ <;> decide
    have hohead : ∀ c ∈ (o.text ++ (i ++ (k.text ++ (s ++ r)))).head?, isBlank c = false := by
      rcases hotext with he | he | he <;> rw [he] <;> rintro c ⟨⟩ <;> decide
    -- The group is read by itself, up to the bracket that closes it.
    obtain ⟨q, hktakes, hkemit⟩ := hk.takes
    obtain ⟨sub', hsub, -⟩ := ihsub hkhead (.inr rfl) (Q := fun _ => True) (fun _ _ => trivial)
      (fun _ _ _ => trivial) (p + w.length + o.text.length) [] nofun fun _ => trivial
    have hscans := hsub _ _ (Scans.leave_text rfl hk.text_ne_nil hktakes hkemit
      ((hktakes.move_eq hkemit).symm.trans hclose))
    have hbody : m.isBody = false := by rcases hm with rfl | rfl <;> rfl
    have hgroup := Reads.push_text (c := ⟨p + w.length, o.text ++ (i ++ (k.text ++ (s ++ r)))⟩) rfl
      ho.text_ne_nil (Mode.first?_groupOpener hbody _ hotext) rfl rfl hscans
    obtain ⟨js, hreads, hjs⟩ := ih hr hm hjoin hgaps.tail.tail
      (p + w.length + o.text.length + i.length + k.text.length) [] nofun fun hne => absurd rfl hne
    have hall := hgroup.trans hreads
    have htext : o.text ++ (i ++ (k.text ++ s)) ++ r = o.text ++ (i ++ (k.text ++ (s ++ r))) := by
      simp
    simp only [List.length_append, ← Nat.add_assoc]
    rw [htext]
    exact hall.behind_gap (.append (.token nofun (.nested _ _)) hjs) hw hohead hm hQ

theorem behind_nothing {w v : List Char} {c d : Char} (h : Pieces pos (w ++ c :: v) is r)
    (hd : d ∈ (w ++ c :: v).head?) (hdblank : isBlank d = false)
    (hw : ∀ d ∈ w, isBlank d = true) : ∃ front js, is = front ++ js ∧
      (∀ i ∈ front, i.isBlank = true) ∧ Pieces (pos + w.length) (c :: v) js r := by
  cases w with
  | nil => exact ⟨[], is, rfl, nofun, h⟩
  | cons e w =>
    cases hd
    rw [hw _ List.mem_cons_self] at hdblank
    cases hdblank

/-- White space in front of something else has tokens of its own. -/
theorem behind_blanks {x w v : List Char} {c : Char} (h : Pieces pos x is r)
    (hx : x = w ++ c :: v) (hw : ∀ d ∈ w, isBlank d = true) (hc : isBlank c = false) :
    ∃ front js, is = front ++ js ∧ (∀ i ∈ front, i.isBlank = true) ∧
      Pieces (pos + w.length) (c :: v) js r := by
  induction h generalizing w with
  | nil => exact absurd hx.symm (List.append_ne_nil_of_right_ne_nil w (List.cons_ne_nil c v))
  | @blank pos u s r is hne hu h ih =>
    obtain ⟨a, rfl, rfl⟩ : ∃ a, w = u ++ a ∧ s = a ++ c :: v := by
      rcases List.append_eq_append_iff.mp hx with hsplit | ⟨b, rfl, hs⟩
      · exact hsplit
      · cases b with
        | nil => exact ⟨[], by simp, by simpa using hs.symm⟩
        | cons d b =>
          obtain rfl := (List.cons.inj hs).1
          rw [hu c (by simp)] at hc
          cases hc
    obtain ⟨front, js, rfl, hfront, hjs⟩ := ih rfl (List.forall_mem_append.mp hw).2
    refine ⟨_ :: front, js, rfl, List.forall_mem_cons.mpr ⟨rfl, hfront⟩, ?_⟩
    rwa [List.length_append, ← Nat.add_assoc]
  | @token pos l s r is hl hblank hstray hmove h _ =>
    obtain ⟨d, u, hd, hdblank⟩ := hl.head_not_blank hblank
    have htoken := Pieces.token hl hblank hstray hmove h
    rw [hx] at htoken
    exact htoken.behind_nothing (by rw [← hx, hd]; rfl) hdblank hw
  | @group pos o k i s r sub is ho hopen hsub hk hclose h _ _ =>
    obtain ⟨hocls, -⟩ := ho.opener hopen
    obtain ⟨d, u, hd, hdblank⟩ := ho.head_not_blank (by rw [hocls]; exact nofun)
    have hgroup := Pieces.group ho hopen hsub hk hclose h
    rw [hx] at hgroup
    exact hgroup.behind_nothing (by rw [← hx, hd]; rfl) hdblank hw

/-- Items in two rows stand in two texts, one behind the other. -/
theorem split {all : List Item} (h : Pieces pos s all r) : ∀ {is js : List Item}, all = is ++ js →
    StartsWithToken js → ∃ u v, s = u ++ v ∧ Pieces pos u is (v ++ r) ∧
      Pieces (pos + u.length) v js r := by
  induction h with
  | nil =>
    intro is js he _
    obtain ⟨rfl, rfl⟩ := List.append_eq_nil_iff.mp he.symm
    exact ⟨[], [], rfl, .nil, .nil⟩
  | @blank pos u s r all hne hu h ih =>
    intro is js he hstart
    cases is with
    | nil =>
      cases he
      exact ⟨[], _, rfl, .nil, .blank hne hu h⟩
    | cons i is =>
      obtain ⟨rfl, hrest⟩ := List.cons.inj he
      obtain ⟨a, b, rfl, his, hjs⟩ := ih hrest hstart
      refine ⟨u ++ a, b, (List.append_assoc u a b).symm, .blank hne hu his, ?_⟩
      rwa [List.length_append, ← Nat.add_assoc]
  | @token pos l s r all hl hblank hstray hmove h ih =>
    intro is js he hstart
    cases is with
    | nil =>
      cases he
      exact ⟨[], _, rfl, .nil, .token hl hblank hstray hmove h⟩
    | cons i is =>
      obtain ⟨rfl, hrest⟩ := List.cons.inj he
      obtain ⟨a, b, rfl, his, hjs⟩ := ih hrest hstart
      rw [List.append_assoc] at hl
      refine ⟨l.text ++ a, b, (List.append_assoc _ a b).symm,
        .token hl hblank hstray hmove his, ?_⟩
      rwa [List.length_append, ← Nat.add_assoc]
  | @group pos o k i s r sub all ho hopen hsub hk hclose h _ ih =>
    intro is js he hstart
    rcases is with _ | ⟨j, _ | ⟨j', is⟩⟩
    · cases he
      exact ⟨[], _, rfl, .nil, .group ho hopen hsub hk hclose h⟩
    · exact absurd (List.cons.inj he).2.symm (hstart _ _ _)
    · obtain ⟨rfl, htail⟩ := List.cons.inj he
      obtain ⟨rfl, hrest⟩ := List.cons.inj htail
      obtain ⟨a, b, rfl, his, hjs⟩ := ih hrest hstart
      rw [List.append_assoc] at ho hsub hk
      refine ⟨o.text ++ (i ++ (k.text ++ a)), b, by simp, .group ho hopen hsub hk hclose his, ?_⟩
      simpa [Nat.add_assoc] using hjs

/-- The white space of an expression on its own. -/
theorem blank_of_lex {Q : List Char → Prop} (h : Pieces pos s is []) (hjoin : ∀ {a b}, Q a → Q b → Q (a ++ b))
    (hQ : Item.Gaps Q is) : Item.Gaps Q (lex .expression s) := by
  obtain ⟨js, hreads, hjs⟩ := h.reads nofun (.inl rfl) hjoin hQ 0 [] nofun fun hne => absurd rfl hne
  have hscans := hreads [] _ (Scans.stop rfl)
  rw [List.append_nil, List.append_nil, List.nil_append] at hscans
  rw [lex_eq_of_scans isBottom_expression hscans]
  exact hjs

end Pieces
end BlockMarkup
