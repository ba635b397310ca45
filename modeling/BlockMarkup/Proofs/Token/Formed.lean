import BlockMarkup.Proofs.Token.Scan

/-!
# BlockMarkup.Proofs.Token.Formed

What the items of a context look like, whatever the text: `Formed m items left` says which tokens
and contexts can follow one another in mode `m`; `left` tells whether a match left the context, and
not the end of the text. A context stands directly after the token that opened it, and what
comes after a context that was not left is empty.
-/

namespace BlockMarkup

/-- In mode `m`, the rule `r` can make the token `t`. -/
structure Mode.Makes (m : Mode) (r : Rule) (t : Token) : Prop where
  effect : r.effect = .emit t.cls
  first : ∃ rest, Rule.first? m.rules (t.text ++ rest) = some (t.text.length, r)
  nonempty : t.text ≠ []

inductive Formed : Mode → List Item → Bool → Prop where
  | stop {m : Mode} : Formed m [] false
  | stray {m : Mode} {t : Token} {rest : List Char} {items : List Item} {left : Bool} :
      t.cls = .stray → Rule.first? m.rules (t.text ++ rest) = none →
      Formed m items left → Formed m (.token t :: items) left
  | stay {m : Mode} {r : Rule} {t : Token} {items : List Item} {left : Bool} : r.move = .stay →
      m.Makes r t → Formed m items left → Formed m (.token t :: items) left
  | close {m : Mode} {r : Rule} {t : Token} : r.move = .pop → m.Makes r t → Formed m [.token t] true
  | leave {m : Mode} {r : Rule} : r ∈ m.rules → r.move = .pop → r.effect = .skip → Formed m [] true
  | push {m inner : Mode} {r : Rule} {t : Token} {c back : Cursor} {sub items : List Item}
      {subLeft left : Bool} : r.move = .push inner → m.Makes r t → Scans inner c sub back →
      Formed inner sub subLeft → (subLeft = false → items = [] ∧ left = false) →
      Formed m items left → Formed m (.token t :: (Item.nested inner sub ++ items)) left

namespace Formed

/-- Text that is passed over is a stray token, if there is any. -/
theorem passed {m : Mode} {items : List Item} {left : Bool} (c : Cursor) (n : Nat)
    (hfirst : 0 < n → c.rest ≠ [] → Rule.first? m.rules c.rest = none)
    (h : Formed m items left) : Formed m (c.take n .stray ++ items) left := by
  unfold Cursor.take
  split
  · exact h
  · rename_i text hne
    have hnone : Rule.first? m.rules (c.rest.take n ++ c.rest.drop n) = none := by
      rw [List.take_append_drop]
      apply hfirst
      · exact Nat.pos_of_ne_zero fun hn => hne (by rw [hn, List.take_zero])
      · exact fun hr => hne (by rw [hr, List.take_nil])
    exact .stray rfl hnone h

end Formed

theorem Mode.looksAhead_of_emits (m : Mode) :
    ∀ r ∈ m.rules, r.effect ≠ .skip → r.pattern.looksAhead = false := by
  cases m <;> decide

theorem Mode.emits_of_push (m inner : Mode) :
    ∀ r ∈ m.rules, r.move = .push inner → r.effect ≠ .skip := by
  cases m <;> cases inner <;> decide

/-- A match that makes a token makes exactly one. -/
theorem Mode.Hit.emit_eq {m : Mode} {c : Cursor} {h : Mode.Hit} {cls : TokenClass}
    (hs : m.search c.rest = some h) (he : h.rule.effect = .emit cls) :
    ∃ t : Token, (c.advance h.skipped).emit h.length h.rule.effect = [.token t] ∧
      m.Makes h.rule t := by
  have hsound := Mode.search_sound hs
  have hpos : 0 < h.length :=
    Pattern.length?_pos (m.looksAhead_of_emits _ hsound.mem (by rw [he]; exact nofun)) hsound.matched
  have hle := Pattern.length?_le hsound.matched
  have htake := (c.advance h.skipped).take_eq cls hpos hle
  have hlen : ((c.rest.drop h.skipped).take h.length).length = h.length := by
    rw [List.length_take]
    omega
  refine ⟨⟨_, _, cls⟩, by rw [he]; exact htake, he, ⟨(c.rest.drop h.skipped).drop h.length, ?_⟩, ?_⟩
  · show Rule.first? m.rules ((c.rest.drop h.skipped).take h.length ++ _) =
      some (((c.rest.drop h.skipped).take h.length).length, h.rule)
    rw [List.take_append_drop, hlen, hsound.first]
  · intro hnil
    have : ((c.rest.drop h.skipped).take h.length).length = 0 := congrArg List.length hnil
    omega

/-- A match that stays in its context, in front of well formed items. -/
theorem Formed.stay_hit {m : Mode} {c : Cursor} {h : Mode.Hit} {items : List Item} {left : Bool}
    (hs : m.search c.rest = some h) (hm : h.rule.move = .stay) (hf : Formed m items left) :
    Formed m (h.items c ++ items) left := by
  rw [Mode.Hit.items, List.append_assoc]
  apply Formed.passed _ _ fun hpos _ => Mode.first?_of_skipped hs hpos
  cases he : h.rule.effect with
  | skip => exact hf
  | emit cls =>
    obtain ⟨t, ht, hmakes⟩ := Mode.Hit.emit_eq hs he
    rw [← he, ht]
    exact .stay hm hmakes hf

/-- A match that opens a context, in front of well formed items. -/
theorem Formed.push_hit {m inner : Mode} {c back : Cursor} {h : Mode.Hit} {sub items : List Item}
    {subLeft left : Bool} (hs : m.search c.rest = some h) (hm : h.rule.move = .push inner)
    (hscan : Scans inner (h.after c) sub back) (hsub : Formed inner sub subLeft)
    (hend : subLeft = false → items = [] ∧ left = false) (hf : Formed m items left) :
    Formed m (h.items c ++ Item.nested inner sub ++ items) left := by
  obtain ⟨cls, he⟩ : ∃ cls, h.rule.effect = .emit cls := by
    cases he : h.rule.effect with
    | skip => exact absurd he (m.emits_of_push inner _ (Mode.search_sound hs).mem hm)
    | emit cls => exact ⟨cls, rfl⟩
  obtain ⟨t, ht, hmakes⟩ := Mode.Hit.emit_eq hs he
  rw [Mode.Hit.items, ht, List.append_assoc, List.append_assoc]
  exact Formed.passed _ _ (fun hpos _ => Mode.first?_of_skipped hs hpos)
    (.push hm hmakes hscan hsub hend hf)

/-- The items of a context are well formed; one that no match left goes up to the end of the text. -/
theorem Scans.formed {m : Mode} {c stop : Cursor} {items : List Item} (h : Scans m c items stop) :
    ∃ left, Formed m items left ∧ (left = false → stop.rest = []) := by
  induction h with
  | @stop m c hs =>
    refine ⟨false, ?_, fun _ => by simp [Cursor.advance]⟩
    have := Formed.passed c c.rest.length (fun _ => Mode.first?_of_search_none hs)
      (Formed.stop (m := m))
    rwa [List.append_nil] at this
  | stay hs hm _ ih =>
    obtain ⟨left, hf, hstop⟩ := ih
    exact ⟨left, .stay_hit hs hm hf, hstop⟩
  | @pop m c h hs hm =>
    refine ⟨true, ?_, (by rintro ⟨⟩)⟩
    apply Formed.passed _ _ fun hpos _ => Mode.first?_of_skipped hs hpos
    cases he : h.rule.effect with
    | skip => exact .leave (Mode.search_sound hs).mem hm he
    | emit cls =>
      obtain ⟨t, ht, hmakes⟩ := Mode.Hit.emit_eq hs he
      rw [← he, ht]
      exact .close hm hmakes
  | push hs hm hscan hrest ihsub ih =>
    obtain ⟨subLeft, hsub, hback⟩ := ihsub
    cases subLeft with
    | true =>
      obtain ⟨left, hf, hstop⟩ := ih
      exact ⟨left, .push_hit hs hm hscan hsub (by rintro ⟨⟩) hf, hstop⟩
    | false =>
      -- The text ends inside the inner context.
      obtain ⟨rfl, hstop⟩ := hrest.of_rest_nil (hback rfl)
      exact ⟨false, .push_hit hs hm hscan hsub (fun _ => ⟨rfl, rfl⟩) .stop, fun _ => hstop⟩

theorem formed_lex {m : Mode} (hm : m.IsBottom) (text : List Char) :
    ∃ left, Formed m (lex m text) left := by
  obtain ⟨stop, h, -⟩ := scans_lex hm text
  obtain ⟨left, hf, -⟩ := h.formed
  exact ⟨left, hf⟩

/-- Where a token comes from: it was passed over, or a rule made it. -/
theorem Formed.origin {m : Mode} {items : List Item} {left : Bool} (h : Formed m items left) :
    ∀ t, Item.token t ∈ items →
      (t.cls = .stray ∧ ∃ rest, Rule.first? m.rules (t.text ++ rest) = none) ∨
      ∃ r, m.Makes r t := by
  induction h with
  | stop => intro t ht; cases ht
  | leave => intro t ht; cases ht
  | stray hs hfirst _ ih =>
    intro t ht
    cases List.mem_cons.mp ht with
    | inl he => cases he; exact .inl ⟨hs, _, hfirst⟩
    | inr hm => exact ih t hm
  | stay _ hmakes _ ih =>
    intro t ht
    cases List.mem_cons.mp ht with
    | inl he => cases he; exact .inr ⟨_, hmakes⟩
    | inr hm => exact ih t hm
  | close _ hmakes =>
    intro t ht
    cases List.mem_singleton.mp ht
    exact .inr ⟨_, hmakes⟩
  | @push m inner r u c back sub items _ _ _ hmakes _ _ _ _ _ ih =>
    intro t ht
    simp only [List.mem_cons, List.mem_append] at ht
    rcases ht with he | hn | hm
    · cases he; exact .inr ⟨_, hmakes⟩
    · cases sub with
      | nil => cases hn
      | cons i is => cases List.mem_singleton.mp hn
    · exact ih t hm

/-- The items of a context do not start with a context. -/
theorem Formed.not_context {m k : Mode} {sub items : List Item} {left : Bool} :
    ¬ Formed m (.context k sub :: items) left := nofun

end BlockMarkup
