import BlockMarkup.Proofs.Expression.Pieces

/-!
# BlockMarkup.Proofs.Document.Located

Where the tokens of a text stand. They are in the order of the text and do not overlap
(`Scans.ordered`), and every context among them was read from a place in that text (`Scans.located`).
-/

namespace BlockMarkup

/-- The tokens stand one behind the other, between two positions. -/
structure Ordered (p : Nat) (ts : List Token) (q : Nat) : Prop where
  le : p ≤ q
  within : ∀ t ∈ ts, p ≤ t.pos ∧ t.stop ≤ q
  sorted : ts.Pairwise fun a b => a.stop ≤ b.pos

namespace Ordered

variable {p q r : Nat} {ts us : List Token}

theorem nil (h : p ≤ q) : Ordered p [] q := ⟨h, nofun, .nil⟩

theorem append (h : Ordered p ts q) (h' : Ordered q us r) : Ordered p (ts ++ us) r := by
  refine ⟨Nat.le_trans h.le h'.le, fun t ht => ?_, List.pairwise_append.mpr
    ⟨h.sorted, h'.sorted, fun a ha b hb => ?_⟩⟩
  · rcases List.mem_append.mp ht with ht | ht
    · exact ⟨(h.within t ht).1, Nat.le_trans (h.within t ht).2 h'.le⟩
    · exact ⟨Nat.le_trans h.le (h'.within t ht).1, (h'.within t ht).2⟩
  · exact Nat.le_trans (h.within a ha).2 (h'.within b hb).1

end Ordered

namespace Item

theorem tokensAll_nested (m : Mode) (sub : List Item) : tokensAll (nested m sub) = tokensAll sub := by
  cases sub with
  | nil => rfl
  | cons i is => exact List.append_nil _

theorem mem_tokensAll_of_mem {items : List Item} {t : Token} (h : .token t ∈ items) :
    t ∈ tokensAll items := by
  induction items with
  | nil => cases h
  | cons i is ih =>
    rw [tokensAll]
    rcases List.mem_cons.mp h with rfl | h
    · exact List.mem_append_left _ List.mem_cons_self
    · exact List.mem_append_right _ (ih h)

end Item

namespace Cursor

theorem ordered_take (c : Cursor) (n : Nat) (cls : TokenClass) :
    Ordered c.pos (Item.tokensAll (c.take n cls)) (c.pos + n) := by
  unfold take
  split
  · exact .nil (Nat.le_add_right _ _)
  · refine ⟨Nat.le_add_right _ _, fun t ht => ?_, List.pairwise_singleton _ _⟩
    cases List.mem_singleton.mp ht
    exact ⟨Nat.le_refl _, Nat.add_le_add_left (List.length_take_le n c.rest) _⟩

theorem ordered_emit (c : Cursor) (n : Nat) (e : Effect) :
    Ordered c.pos (Item.tokensAll (c.emit n e)) (c.pos + n) := by
  cases e with
  | skip => exact .nil (Nat.le_add_right _ _)
  | emit cls => exact c.ordered_take n cls

theorem contextsAll_take (c : Cursor) (n : Nat) (cls : TokenClass) :
    Item.contextsAll (c.take n cls) = [] := by
  unfold take
  split <;> rfl

/-- The cursor is a place in the text. -/
def In (c : Cursor) (text : List Char) : Prop := ∃ before, text = before ++ c.rest ∧ c.pos = before.length

theorem in_start (text : List Char) : (start text).In text := ⟨[], rfl, rfl⟩

theorem In.advance {c : Cursor} {text : List Char} {n : Nat} (h : c.In text)
    (hn : n ≤ c.rest.length) : (c.advance n).In text := by
  obtain ⟨before, htext, hpos⟩ := h
  refine ⟨before ++ c.rest.take n, ?_, ?_⟩
  · rw [Cursor.advance, List.append_assoc, List.take_append_drop, htext]
  · rw [Cursor.advance, List.length_append, List.length_take, Nat.min_eq_left hn, hpos]

end Cursor

namespace Mode.Hit

theorem ordered_items (h : Hit) (c : Cursor) :
    Ordered c.pos (Item.tokensAll (h.items c)) (h.after c).pos := by
  rw [items, Item.tokensAll_append]
  exact (c.ordered_take _ _).append ((c.advance h.skipped).ordered_emit _ _)

theorem contextsAll_items (h : Hit) (c : Cursor) : Item.contextsAll (h.items c) = [] := by
  rw [items, Item.contextsAll_append, Cursor.contextsAll_take]
  cases h.rule.effect with
  | skip => rfl
  | emit cls => exact Cursor.contextsAll_take _ _ _

theorem in_after {m : Mode} {h : Hit} {c : Cursor} {text : List Char} (hs : m.search c.rest = some h)
    (hc : c.In text) : (h.after c).In text := by
  have hle := (Mode.search_sound hs).le
  refine (hc.advance ?_).advance ?_
  · omega
  · rw [Cursor.advance, List.length_drop]
    omega

end Mode.Hit

/-- The tokens that lexing finds are in the order of the text. -/
theorem Scans.ordered {m : Mode} {c stop : Cursor} {items : List Item} (h : Scans m c items stop) :
    Ordered c.pos (Item.tokensAll items) stop.pos := by
  induction h with
  | stop _ => exact Cursor.ordered_take _ _ _
  | stay _ _ _ ih =>
    rw [Item.tokensAll_append]
    exact (Mode.Hit.ordered_items _ _).append ih
  | pop _ _ => exact Mode.Hit.ordered_items _ _
  | push _ _ _ _ ihsub ih =>
    rw [Item.tokensAll_append, Item.tokensAll_append, Item.tokensAll_nested]
    exact ((Mode.Hit.ordered_items _ _).append ihsub).append ih

/-- Every context that lexing finds was read from a place in the text. -/
theorem Scans.located {m : Mode} {c stop : Cursor} {items : List Item} {text : List Char}
    (h : Scans m c items stop) (hc : c.In text) : stop.In text ∧
      ∀ p ∈ Item.contextsAll items, ∃ c' back : Cursor, c'.In text ∧ Scans p.1 c' p.2 back := by
  induction h with
  | stop _ =>
    rw [Cursor.contextsAll_take]
    exact ⟨hc.advance (Nat.le_refl _), nofun⟩
  | stay hs _ _ ih =>
    obtain ⟨hstop, hitems⟩ := ih (Mode.Hit.in_after hs hc)
    rw [Item.contextsAll_append, Mode.Hit.contextsAll_items]
    exact ⟨hstop, hitems⟩
  | pop hs _ =>
    rw [Mode.Hit.contextsAll_items]
    exact ⟨Mode.Hit.in_after hs hc, nofun⟩
  | @push m inner c back stop h sub items hs hmove hsub hrest ihsub ih =>
    have hafter := Mode.Hit.in_after hs hc
    obtain ⟨hback, hsubitems⟩ := ihsub hafter
    obtain ⟨hstop, hitems⟩ := ih hback
    refine ⟨hstop, fun p hp => ?_⟩
    rw [Item.contextsAll_append, Item.contextsAll_append, Mode.Hit.contextsAll_items,
      List.nil_append] at hp
    rcases List.mem_append.mp hp with hp | hp
    · cases sub with
      | nil => cases hp
      | cons i is =>
        simp only [Item.nested, Item.contextsAll, Item.contexts, List.append_nil] at hp
        rcases List.mem_cons.mp hp with rfl | hp
        · exact ⟨h.after c, back, hafter, hsub⟩
        · exact hsubitems p hp
    · exact hitems p hp

namespace Item

mutual

/-- The tokens of a context stand among those of the item around it, with more contexts around. -/
theorem exists_infix_leveled {p : Mode × List Item} (d : Nat) : (i : Item) → p ∈ contexts i →
    ∃ k before behind, leveled d i = before ++ (leveledAll (d + k) p.2 ++ behind)
  | .token _, h => nomatch h
  | .context _ items, h => by
    rcases List.mem_cons.mp h with rfl | h
    · exact ⟨1, [], [], (List.append_nil _).symm⟩
    · obtain ⟨k, before, behind, he⟩ := exists_infix_leveledAll (d + 1) items h
      exact ⟨k + 1, before, behind, by rw [leveled, he, Nat.add_assoc, Nat.add_comm 1]⟩

theorem exists_infix_leveledAll {p : Mode × List Item} (d : Nat) : (items : List Item) →
    p ∈ contextsAll items →
    ∃ k before behind, leveledAll d items = before ++ (leveledAll (d + k) p.2 ++ behind)
  | [], h => nomatch h
  | i :: is, h => by
    rcases List.mem_append.mp h with h | h
    · obtain ⟨k, before, behind, he⟩ := exists_infix_leveled d i h
      exact ⟨k, before, behind ++ leveledAll d is, by rw [leveledAll, he]; simp⟩
    · obtain ⟨k, before, behind, he⟩ := exists_infix_leveledAll d is h
      exact ⟨k, leveled d i ++ before, behind, by rw [leveledAll, he]; simp⟩

end

end Item
end BlockMarkup
