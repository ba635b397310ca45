import BlockMarkup.Proofs.Expression.Pieces

/-!
# BlockMarkup.Proofs.Expression.Moved

The same expression at another place. How a text is cut does not depend on where it stands
(`Cuts.moved`), and the items of an expression do not depend on the brackets around it
(`Item.solid_add`). So what lexing finds in the middle of a text is what it finds in the expression
on its own (`Pieces.solid_eq`), also with a comma behind it (`Pieces.solid_comma`).
-/

namespace BlockMarkup

open Text

namespace Token

/-- The token, `p` characters further on. -/
def moved (p : Nat) (t : Token) : Token := { t with pos := t.pos + p }

theorem moved_injective (p : Nat) : Function.Injective (moved p) := by
  rintro ⟨pos, text, cls⟩ ⟨pos', text', cls'⟩ h
  simp only [moved, Token.mk.injEq, Nat.add_right_cancel_iff] at h
  obtain ⟨rfl, rfl, rfl⟩ := h
  rfl

end Token

/-- A token, `p` characters further on and with `k` more brackets around it. -/
def moved (k p : Nat) (t : Nat × Token) : Nat × Token := (t.1 + k, t.2.moved p)

theorem moved_injective (k p : Nat) : Function.Injective (moved k p) := by
  rintro ⟨d, t⟩ ⟨e, u⟩ h
  obtain ⟨hd, ht⟩ := Prod.mk.inj h
  exact Prod.ext (Nat.add_right_cancel hd) (Token.moved_injective p ht)

namespace Item

mutual

theorem leveled_add (d k : Nat) : (i : Item) → leveled (d + k) i = (leveled d i).map (moved k 0)
  | .token _ => rfl
  | .context _ items => by
    rw [leveled, leveled, Nat.add_right_comm, leveledAll_add (d + 1) k items]

theorem leveledAll_add (d k : Nat) :
    (items : List Item) → leveledAll (d + k) items = (leveledAll d items).map (moved k 0)
  | [] => rfl
  | i :: is => by
    rw [leveledAll, leveledAll, List.map_append, leveled_add d k i, leveledAll_add d k is]

end

theorem solid_add (d k : Nat) (items : List Item) :
    solid (d + k) items = (solid d items).map (moved k 0) := by
  rw [solid, leveledAll_add, List.filter_map]
  rfl

end Item

section

variable {p : Nat} {ts : List Token}

theorem levels_moved (d : Nat) (ts : List Token) :
    levels d (ts.map (Token.moved p)) = (levels d ts).map (moved 0 p) := by
  induction ts generalizing d with
  | nil => rfl
  | cons t ts ih =>
    have hmove : (t.moved p).lexeme.move = t.lexeme.move := rfl
    rw [List.map_cons]
    cases h : t.lexeme.move with
    | stay => rw [levels_stay d (hmove.trans h), levels_stay d h, ih, List.map_cons]; rfl
    | push m => rw [levels_push d (hmove.trans h), levels_push d h, ih, List.map_cons]; rfl
    | pop =>
      cases d with
      | zero => rw [levels_loose (hmove.trans h), levels_loose h, ih, List.map_cons]; rfl
      | succ d => rw [levels_pop d (hmove.trans h), levels_pop d h, ih, List.map_cons]; rfl

theorem after_moved (d : Nat) (ts : List Token) : after d (ts.map (Token.moved p)) = after d ts := by
  induction ts generalizing d with
  | nil => rfl
  | cons t ts ih =>
    have hmove : (t.moved p).lexeme.move = t.lexeme.move := rfl
    rw [List.map_cons]
    cases h : t.lexeme.move with
    | stay => rw [after_stay d (hmove.trans h), after_stay d h, ih]
    | push m => rw [after_push d (hmove.trans h), after_push d h, ih]
    | pop => rw [after_pop d (hmove.trans h), after_pop d h, ih]

end

namespace Cuts

variable {pos : Nat} {s : List Char} {ts : List Token}

theorem moved (p : Nat) (h : Cuts pos s ts) : Cuts (pos + p) s (ts.map (Token.moved p)) := by
  induction h with
  | nil => exact .nil
  | blank hc _ ih =>
    rw [Nat.add_right_comm] at ih
    exact .blank hc ih
  | piece hne htakes hemit hcls _ ih =>
    rw [Nat.add_right_comm] at ih
    exact .piece hne htakes hemit hcls ih

/-- The tokens behind white space are those of the rest on its own, moved to where it stands. -/
theorem exists_moved {w x : List Char} (h : Cuts pos (w ++ x) ts) (hw : ∀ c ∈ w, isBlank c = true) :
    ∃ us, Cuts 0 x us ∧ ts = us.map (Token.moved (pos + w.length)) := by
  obtain ⟨us, hus, -⟩ := cuts_lex x
  have hmoved := hus.moved (pos + w.length)
  rw [Nat.zero_add] at hmoved
  exact ⟨us, hus, (h.inv_blanks hw).deterministic hmoved⟩

theorem levels_eq_moved {w x : List Char} (h : Cuts pos (w ++ x) ts)
    (hw : ∀ c ∈ w, isBlank c = true) : levels 0 ts =
      (Item.solid 0 (lex .expression x)).map (BlockMarkup.moved 0 (pos + w.length)) := by
  obtain ⟨us, hus, rfl⟩ := h.exists_moved hw
  rw [levels_moved, hus.levels_eq]

/-- A token takes some of the text, and nothing else. -/
theorem within (h : Cuts pos s ts) :
    ∀ t ∈ ts, pos ≤ t.pos ∧ t.pos < t.stop ∧ t.stop ≤ pos + s.length := by
  intro t ht
  obtain ⟨a, b, rfl, hpos⟩ := h.exists_split t ht
  obtain ⟨c, v, htext, -⟩ := h.exists_head t ht
  simp only [Token.stop, hpos, htext, List.length_append, List.length_cons]
  omega

theorem exists_first (h : Cuts pos s ts) (hne : s ≠ []) (hs : ∀ c ∈ s.head?, isBlank c = false) :
    ∃ t us, ts = t :: us ∧ t.pos = pos := by
  cases h with
  | nil => exact absurd rfl hne
  | blank hc _ =>
    rw [hs _ rfl] at hc
    cases hc
  | piece => exact ⟨_, _, rfl, rfl⟩

theorem exists_last (h : Cuts pos s ts) (hne : s ≠ []) (hs : ∀ c ∈ s.getLast?, isBlank c = false) :
    ∃ t ∈ ts, t.stop = pos + s.length := by
  induction h with
  | nil => exact absurd rfl hne
  | @blank pos c s ts hc _ ih =>
    cases s with
    | nil =>
      rw [hs c rfl] at hc
      cases hc
    | cons d s =>
      obtain ⟨t, ht, hstop⟩ := ih (List.cons_ne_nil d s) hs
      refine ⟨t, ht, ?_⟩
      rw [hstop, List.length_cons (a := c), Nat.add_assoc, Nat.add_comm 1]
  | @piece pos u s r cls ts _ _ _ _ _ ih =>
    cases s with
    | nil => exact ⟨_, List.mem_cons_self, by rw [Token.stop, List.append_nil]⟩
    | cons d s =>
      rw [List.getLast?_append_of_ne_nil _ (List.cons_ne_nil d s)] at hs
      obtain ⟨t, ht, hstop⟩ := ih (List.cons_ne_nil d s) hs
      refine ⟨t, List.mem_cons_of_mem _ ht, ?_⟩
      rw [hstop, List.length_append, Nat.add_assoc]

end Cuts

/-! ## An expression in the middle of a text -/

namespace Pieces

variable {pos : Nat} {w x r : List Char} {is : List Item}

theorem exists_cuts (h : Pieces pos (w ++ x) is r) : ∃ ts, Cuts pos (w ++ x) ts ∧ NoStray ts ∧
    ∀ d, levels d ts = Item.solid d is ∧ after d ts = d := by
  obtain ⟨ts, hts, hstray, hlevels⟩ := (h.truncate (List.nil_append r).symm).cuts .nil
  rw [List.append_nil, List.append_nil] at hts
  exact ⟨ts, hts, hstray, hlevels⟩

/-- The items of an expression are those of its text on its own. -/
theorem solid_eq (h : Pieces pos (w ++ x) is r) (hw : ∀ c ∈ w, isBlank c = true) (k : Nat) :
    Item.solid k is = (Item.solid 0 (lex .expression x)).map (moved k (pos + w.length)) := by
  obtain ⟨ts, hts, -, hlevels⟩ := h.exists_cuts
  have hsolid := Item.solid_add 0 k is
  rw [Nat.zero_add] at hsolid
  rw [hsolid, ← (hlevels 0).1, hts.levels_eq_moved hw, List.map_map]
  rfl

/-- An expression in order is in order on its own. -/
theorem soundTree (h : Pieces pos (w ++ x) is r) (hw : ∀ c ∈ w, isBlank c = true) :
    SoundTree .expression (lex .expression x) := by
  obtain ⟨ts, hts, hstray, hlevels⟩ := h.exists_cuts
  obtain ⟨us, hus, rfl⟩ := hts.exists_moved hw
  have hafter := (hlevels 0).2
  rw [after_moved] at hafter
  exact hus.soundTree hafter fun t ht => hstray (t.moved _) (List.mem_map_of_mem ht)

/-- A comma behind an expression is a token of its own. -/
theorem solid_comma (h : Pieces pos (w ++ x) is r) (hw : ∀ c ∈ w, isBlank c = true)
    (hlast : ∀ i ∈ is.getLast?, i.isTrailing = false) :
    Item.solid 0 (lex .expression (x ++ [','])) =
      Item.solid 0 (lex .expression x) ++ [(0, ⟨x.length, [','], .text⟩)] := by
  have htakes : Rule.Takes ⟨.separator, .emit .text, .stay⟩ [','] [] := rfl
  have hcomma : Cuts (pos + (w ++ x).length) [','] [⟨pos + (w ++ x).length, [','], .text⟩] :=
    .piece (List.cons_ne_nil _ _) htakes rfl nofun .nil
  obtain ⟨ts, hts, -, hlevels⟩ :=
    ((h.truncate (List.nil_append r).symm).comma (.inr hlast)).cuts hcomma
  obtain ⟨hsolid, hafter⟩ := hlevels 0
  rw [List.nil_append, List.append_assoc] at hts
  have hboth := hts.levels_eq_moved hw
  rw [levels_append, hsolid, hafter, h.solid_eq hw] at hboth
  refine List.map_injective_iff.mpr (moved_injective 0 (pos + w.length)) ?_
  rw [← hboth, List.map_append, List.length_append, ← Nat.add_assoc]
  congr 1
  rw [Nat.add_comm]
  rfl

/-- The first token of an expression is inside no brackets of it. -/
theorem head?_ownTokens {s : List Char} (h : Pieces pos s is r) (d : Nat) :
    (Item.ownTokens is).head? = (Item.solid d is).head?.map (·.2) := by
  induction h with
  | nil => rfl
  | blank _ _ _ ih =>
    rw [Item.solid_blank d rfl]
    exact ih
  | token _ hblank _ _ _ _ =>
    rw [Item.solid_token d hblank]
    simp [Item.ownTokens, Item.isBlank, hblank, Item.token?]
  | @group pos o k i s r sub is ho hopen _ _ _ _ _ _ =>
    have hblank : o.cls ≠ .blank := by
      rw [(ho.opener hopen).1]
      exact nofun
    rw [Item.solid_token d (t := ⟨pos, o.text, o.cls⟩) hblank]
    simp [Item.ownTokens, Item.isBlank, hblank, Item.token?]

end Pieces
end BlockMarkup
