import BlockMarkup.Proofs.Document.Transcribed

/-!
# BlockMarkup.Proofs.Document.Spans

Where the nodes of a document stand in its text. A node stands from its own first token to the end of
its last token or of its last child; its children stand in a row inside (`wellNested_of_read`).
-/

namespace BlockMarkup

/-! ## Rows -/

/-- Things that stand one behind the other, between two positions; `stands` tells from where to
where each of them stands. -/
inductive InRow {α : Type} (stands : α → Nat → Nat → Prop) : Nat → List α → Nat → Prop where
  | nil {p q : Nat} : p ≤ q → InRow stands p [] q
  | cons {p a b q : Nat} {x : α} {xs : List α} : p ≤ a → stands x a b → a < b →
      InRow stands b xs q → InRow stands p (x :: xs) q

namespace InRow

variable {α : Type} {stands : α → Nat → Nat → Prop} {xs ys : List α} {p q r : Nat}

theorem le (h : InRow stands p xs q) : p ≤ q := by
  induction h with
  | nil h => exact h
  | cons ha _ hb _ ih => exact Nat.le_trans ha (Nat.le_trans hb.le ih)

theorem mono_left {p' : Nat} (hp : p' ≤ p) (h : InRow stands p xs q) : InRow stands p' xs q := by
  cases h with
  | nil h => exact .nil (Nat.le_trans hp h)
  | cons ha hx hb h => exact .cons (Nat.le_trans hp ha) hx hb h

theorem append (h : InRow stands p xs q) (h' : InRow stands q ys r) :
    InRow stands p (xs ++ ys) r := by
  induction h with
  | nil hp => exact h'.mono_left hp
  | cons ha hx hb _ ih => exact .cons ha hx hb (ih h')

theorem mono_right {q' : Nat} (hq : q ≤ q') (h : InRow stands p xs q) : InRow stands p xs q' := by
  rw [← List.append_nil xs]
  exact h.append (.nil hq)

theorem split (h : InRow stands p (xs ++ ys) r) : ∃ q, InRow stands p xs q ∧ InRow stands q ys r := by
  induction xs generalizing p with
  | nil => exact ⟨p, .nil (Nat.le_refl p), h⟩
  | cons x xs ih =>
    cases h with
    | cons ha hx hb h =>
      obtain ⟨q, hxs, hys⟩ := ih h
      exact ⟨q, .cons ha hx hb hxs, hys⟩

theorem sublist (h : InRow stands p ys q) (hsub : xs.Sublist ys) : InRow stands p xs q := by
  induction hsub generalizing p with
  | slnil => exact h
  | cons y _ ih =>
    cases h with
    | cons ha _ hb h => exact ih (h.mono_left (Nat.le_trans ha hb.le))
  | cons_cons y _ ih =>
    cases h with
    | cons ha hx hb h => exact .cons ha hx hb (ih h)

theorem of_mem {x : α} (h : InRow stands p xs q) (hx : x ∈ xs) :
    ∃ a b, p ≤ a ∧ stands x a b ∧ a < b ∧ b ≤ q := by
  obtain ⟨before, behind, rfl⟩ := List.append_of_mem hx
  obtain ⟨r, hbefore, hrest⟩ := h.split
  cases hrest with
  | cons ha hx hb hbehind => exact ⟨_, _, Nat.le_trans hbefore.le ha, hx, hb, hbehind.le⟩

theorem singleton {x : α} {a b : Nat} (hp : p ≤ a) (hx : stands x a b) (hab : a < b) (hq : b ≤ q) :
    InRow stands p [x] q :=
  .cons hp hx hab (.nil hq)

end InRow

/-! ## Tokens -/

/-- The token is a stretch of the text. -/
structure Token.In (t : Token) (text : List Char) : Prop where
  nonempty : t.text ≠ []
  split : ∃ before behind, text = before ++ (t.text ++ behind) ∧ t.pos = before.length

namespace Token

def StandsAt (t : Token) (p q : Nat) : Prop := t.pos = p ∧ t.stop = q

theorem In.pos_lt {t : Token} {text : List Char} (h : t.In text) : t.pos < t.stop :=
  Nat.lt_add_of_pos_right (List.length_pos_iff.mpr h.nonempty)

end Token

namespace Cursor.In

variable {c : Cursor} {text : List Char} {n : Nat} {t : Token}

theorem of_mem_take {cls : TokenClass} (h : c.In text)
    (ht : t ∈ Item.tokensAll (c.take n cls)) : t.In text := by
  unfold take at ht
  split at ht
  · cases ht
  · rename_i hne
    cases List.mem_singleton.mp ht
    obtain ⟨before, htext, hpos⟩ := h
    refine ⟨hne, before, c.rest.drop n, ?_, hpos⟩
    rw [List.take_append_drop, htext]

theorem of_mem_emit {e : Effect} (h : c.In text) (ht : t ∈ Item.tokensAll (c.emit n e)) :
    t.In text := by
  cases e with
  | skip => cases ht
  | emit cls => exact h.of_mem_take ht

theorem of_mem_items {m : Mode} {hit : Mode.Hit} (h : c.In text) (hs : m.search c.rest = some hit)
    (ht : t ∈ Item.tokensAll (hit.items c)) : t.In text := by
  rw [Mode.Hit.items, Item.tokensAll_append] at ht
  rcases List.mem_append.mp ht with ht | ht
  · exact h.of_mem_take ht
  · exact (h.advance (Mode.search_sound hs).skipped_lt.le).of_mem_emit ht

end Cursor.In

/-- The tokens that lexing finds in a text are stretches of it. -/
theorem Scans.tokens_in {m : Mode} {c stop : Cursor} {items : List Item} {text : List Char}
    (h : Scans m c items stop) (hc : c.In text) : ∀ t ∈ Item.tokensAll items, t.In text := by
  induction h with
  | stop _ => exact fun t ht => hc.of_mem_take ht
  | stay hs _ _ ih =>
    rw [Item.tokensAll_append, List.forall_mem_append]
    exact ⟨fun t ht => hc.of_mem_items hs ht, ih (Mode.Hit.in_after hs hc)⟩
  | pop hs _ => exact fun t ht => hc.of_mem_items hs ht
  | push hs _ hsub _ ihsub ih =>
    have hafter := Mode.Hit.in_after hs hc
    rw [Item.tokensAll_append, Item.tokensAll_append, Item.tokensAll_nested,
      List.forall_mem_append, List.forall_mem_append]
    exact ⟨⟨fun t ht => hc.of_mem_items hs ht, ihsub hafter⟩, ih (hsub.located hafter).1⟩

theorem Ordered.inRow {ts : List Token} {p q : Nat} {text : List Char} (h : Ordered p ts q)
    (hin : ∀ t ∈ ts, t.In text) : InRow Token.StandsAt p ts q := by
  induction ts generalizing p with
  | nil => exact .nil h.le
  | cons t ts ih =>
    obtain ⟨ht, hts⟩ := List.forall_mem_cons.mp hin
    obtain ⟨hpos, hstop⟩ := h.within t List.mem_cons_self
    obtain ⟨hbehind, hsorted⟩ := List.pairwise_cons.mp h.sorted
    refine .cons hpos ⟨rfl, rfl⟩ ht.pos_lt (ih ⟨hstop, fun u hu => ⟨hbehind u hu, ?_⟩, hsorted⟩ hts)
    exact (h.within u (List.mem_cons_of_mem _ hu)).2

/-- The tokens of a text stand in a row in it. -/
theorem inRow_lex {m : Mode} (hm : m.IsBottom) (text : List Char) :
    InRow Token.StandsAt 0 (Item.tokensAll (lex m text)) text.length := by
  obtain ⟨stop, hscan, hrest⟩ := scans_lex hm text
  have hin := Cursor.in_start text
  obtain ⟨before, htext, hpos⟩ := (hscan.located hin).1
  rw [hrest, List.append_nil] at htext
  rw [htext, ← hpos, ← htext]
  exact hscan.ordered.inRow (hscan.tokens_in hin)

section

variable {t : Token} {ts : List Token} {p q : Nat}

theorem inRow_cons_token_iff : InRow Token.StandsAt p (t :: ts) q ↔
    p ≤ t.pos ∧ t.pos < t.stop ∧ InRow Token.StandsAt t.stop ts q := by
  constructor
  · rintro (_ | ⟨hp, ⟨rfl, rfl⟩, hlt, h⟩)
    exact ⟨hp, hlt, h⟩
  · rintro ⟨hp, hlt, h⟩
    exact .cons hp ⟨rfl, rfl⟩ hlt h

/-- Tokens in a row reach from the start of the first to the end of the last of them. -/
theorem InRow.exists_ends (h : InRow Token.StandsAt p ts q) (hne : ts ≠ []) :
    ∃ t u, ts.head? = some t ∧ ts.getLast? = some u ∧ p ≤ t.pos ∧ t.pos < u.stop ∧ u.stop ≤ q := by
  induction ts generalizing p with
  | nil => exact absurd rfl hne
  | cons t ts ih =>
    obtain ⟨hp, hlt, h⟩ := inRow_cons_token_iff.mp h
    cases ts with
    | nil => exact ⟨t, t, rfl, rfl, hp, hlt, h.le⟩
    | cons u us =>
      obtain ⟨v, w, -, hw, hv, hvw, hq⟩ := ih h (List.cons_ne_nil u us)
      refine ⟨t, w, rfl, ?_, hp, Nat.lt_trans hlt (Nat.lt_of_le_of_lt hv hvw), hq⟩
      rw [List.getLast?_cons_cons, hw]

end

namespace Item

variable {items : List Item}

theorem eq_of_closedBy? {c : List Char} {u : Token} (h : closedBy? c items = some u) :
    items = items.dropLast ++ [.token u] ∧ u.text = c := by
  unfold closedBy? at h
  split at h
  · rename_i t ht
    split at h
    · rename_i hc
      cases h
      obtain ⟨before, hb⟩ := List.getLast?_eq_some_iff.mp ht
      exact ⟨by rw [hb, List.dropLast_concat], hc⟩
    · cases h
  · cases h

theorem tokensAll_push (t : Token) (m : Mode) (sub items : List Item) :
    tokensAll (.token t :: (nested m sub ++ items)) = t :: (tokensAll sub ++ tokensAll items) := by
  rw [tokensAll, tokensAll_append, tokensAll_nested]
  rfl

theorem ownTokens_sublist (items : List Item) : (ownTokens items).Sublist (tokensAll items) := by
  induction items with
  | nil => exact .slnil
  | cons i is ih =>
    cases i with
    | token t =>
      by_cases hb : isBlank (.token t) = true
      · rw [ownTokens, List.filter_cons_of_neg (by simp [hb])]
        exact ih.cons t
      · rw [ownTokens, List.filter_cons_of_pos (by simp [hb])]
        exact ih.cons_cons t
    | context m sub =>
      have hown : ownTokens (.context m sub :: is) = ownTokens is := rfl
      rw [hown]
      exact ih.trans (List.sublist_append_right _ _)

theorem valueItems_sublist (items : List Item) : (valueItems items).Sublist items := by
  unfold valueItems
  split
  · exact List.dropLast_sublist items
  · exact List.Sublist.refl items

theorem tokensAll_sublist {is js : List Item} (h : is.Sublist js) :
    (tokensAll is).Sublist (tokensAll js) := by
  induction h with
  | slnil => exact .slnil
  | cons i _ ih => exact ih.trans (List.sublist_append_right _ _)
  | cons_cons i _ ih => exact (List.Sublist.refl _).append ih

theorem dropTrailing_sublist (items : List Item) : (dropTrailing items).Sublist items := by
  obtain ⟨tail, he, -⟩ := dropTrailing_append items
  conv => rhs; rw [he]
  exact List.sublist_append_left _ _

/-- The tokens that an expression keeps are among those of its items. -/
theorem ownTokens_dropTrailing_sublist (items : List Item) :
    (ownTokens (dropTrailing items)).Sublist (tokensAll items) :=
  (ownTokens_sublist _).trans (tokensAll_sublist (dropTrailing_sublist items))

end Item

/-! ## Nodes -/

/-- The node stands from `p` to `q`, and its first token is its own. -/
structure Node.StandsAt (n : Node) (p q : Nat) : Prop where
  own : n.label.ownStart? = some p
  start : n.start? = some p
  stop : n.stop? = .ok (some q)

namespace Node

theorem start?_of_own {l : Label} {cs : List Node} {p : Nat} (h : l.ownStart? = some p) :
    start? (.mk l cs) = some p := by
  rw [start?, Tree.preorder, List.findSome?_cons, h]

variable {k : Kind} {head : Option (List Char)} {ts : List Token} {cs : List Node} {t u : Token}
  {q : Nat}

/-- A node that a token closes. -/
theorem standsAt_of_closing (hk : k.isA .entity = true) :
    StandsAt (.mk (.keeping k head [t] [u]) cs) t.pos u.stop := by
  refine ⟨rfl, start?_of_own rfl, ?_⟩
  rw [stop?, if_pos (show (Label.keeping k head [t] [u]).isA .entity = true from hk)]
  rfl

theorem standsAt_of_leaf (hk : k.isA .entity = true) (ht : ts.head? = some t)
    (hu : ts.getLast? = some u) : StandsAt (.mk (.keeping k head ts) []) t.pos u.stop := by
  have hown : (Label.keeping k head ts).ownStart? = some t.pos := by
    simp [Label.keeping, Label.ownStart?, ht]
  have hopening : (Label.keeping k head ts).openingStop? = some u.stop := by
    simp [Label.keeping, Label.openingStop?, hu]
  refine ⟨hown, start?_of_own hown, ?_⟩
  rw [stop?, if_pos (show (Label.keeping k head ts).isA .entity = true from hk),
    show (Label.keeping k head ts).closingStop? = none from rfl, stopOfLast, hopening]

/-- A node in front of its value ends where the value does. -/
theorem standsAt_of_value {v : Node} (hk : k.isA .entity = true)
    (hv : v.stop? = .ok (some q)) : StandsAt (.mk (.keeping k head [t]) [v]) t.pos q := by
  have hown : (Label.keeping k head [t]).ownStart? = some t.pos := rfl
  refine ⟨hown, start?_of_own hown, ?_⟩
  rw [stop?, if_pos (show (Label.keeping k head [t]).isA .entity = true from hk),
    show (Label.keeping k head [t]).closingStop? = none from rfl]
  simp only [stopOfLast, hv]

end Node

/-- The nodes stand in a row between two positions, and so do the children of each node below them
between its start and its end. -/
structure Rows (p : Nat) (ns : List Node) (q : Nat) : Prop where
  row : InRow Node.StandsAt p ns q
  nested : ∀ n : Node, n ∈ Tree.subtreesAll ns → ∃ a b, p ≤ a ∧ a < b ∧ b ≤ q ∧ n.StandsAt a b ∧
    InRow Node.StandsAt a n.children b

namespace Rows

variable {ns ms : List Node} {p q r a b : Nat}

theorem nil (h : p ≤ q) : Rows p [] q := ⟨.nil h, nofun⟩

theorem append (h : Rows p ns q) (h' : Rows q ms r) : Rows p (ns ++ ms) r := by
  refine ⟨h.row.append h'.row, fun n hn => ?_⟩
  rw [Tree.mem_subtreesAll] at hn
  obtain ⟨m, hm, hn⟩ := hn
  rcases List.mem_append.mp hm with hm | hm
  · obtain ⟨a, b, hp, hab, hq, hrest⟩ := h.nested n (Tree.mem_subtreesAll.mpr ⟨m, hm, hn⟩)
    exact ⟨a, b, hp, hab, Nat.le_trans hq h'.row.le, hrest⟩
  · obtain ⟨a, b, hp, hab, hq, hrest⟩ := h'.nested n (Tree.mem_subtreesAll.mpr ⟨m, hm, hn⟩)
    exact ⟨a, b, Nat.le_trans h.row.le hp, hab, hq, hrest⟩

theorem mono_left {p' : Nat} (hp : p' ≤ p) (h : Rows p ns q) : Rows p' ns q :=
  (nil hp).append h

/-- A node with its children inside. -/
theorem node {l : Label} {cs : List Node} (hp : p ≤ a) (hstands : Node.StandsAt (.mk l cs) a b)
    (hab : a < b) (hcs : Rows a cs b) (hq : b ≤ q) : Rows p [.mk l cs] q := by
  refine ⟨.singleton hp hstands hab hq, fun n hn => ?_⟩
  rw [Tree.subtreesAll, Tree.subtreesAll, List.append_nil, Tree.subtrees] at hn
  rcases List.mem_cons.mp hn with rfl | hn
  · exact ⟨a, b, hp, hab, hq, hstands, hcs.row⟩
  · obtain ⟨a', b', ha, hab', hb, hrest⟩ := hcs.nested n hn
    exact ⟨a', b', Nat.le_trans hp ha, hab', Nat.le_trans hb hq, hrest⟩

theorem leaf {l : Label} (hp : p ≤ a) (hstands : Node.StandsAt (.mk l []) a b) (hab : a < b)
    (hq : b ≤ q) : Rows p [.mk l []] q :=
  node hp hstands hab (nil hab.le) hq

/-- A node in front of its value, which has no children. -/
theorem value {k : Kind} {head : Option (List Char)} {t : Token} {v : Node} (hk : k.isA .entity = true)
    (hp : p ≤ t.pos) (ht : t.pos < t.stop) (ha : t.stop ≤ a) (hab : a < b) (hq : b ≤ q)
    (hv : v.StandsAt a b) (hleaf : v.children = []) : Rows p [.mk (.keeping k head [t]) [v]] q := by
  obtain ⟨l, cs⟩ := v
  obtain rfl : cs = [] := hleaf
  exact node hp (Node.standsAt_of_value hk hv.stop) (by omega)
    (leaf (by omega) hv hab (Nat.le_refl b)) hq

end Rows

/-! ## What is read without a flaw -/

section

variable {text : List Char} {items sub : List Item} {m inner : Mode} {t : Token} {c : Cursor}
  {p q : Nat}

theorem Item.Express.standsAt {pos : Nat} {s : List Char} (h : Item.Express c items pos s)
    (hrow : InRow Token.StandsAt p (Item.tokensAll items) q) :
    ∃ b, p ≤ pos ∧ pos < b ∧ b ≤ q ∧ (Item.expressed items s).StandsAt pos b := by
  obtain ⟨w, r, hexpresses, rfl⟩ := h
  obtain ⟨t, ht, hpos⟩ := Option.map_eq_some_iff.mp hexpresses.start
  have hne : Item.ownTokens (Item.dropTrailing items) ≠ [] := by
    intro hnil
    rw [hnil] at ht
    cases ht
  obtain ⟨t', u, ht', hu, hp, hlt, hq⟩ :=
    (hrow.sublist (Item.ownTokens_dropTrailing_sublist items)).exists_ends hne
  obtain rfl : t' = t := Option.some.inj (ht'.symm.trans ht)
  rw [← hpos]
  exact ⟨u.stop, hp, hlt, hq, Node.standsAt_of_leaf rfl ht hu⟩

theorem Values.standsAt {v : Node} (h : Values c items v)
    (hrow : InRow Token.StandsAt p (Item.tokensAll items) q) :
    ∃ a b, p ≤ a ∧ a < b ∧ b ≤ q ∧ v.StandsAt a b := by
  cases h with
  | @string t b ht _ =>
    have hmem : t ∈ Item.tokensAll items := Item.mem_tokensAll_of_mem ht
    have hone := hrow.sublist (List.singleton_sublist.mpr hmem)
    obtain ⟨hp, hlt, hq⟩ := inRow_cons_token_iff.mp hone
    exact ⟨t.pos, t.stop, hp, hlt, hq.le, Node.standsAt_of_leaf rfl rfl rfl⟩
  | expression h =>
    obtain ⟨b, hp, hlt, hq, hstands⟩ := h.standsAt hrow
    exact ⟨_, b, hp, hlt, hq, hstands⟩

/-- What stands in front of the token that closes a context. -/
theorem inRow_of_closedBy? {mark : List Char} {u : Token} (hu : Item.closedBy? mark sub = some u)
    (hrow : InRow Token.StandsAt p (Item.tokensAll sub) q) :
    InRow Token.StandsAt p (Item.tokensAll sub.dropLast) u.pos ∧ u.pos < u.stop ∧ u.stop ≤ q := by
  obtain ⟨he, -⟩ := Item.eq_of_closedBy? hu
  rw [he, Item.tokensAll_append] at hrow
  obtain ⟨r, hfront, hlast⟩ := hrow.split
  obtain ⟨hr, hlt, hq⟩ := inRow_cons_token_iff.mp hlast
  exact ⟨hfront.mono_right hr, hlt, hq.le⟩

theorem isA_entity_attributeKind (p : List Char) (isString : Bool) :
    (attributeKind p isString).isA .entity = true := by
  rcases attributeKind_cases p isString with h | h | h | h | h <;> rw [h] <;> rfl

theorem isA_entity_fieldKind (p : List Char) (isString : Bool) :
    (fieldKind p isString).isA .entity = true := by
  rcases fieldKind_cases p isString with h | h | h <;> rw [h] <;> rfl

theorem Opened.rows {n : Node} (h : Opened m inner t c sub n) (hp : p ≤ t.pos) (ht : t.pos < t.stop)
    (hrow : InRow Token.StandsAt t.stop (Item.tokensAll sub) q) : Rows p [n] q := by
  cases h with
  | decoration hu _ =>
    obtain ⟨hfront, hlt, hq⟩ := inRow_of_closedBy? hu hrow
    have hle := hfront.le
    exact .leaf hp (Node.standsAt_of_closing rfl) (by omega) hq
  | rawExpression _ hu hexpress =>
    obtain ⟨hfront, hlt, hq⟩ := inRow_of_closedBy? hu hrow
    have hle := hfront.le
    obtain ⟨b, ha, hab, hb, hstands⟩ := hexpress.standsAt hfront
    exact .node hp (Node.standsAt_of_closing rfl) (by omega)
      (.leaf (by omega) hstands hab (by omega)) hq
  | key => exact .leaf hp (Node.standsAt_of_leaf rfl rfl rfl) ht hrow.le
  | attr hv =>
    obtain ⟨a, b, ha, hab, hb, hstands⟩ :=
      hv.standsAt (hrow.sublist (Item.tokensAll_sublist (Item.valueItems_sublist sub)))
    exact .value (isA_entity_attributeKind _ _) hp ht ha hab hb hstands hv.children_eq_nil
  | field hv =>
    obtain ⟨a, b, ha, hab, hb, hstands⟩ :=
      hv.standsAt (hrow.sublist (Item.tokensAll_sublist (Item.valueItems_sublist sub)))
    exact .value (isA_entity_fieldKind _ _) hp ht ha hab hb hstands hv.children_eq_nil
  | spread hexpress =>
    obtain ⟨b, ha, hab, hb, hstands⟩ := hexpress.standsAt hrow
    exact .value rfl hp ht ha hab hb hstands rfl

/-- Nodes made of tokens in a row stand in a row. -/
theorem Transcribed.rows {ns : List Node} (h : Transcribed text m items ns) :
    ∀ {p q : Nat}, InRow Token.StandsAt p (Item.tokensAll items) q → Rows p ns q := by
  induction h with
  | nil => exact fun hrow => .nil hrow.le
  | close _ => exact fun hrow => .nil hrow.le
  | separator _ _ ih =>
    intro p q hrow
    obtain ⟨hp, ht, hrow⟩ := inRow_cons_token_iff.mp hrow
    exact (ih hrow).mono_left (by omega)
  | string _ _ ih =>
    intro p q hrow
    obtain ⟨hp, ht, hrow⟩ := inRow_cons_token_iff.mp hrow
    exact (Rows.leaf hp (Node.standsAt_of_leaf rfl rfl rfl) ht (Nat.le_refl _)).append (ih hrow)
  | opened _ _ _ hopened _ ih =>
    intro p q hrow
    rw [Item.tokensAll_push] at hrow
    obtain ⟨hp, ht, hrow⟩ := inRow_cons_token_iff.mp hrow
    obtain ⟨r, hsub, hrest⟩ := hrow.split
    exact (hopened.rows hp ht hsub).append (ih hrest)
  | @block m inner k t u name sub items cs ns hk _ hu _ _ ihsub ih =>
    intro p q hrow
    rw [Item.tokensAll_push] at hrow
    obtain ⟨hp, ht, hrow⟩ := inRow_cons_token_iff.mp hrow
    obtain ⟨r, hsub, hrest⟩ := hrow.split
    obtain ⟨hfront, hlt, hr⟩ := inRow_of_closedBy? hu hsub
    have hle := hfront.le
    have hentity : k.isA .entity = true := by
      cases inner <;> cases hk <;> rfl
    have hcs : Rows t.pos cs u.stop := by
      refine (ihsub ?_).mono_left ht.le
      rw [(Item.eq_of_closedBy? hu).1, Item.tokensAll_append]
      exact hfront.append (.cons (Nat.le_refl _) ⟨rfl, rfl⟩ hlt (.nil (Nat.le_refl _)))
    exact (Rows.node hp (Node.standsAt_of_closing hentity) (by omega) hcs hr).append (ih hrest)

end

/-! ## Documents -/

/-- The nodes of a document are well nested in a text of some length. -/
structure Node.WellNested (d : Node) (length : Nat) : Prop where
  /-- Each node below the document stands by its own tokens in the text, with its children in a row
  between its start and its end. -/
  nodes : ∀ n : Node, n ∈ Tree.subtreesAll d.children → ∃ p q, p < q ∧ q ≤ length ∧ n.StandsAt p q ∧
    InRow Node.StandsAt p n.children q
  /-- The nodes at the root stand in a row. -/
  row : InRow Node.StandsAt 0 d.children length
  /-- The document starts where its first child does. -/
  first : ∀ n : Node, n ∈ d.children.head? → d.start? = n.start?
  /-- The document ends where its last child does. -/
  last : ∀ n : Node, n ∈ d.children.getLast? → d.stop? = n.stop?

theorem Node.start?_of_children {l : Label} {n : Node} {cs : List Node} {p : Nat}
    (hl : l.ownStart? = none) (h : n.start? = some p) : start? (.mk l (n :: cs)) = n.start? := by
  rw [start?, Tree.preorder, List.findSome?_cons, hl, Tree.preorderAll, List.findSome?_append]
  rw [start?] at h
  rw [h, Option.some_or, start?, h]

theorem Node.stopOfLast_concat {cs : List Node} {n : Node} {q : Nat} (h : n.stop? = .ok (some q)) :
    stopOfLast (cs ++ [n]) = .ok (some q) := by
  induction cs with
  | nil => simp only [List.nil_append, stopOfLast, h]
  | cons c cs ih => simp only [List.cons_append, stopOfLast, ih]

/-- The nodes of a text that is read are well nested in it. -/
theorem wellNested_of_read {text : List Char} {d : Node} (h : read true text = .ok d) :
    d.WellNested text.length := by
  have hrows := (transcribed_of_read h).rows (inRow_lex isBottom_root text)
  obtain rfl : d = .bare .document (bodyNodes .root (lex .root text)) := read_eq_ok h
  generalize bodyNodes .root (lex .root text) = ns at hrows
  refine ⟨fun n hn => ?_, hrows.row, fun n hn => ?_, fun n hn => ?_⟩
  · obtain ⟨p, q, -, hpq, hq, hrest⟩ := hrows.nested n hn
    exact ⟨p, q, hpq, hq, hrest⟩
  · obtain ⟨p, q, -, hstands, -⟩ := hrows.row.of_mem (List.mem_of_head? hn)
    obtain ⟨cs, rfl⟩ := List.head?_eq_some_iff.mp hn
    exact Node.start?_of_children rfl hstands.start
  · obtain ⟨p, q, -, hstands, -⟩ := hrows.row.of_mem (List.mem_of_getLast? hn)
    obtain ⟨cs, rfl⟩ := List.getLast?_eq_some_iff.mp hn
    have hentity : ({ cls := .of .document } : Label).isA .entity = true := rfl
    rw [hstands.stop, Node.bare, Node.stop?, if_pos hentity]
    simp only [Label.closingStop?, Option.bind_none, Node.stopOfLast_concat hstands.stop]

/-- A decoration, and an element that holds nodes of all other kinds. -/
def sampleNested : List Char := "#[m]a\x7bk: f(x), key: \"i\", X\x7by: \"v\", ..p\x7d \"t\" \x7be\x7d \x7d".toList

theorem wellNested_sampleNested : ∃ d, read true sampleNested = .ok d ∧
    d.WellNested sampleNested.length := by
  have hread : (read true sampleNested).toOption.isSome = true := by decide +kernel
  cases h : read true sampleNested with
  | error e =>
    rw [h] at hread
    cases hread
  | ok d => exact ⟨d, rfl, wellNested_of_read h⟩

end BlockMarkup
