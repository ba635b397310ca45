import BlockMarkup.Proofs.Document.Spans
import BlockMarkup.Proofs.Expression.Counted

/-!
# BlockMarkup.Proofs.Document.Slices

What stands in the text between the start and the end of a node (`delimited_of_read`): a string
literal with its quotes, a whole decoration, or a block up to the brace that closes it. An expression
stands where its node starts, but its node ends with its last token outside of brackets.
-/

namespace BlockMarkup

open Text

/-! ## Stretches of a text -/

theorem extract_append {text : List Char} {p q r : Nat} (hpq : p ≤ q) (hqr : q ≤ r) :
    text.extract p r = text.extract p q ++ text.extract q r := by
  have hsplit : r - p = (q - p) + (r - q) := by omega
  rw [List.extract, hsplit, List.take_add, List.drop_drop, Nat.add_sub_cancel' hpq]

namespace Token

variable {t u : Token} {text : List Char}

/-- The text of a token is what stands between its start and its end. -/
theorem In.extract_eq (h : t.In text) : text.extract t.pos t.stop = t.text := by
  obtain ⟨before, behind, rfl, hpos⟩ := h.split
  rw [List.extract, stop, Nat.add_sub_cancel_left, hpos, List.drop_left, List.take_left]

/-- What stands between the start of a token and the end of a later one. -/
theorem In.extract_between (ht : t.In text) (hu : u.In text) (h : t.stop ≤ u.pos) :
    text.extract t.pos u.stop = t.text ++ (text.extract t.stop u.pos ++ u.text) := by
  rw [extract_append ht.pos_lt.le (Nat.le_trans h hu.pos_lt.le), ht.extract_eq,
    extract_append h hu.pos_lt.le, hu.extract_eq]

end Token

namespace InRow

variable {α β : Type} {stands : α → Nat → Nat → Prop} {p q : Nat}

theorem of_map {f : β → α} {xs : List β} (h : InRow stands p (xs.map f) q) :
    InRow (fun x => stands (f x)) p xs q := by
  induction xs generalizing p with
  | nil => exact .nil h.le
  | cons x xs ih =>
    cases h with
    | cons ha hx hb h => exact .cons ha hx hb (ih h)

/-- What ends where the row does is the last of the row. -/
theorem getLast?_eq {xs : List α} {x : α} (h : InRow stands p xs q) (hx : x ∈ xs)
    (hq : ∀ a b, stands x a b → b = q) : xs.getLast? = some x := by
  obtain ⟨before, behind, rfl⟩ := List.append_of_mem hx
  obtain ⟨r, -, hrest⟩ := h.split
  cases hrest with
  | cons _ hstands _ hbehind =>
    cases hq _ _ hstands
    cases hbehind with
    | nil _ => exact List.getLast?_concat
    | cons ha _ hab hbehind =>
      have hle := hbehind.le
      omega

/-- Tokens in a row leave room for their texts. -/
theorem length_le {ts : List Token} (h : InRow Token.StandsAt p ts q) :
    p + (ts.flatMap fun t => t.text).length ≤ q := by
  induction ts generalizing p with
  | nil => exact h.le
  | cons t ts ih =>
    obtain ⟨hp, -, h⟩ := inRow_cons_token_iff.mp h
    have hrest := ih h
    rw [List.flatMap_cons, List.length_append]
    rw [Token.stop] at hrest
    omega

end InRow

/-! ## The tokens of an expression -/

namespace Item

theorem mem_ownTokens {items : List Item} {t : Token} :
    t ∈ ownTokens items ↔ .token t ∈ items ∧ t.cls ≠ .blank := by
  rw [ownTokens, List.mem_filterMap]
  constructor
  · rintro ⟨i, hi, ht⟩
    obtain ⟨hi, hblank⟩ := List.mem_filter.mp hi
    cases i with
    | token u =>
      cases ht
      exact ⟨hi, by simpa [isBlank] using hblank⟩
    | context m sub => cases ht
  · rintro ⟨ht, hblank⟩
    exact ⟨_, List.mem_filter.mpr ⟨ht, by simpa [isBlank] using hblank⟩, rfl⟩

/-- The tokens outside of brackets, by their levels. -/
theorem ownTokens_eq (d : Nat) (items : List Item) :
    ownTokens items = ((solid d items).filter fun x => x.1 = d).map (·.2) := by
  induction items with
  | nil => rfl
  | cons i is ih =>
    cases i with
    | token t =>
      by_cases hb : t.cls = .blank
      · rw [solid_blank d hb, ← ih, ownTokens, List.filter_cons_of_neg (by simp [isBlank, hb])]
        rfl
      · rw [solid_token d hb, List.filter_cons_of_pos (by simp), List.map_cons, ← ih, ownTokens,
          List.filter_cons_of_pos (by simp [isBlank, hb])]
        rfl
    | context m sub =>
      have hinner : (solid (d + 1) sub).filter (fun x => x.1 = d) = [] := by
        rw [← Nat.zero_add (d + 1), solid_add, List.filter_eq_nil_iff, List.forall_mem_map]
        intro x _
        rw [decide_eq_true_eq, BlockMarkup.moved]
        omega
      rw [solid_context, List.filter_append, hinner, List.nil_append, ← ih]
      rfl

end Item

theorem Token.moved_stop (p : Nat) (t : Token) : (t.moved p).stop = p + t.stop := by
  show t.pos + p + t.text.length = p + (t.pos + t.text.length)
  omega

namespace Expresses

variable {c : Cursor} {items : List Item} {w s r : List Char}

/-- The tokens that an expression keeps are those it has outside of brackets on its own. -/
theorem ownTokens_eq (h : Expresses c items w s r) : Item.ownTokens items =
    (Item.ownTokens (lex .expression s)).map (Token.moved (c.pos + w.length)) := by
  rw [Item.ownTokens_eq 0, h.solid_eq 0, List.filter_map, List.map_map, Item.ownTokens_eq 0, List.map_map]
  rfl

/-- What it has on its own stands among its items, as far on as it stands. -/
theorem token_mem (h : Expresses c items w s r) {t : Token} (ht : .token t ∈ lex .expression s)
    (hcls : t.cls ≠ .blank) : .token (t.moved (c.pos + w.length)) ∈ items := by
  have hown : t.moved (c.pos + w.length) ∈ Item.ownTokens items := by
    rw [h.ownTokens_eq]
    exact List.mem_map_of_mem (Item.mem_ownTokens.mpr ⟨ht, hcls⟩)
  exact (Item.mem_ownTokens.mp hown).1

end Expresses

/-- The last token of an expression, with the number of brackets around it. -/
structure EndsWith (s : List Char) (last : Nat × Token) : Prop where
  token : (Item.solid 0 (lex .expression s)).getLast? = some last
  stop : last.2.stop = s.length

theorem inRow_solid_lex (s : List Char) : InRow (fun x : Nat × Token => Token.StandsAt x.2) 0
    (Item.solid 0 (lex .expression s)) s.length := by
  have hrow := inRow_lex isBottom_expression s
  rw [← Item.map_leveledAll 0] at hrow
  exact hrow.of_map.sublist List.filter_sublist

theorem exists_endsWith {s : List Char} (h : Trimmed s) (hne : s ≠ []) : ∃ last, EndsWith s last := by
  obtain ⟨x, hx, hstop⟩ := (covers_lex h hne).last
  rw [Nat.zero_add] at hstop
  refine ⟨x, (inRow_solid_lex s).getLast?_eq hx ?_, hstop⟩
  rintro a b ⟨-, rfl⟩
  exact hstop

/-- The last token outside of brackets ends where the expression does if no bracket does. -/
theorem EndsWith.stop_eq_iff {s : List Char} {last : Nat × Token} (h : EndsWith s last) {t : Token}
    (ht : (Item.ownTokens (lex .expression s)).getLast? = some t) :
    t.stop ≤ s.length ∧ (t.stop = s.length ↔ last.1 = 0) := by
  rw [Item.ownTokens_eq 0, List.getLast?_map] at ht
  obtain ⟨⟨d, t⟩, hlast, rfl⟩ := Option.map_eq_some_iff.mp ht
  obtain ⟨hmem, hd⟩ := List.mem_filter.mp (List.mem_of_getLast? hlast)
  obtain rfl : d = 0 := of_decide_eq_true hd
  obtain ⟨-, b, -, ⟨-, rfl⟩, -, hle⟩ := (inRow_solid_lex s).of_mem hmem
  refine ⟨hle, fun hstop => ?_, fun hzero => ?_⟩
  · have hend : (Item.solid 0 (lex .expression s)).getLast? = some (0, t) :=
      (inRow_solid_lex s).getLast?_eq hmem (by rintro a b ⟨-, rfl⟩; exact hstop)
    rw [h.token] at hend
    cases hend
    rfl
  · obtain ⟨front, hfront⟩ := List.getLast?_eq_some_iff.mp h.token
    rw [hfront, List.filter_append, List.filter_cons_of_pos (by simp [hzero]), List.filter_nil,
      List.getLast?_concat] at hlast
    cases hlast
    exact h.stop

/-! ## Nodes -/

/-- Among the items, the token `t` opens a context, and the token `u` is the brace that closes it. -/
inductive Item.Closes (t u : Token) : List Item → Prop where
  | here {m : Mode} {sub items : List Item} : closedBy? ['\x7d'] sub = some u →
      Closes t u (.token t :: .context m sub :: items)
  | inside {m : Mode} {sub items : List Item} : Closes t u sub → Closes t u (.context m sub :: items)
  | behind {i : Item} {items : List Item} : Closes t u items → Closes t u (i :: items)

/-- The nodes that are a name or an operator in front of a value, and keys. -/
def valueKinds : List Kind :=
  [.key, .customTextAttribute, .customExpressionAttribute, .textAttribute, .eventHandler,
    .expressionAttribute, .formattedField, .handlerField, .expressionField, .spread]

/-- What stands in the text between the start and the end of a node, by the kind of the node; the items
are those of the text. -/
inductive Delimited (text : List Char) (items : List Item) (n : Node) : Prop where
  | quoted {b : List Char} {p q : Nat} : n.kind = .text ∨ n.kind = .string → n.head = some b →
      n.StandsAt p q → text.extract p q = quote b → Delimited text items n
  | decoration {p q : Nat} : n.kind = .decoration → n.StandsAt p q →
      n.head = some (text.extract p q) → Delimited text items n
  | block {name : List Char} {t u : Token} : n.kind = .element ∨ n.kind = .component →
      n.head = some name → t.Spells name '\x7b' → n.StandsAt t.pos u.stop → Item.Closes t u items →
      text.extract t.pos u.stop = t.text ++ (text.extract t.stop u.pos ++ ['\x7d']) →
      Delimited text items n
  | rawExpression {t u : Token} : n.kind = .rawExpression → n.StandsAt t.pos u.stop →
      Item.Closes t u items →
      text.extract t.pos u.stop = '\x7b' :: (text.extract t.stop u.pos ++ ['\x7d']) →
      Delimited text items n
  | expression {s : List Char} {p : Nat} {t : Token} {last : Nat × Token} : n.kind = .expression →
      n.head = some s → n.StandsAt p (p + t.stop) →
      (Item.ownTokens (lex .expression s)).getLast? = some t → EndsWith s last →
      text.extract p (p + s.length) = s → Delimited text items n
  | value : n.kind ∈ valueKinds → Delimited text items n

section

variable {text : List Char} {items : List Item} {n : Node}

theorem Delimited.mono {items' : List Item} (h : Delimited text items n)
    (hitems : ∀ t u, Item.Closes t u items → Item.Closes t u items') : Delimited text items' n := by
  cases h with
  | quoted hk hhead hstands hslice => exact .quoted hk hhead hstands hslice
  | decoration hk hstands hhead => exact .decoration hk hstands hhead
  | block hk hhead ht hstands hcloses hslice =>
    exact .block hk hhead ht hstands (hitems _ _ hcloses) hslice
  | rawExpression hk hstands hcloses hslice =>
    exact .rawExpression hk hstands (hitems _ _ hcloses) hslice
  | expression hk hhead hstands ht hlast hslice =>
    exact .expression hk hhead hstands ht hlast hslice
  | value hk => exact .value hk

theorem Delimited.append_right (h : Delimited text items n) (front : List Item) :
    Delimited text (front ++ items) n := by
  refine h.mono fun t u hcloses => ?_
  induction front with
  | nil => exact hcloses
  | cons i front ih => exact .behind ih

theorem Delimited.nested {m : Mode} {sub : List Item} {t : Token} (h : Delimited text sub n) :
    Delimited text (.token t :: (Item.nested m sub ++ items)) n := by
  refine h.mono fun t u hcloses => .behind ?_
  cases sub with
  | nil => cases hcloses
  | cons i is => exact .inside hcloses

theorem Item.Closes.of_closedBy? {m : Mode} {sub : List Item} {t u : Token}
    (h : closedBy? ['\x7d'] sub = some u) :
    Closes t u (.token t :: (Item.nested m sub ++ items)) := by
  cases sub with
  | nil => cases h
  | cons i is => exact .here h

end

section

variable {text : List Char} {c back : Cursor} {items sub around : List Item} {t : Token} {m inner : Mode}

theorem Item.Express.delimited {p : Nat} {s : List Char} (h : Express c items p s) (hc : c.In text) :
    Delimited text around (expressed items s) := by
  obtain ⟨w, r, h, rfl⟩ := h
  obtain ⟨first, hfirst, hpos⟩ := Option.map_eq_some_iff.mp h.start
  have hown := h.ownTokens_eq
  rw [hown] at hfirst
  have hne : ownTokens (lex .expression s) ≠ [] := by
    intro hnil
    rw [hnil] at hfirst
    cases hfirst
  have ht := List.getLast?_eq_some_getLast hne
  have hstands := @Node.standsAt_of_leaf .expression (some s) _ _ _ rfl hfirst
    (List.getLast?_map.trans (congrArg (Option.map _) ht))
  rw [hpos, Token.moved_stop] at hstands
  have hslice := h.slice hc
  obtain ⟨last, hlast⟩ := exists_endsWith h.trimmed h.nonempty
  rw [expressed, hown]
  refine .expression rfl rfl hstands ht hlast ?_
  rwa [List.extract, Nat.add_sub_cancel_left]

theorem Values.delimited {v : Node} (h : Values c items v) (hc : c.In text)
    (hin : ∀ t ∈ Item.tokensAll items, t.In text) : Delimited text around v := by
  cases h with
  | string ht hb =>
    have hslice := (hin _ (Item.mem_tokensAll_of_mem ht)).extract_eq
    exact .quoted (.inr rfl) rfl (Node.standsAt_of_leaf rfl rfl rfl) (hslice.trans hb)
  | expression h => exact h.delimited hc

theorem attributeKind_mem (p : List Char) (isString : Bool) :
    attributeKind p isString ∈ valueKinds := by
  rcases attributeKind_cases p isString with h | h | h | h | h <;> rw [h] <;> decide

theorem fieldKind_mem (p : List Char) (isString : Bool) : fieldKind p isString ∈ valueKinds := by
  rcases fieldKind_cases p isString with h | h | h <;> rw [h] <;> decide

/-- A node in front of its value, and the value. -/
theorem delimited_value {k : Kind} {head : Option (List Char)} {v : Node} (hk : k ∈ valueKinds)
    (hv : Delimited text around v) (hleaf : v.children = []) :
    ∀ n ∈ Tree.subtrees (.mk (.keeping k head [t]) [v]), Delimited text around n := by
  obtain ⟨l, cs⟩ := v
  obtain rfl : cs = [] := hleaf
  refine List.forall_mem_cons.mpr ⟨.value hk, List.forall_mem_singleton.mpr hv⟩

/-- What stands between a token and the token that closes the context behind it. -/
theorem extract_of_closedBy? {u : Token} {mark : List Char} {q : Nat} (ht : t.In text)
    (hin : ∀ t ∈ Item.tokensAll sub, t.In text)
    (hrow : InRow Token.StandsAt t.stop (Item.tokensAll sub) q)
    (hu : Item.closedBy? mark sub = some u) :
    text.extract t.pos u.stop = t.text ++ (text.extract t.stop u.pos ++ mark) := by
  obtain ⟨he, hmark⟩ := Item.eq_of_closedBy? hu
  have hmem : u ∈ Item.tokensAll sub := by
    rw [he]
    exact Item.mem_tokensAll_of_mem (List.mem_append_right _ List.mem_cons_self)
  rw [ht.extract_between (hin u hmem) (inRow_of_closedBy? hu hrow).1.le, hmark]

mutual

theorem Item.flatMap_of_spelling : (i : Item) → ∀ {s}, spelling i = .ok s →
    ((tokens i).flatMap fun t => t.text) = s
  | .token t, s, h => by
    rw [spelling] at h
    split at h
    · cases h
    · cases h
      exact List.append_nil _
  | .context _ items, s, h => by
    rw [spelling] at h
    split at h
    · cases h
    · rename_i s' hs
      split at h
      · cases h
        exact textAll_of_spellingAll items hs
      · cases h

/-- The text of an expression is that of its tokens. -/
theorem Item.textAll_of_spellingAll : (items : List Item) → ∀ {s}, spellingAll items = .ok s →
    textAll items = s
  | [], s, h => by
    cases h
    rfl
  | i :: is, s, h => by
    rw [spellingAll] at h
    split at h
    · cases h
    · rename_i s₁ hi
      split at h
      · cases h
      · rename_i s₂ his
        cases h
        rw [textAll, tokensAll, List.flatMap_append, flatMap_of_spelling i hi]
        exact congrArg (s₁ ++ ·) (textAll_of_spellingAll is his)

end

/-- The last token of a context that its tokens fill ends where the context does. -/
theorem stop_of_filled {u : Token} {mark : List Char}
    (hrow : InRow Token.StandsAt c.pos (Item.tokensAll sub) back.pos)
    (hfill : back.pos = c.pos + (Item.textAll sub).length) (hu : Item.closedBy? mark sub = some u) :
    u.stop = back.pos := by
  obtain ⟨hfront, -, hle⟩ := inRow_of_closedBy? hu hrow
  have hroom := hfront.length_le
  rw [(Item.eq_of_closedBy? hu).1, Item.textAll_append, List.length_append] at hfill
  have hlast : (Item.textAll [.token u]).length = u.text.length :=
    congrArg List.length (List.append_nil u.text)
  rw [hlast, Item.textAll] at hfill
  rw [Token.stop] at hle ⊢
  omega

/-- All that stands in the context of a decoration is part of it. -/
theorem extract_decoration {u : Token} {s : List Char} (hc : c.In text) (hpos : c.pos = t.stop)
    (hscan : Scans .decoration c sub back) (ht : t.In text)
    (hin : ∀ t ∈ Item.tokensAll sub, t.In text) (hu : Item.closedBy? [']'] sub = some u)
    (hs : Item.spellingAll sub = .ok s) : text.extract t.pos u.stop = t.text ++ s := by
  have hspans := hscan.spans rfl
  have hrest : c.rest = text.drop c.pos := congrArg Cursor.rest hc.eq
  have hstop := stop_of_filled (hscan.ordered.inRow hin) hspans.pos hu
  have hle : t.stop ≤ u.stop := by
    rw [hstop, hspans.pos, hpos]
    exact Nat.le_add_right _ _
  rw [extract_append ht.pos_lt.le hle, ht.extract_eq, hstop, ← hpos, List.extract, ← hrest,
    hspans.pos, Nat.add_sub_cancel_left, hspans.rest, List.take_left, Item.textAll_of_spellingAll sub hs]

theorem Opened.delimited {n : Node} (h : Opened m inner t c sub n) (hc : c.In text)
    (hpos : c.pos = t.stop) (hscan : Scans inner c sub back) (ht : t.In text)
    (hin : ∀ t ∈ Item.tokensAll sub, t.In text) :
    ∀ x ∈ n.subtrees, Delimited text (.token t :: (Item.nested inner sub ++ items)) x := by
  have hvalue : ∀ x ∈ Item.tokensAll (valueItems sub), x.In text := fun x hx =>
    hin x ((Item.tokensAll_sublist (Item.valueItems_sublist sub)).subset hx)
  cases h with
  | @decoration _ _ u _ _ s hu hs =>
    refine List.forall_mem_singleton.mpr (.decoration rfl (Node.standsAt_of_closing rfl) ?_)
    rw [extract_decoration hc hpos hscan ht hin hu hs]
    rfl
  | @rawExpression _ _ u _ _ p s htext hu hexpress =>
    have hrow := hscan.ordered.inRow hin
    rw [hpos] at hrow
    have hslice := extract_of_closedBy? ht hin hrow hu
    rw [htext] at hslice
    exact List.forall_mem_cons.mpr ⟨.rawExpression rfl (Node.standsAt_of_closing rfl)
      (.of_closedBy? hu) hslice, List.forall_mem_singleton.mpr (hexpress.delimited hc)⟩
  | key => exact List.forall_mem_singleton.mpr (.value (show Kind.key ∈ valueKinds by decide))
  | attr hv => exact delimited_value (attributeKind_mem _ _) (hv.delimited hc hvalue) hv.children_eq_nil
  | field hv => exact delimited_value (fieldKind_mem _ _) (hv.delimited hc hvalue) hv.children_eq_nil
  | spread hexpress => exact delimited_value (by decide) (hexpress.delimited hc) rfl

end

/-- Nodes made of tokens of a text are delimited in it. -/
theorem Transcribed.delimited {text : List Char} {m : Mode} {items : List Item} {ns : List Node}
    (h : Transcribed text m items ns) : ∀ {p q : Nat},
      InRow Token.StandsAt p (Item.tokensAll items) q → (∀ t ∈ Item.tokensAll items, t.In text) →
      ∀ n ∈ Tree.subtreesAll ns, Delimited text items n := by
  induction h with
  | nil => exact fun _ _ => List.forall_mem_nil _
  | close _ => exact fun _ _ => List.forall_mem_nil _
  | @separator m t items ns _ _ ih =>
    intro p q hrow hin n hn
    obtain ⟨-, -, hrow⟩ := inRow_cons_token_iff.mp hrow
    exact (ih hrow (List.forall_mem_cons.mp hin).2 n hn).append_right [.token t]
  | @string m t b items ns hb _ ih =>
    intro p q hrow hin
    obtain ⟨-, -, hrow⟩ := inRow_cons_token_iff.mp hrow
    obtain ⟨ht, hin⟩ := List.forall_mem_cons.mp hin
    refine List.forall_mem_cons.mpr ⟨?_, fun n hn => (ih hrow hin n hn).append_right [.token t]⟩
    exact .quoted (.inl rfl) rfl (Node.standsAt_of_leaf rfl rfl rfl) (ht.extract_eq.trans hb)
  | @opened m inner t c back sub items n ns hc hpos hscan hopened _ ih =>
    intro p q hrow hin
    rw [Item.tokensAll_push] at hrow hin
    obtain ⟨-, -, hrow⟩ := inRow_cons_token_iff.mp hrow
    obtain ⟨r, -, hrest⟩ := hrow.split
    obtain ⟨ht, hin⟩ := List.forall_mem_cons.mp hin
    obtain ⟨hsub, hin⟩ := List.forall_mem_append.mp hin
    rw [Tree.subtreesAll, List.forall_mem_append]
    refine ⟨hopened.delimited hc hpos hscan ht hsub, fun x hx => ?_⟩
    exact (ih hrest hin x hx).append_right (.token t :: Item.nested inner sub)
  | @block m inner k t u name sub items cs ns hk hname hu _ _ ihsub ih =>
    intro p q hrow hin
    rw [Item.tokensAll_push] at hrow hin
    obtain ⟨-, -, hrow⟩ := inRow_cons_token_iff.mp hrow
    obtain ⟨r, hsubrow, hrest⟩ := hrow.split
    obtain ⟨ht, hin⟩ := List.forall_mem_cons.mp hin
    obtain ⟨hsub, hin⟩ := List.forall_mem_append.mp hin
    have hslice := extract_of_closedBy? ht hsub hsubrow hu
    have hkind : (k = .element ∨ k = .component) ∧ k.isA .entity = true := by
      cases inner <;> cases hk
      · exact ⟨.inl rfl, rfl⟩
      · exact ⟨.inr rfl, rfl⟩
    rw [Tree.subtreesAll, Tree.subtrees, List.cons_append, List.forall_mem_cons,
      List.forall_mem_append]
    refine ⟨?_, fun x hx => (ihsub hsubrow hsub x hx).nested, fun x hx =>
      (ih hrest hin x hx).append_right (.token t :: Item.nested inner sub)⟩
    exact .block hkind.1 rfl hname (Node.standsAt_of_closing hkind.2) (.of_closedBy? hu) hslice

/-! ## Documents -/

/-- The nodes of a text that is read are delimited in it. -/
theorem delimited_of_read {text : List Char} {d n : Node} (h : read true text = .ok d)
    (hn : n ∈ Tree.subtreesAll d.children) : Delimited text (lex .root text) n := by
  obtain ⟨stop, hscan, -⟩ := scans_lex isBottom_root text
  obtain rfl := read_eq_ok h
  exact (transcribed_of_read h).delimited (inRow_lex isBottom_root text)
    (hscan.tokens_in (Cursor.in_start text)) n hn

/-- An expression of a text that is read stands where its node starts. The node reaches to the end of it
if and only if the last token is not inside of brackets. -/
theorem expression_extract {text : List Char} {d n : Node} (h : read true text = .ok d)
    (hn : n ∈ Tree.subtreesAll d.children) (hkind : n.kind = .expression) :
    ∃ (s : List Char) (p q : Nat) (last : Nat × Token), n.head = some s ∧ n.StandsAt p q ∧
      EndsWith s last ∧ text.extract p (p + s.length) = s ∧ q ≤ p + s.length ∧
      (text.extract p q = s ↔ last.1 = 0) := by
  cases delimited_of_read h hn with
  | @expression s p t last _ hhead hstands ht hlast hslice =>
    obtain ⟨hle, hiff⟩ := hlast.stop_eq_iff ht
    refine ⟨s, p, _, last, hhead, hstands, hlast, hslice, Nat.add_le_add_left hle p, ?_⟩
    have htake : text.extract p (p + t.stop) = s.take t.stop := by
      rw [← hslice, List.extract, List.extract, List.take_take, Nat.add_sub_cancel_left,
        Nat.add_sub_cancel_left, Nat.min_eq_left hle]
    rw [htake, ← hiff]
    constructor
    · intro hwhole
      have hlength := congrArg List.length hwhole
      rwa [List.length_take, Nat.min_eq_left hle] at hlength
    · intro hstop
      rw [hstop, List.take_length]
  | quoted hk _ _ _ | block hk _ _ _ _ _ =>
    rw [hkind] at hk
    rcases hk with hk | hk <;> cases hk
  | decoration hk _ _ | rawExpression hk _ _ _ =>
    rw [hkind] at hk
    cases hk
  | value hk =>
    rw [hkind] at hk
    exact absurd hk (by decide)

end BlockMarkup
