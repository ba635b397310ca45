import BlockMarkup.Proofs.Document.Accept
import BlockMarkup.Proofs.Document.Located
import BlockMarkup.Proofs.Expression.Moved

/-!
# BlockMarkup.Proofs.Document.Expressions

The two lexings of an expression. `AgreesAt text p s` says that the expression `s` stands in the text at
position `p` with the same tokens as on its own; so does every expression of a document that was read
(`agreesAt_of_read`).
-/

namespace BlockMarkup

open Text

/-- The tokens other than white space that reach into the text from `p` to `q`. -/
def Item.solidIn (p q : Nat) (items : List Item) : List (Nat × Token) :=
  (solid 0 items).filter fun t => p < t.2.stop && t.2.pos < q

/-- The expression `s` stands in the text at `p`, and lexing it on its own agrees with lexing the text:
there are the same tokens at the same offsets, with the brackets around the expression added. On its
own it is in order, and a comma behind it is a token outside of all brackets. -/
structure AgreesAt (text : List Char) (p : Nat) (s : List Char) : Prop where
  slice : (text.drop p).take s.length = s
  tokens : ∃ k, Item.solidIn p (p + s.length) (lex .root text) =
    (Item.solid 0 (lex .expression s)).map (moved k p)
  sound : SoundTree .expression (lex .expression s)
  comma : Item.solid 0 (lex .expression (s ++ [','])) =
    Item.solid 0 (lex .expression s) ++ [(0, ⟨s.length, [','], .text⟩)]

/-! ## The tokens of a stretch of text -/

theorem levels_map_span (d : Nat) (ts : List Token) :
    (levels d ts).map (fun t => (t.2.pos, t.2.text)) = ts.map fun t => (t.pos, t.text) := by
  induction ts generalizing d with
  | nil => rfl
  | cons t ts ih =>
    cases h : t.lexeme.move with
    | stay => rw [levels_stay d h, List.map_cons, ih, List.map_cons]
    | push m => rw [levels_push d h, List.map_cons, ih, List.map_cons]
    | pop =>
      cases d with
      | zero => rw [levels_loose h, List.map_cons, ih, List.map_cons]
      | succ d => rw [levels_pop d h, List.map_cons, ih, List.map_cons]

/-- The tokens cover a text from `p` on for `n` characters: none of them reaches out of it, the first
starts where it starts and one ends where it ends. -/
structure Covers (p n : Nat) (ts : List (Nat × Token)) : Prop where
  within : ∀ t ∈ ts, t.2.pos < p + n ∧ p < t.2.stop
  first : ∃ t, ts.head? = some t ∧ t.2.pos = p
  last : ∃ t ∈ ts, t.2.stop = p + n

theorem covers_lex {s : List Char} (h : Trimmed s) (hne : s ≠ []) :
    Covers 0 s.length (Item.solid 0 (lex .expression s)) := by
  obtain ⟨ts, hts, hlevels, -⟩ := cuts_lex s
  have hspan := levels_map_span 0 ts
  rw [hlevels] at hspan
  have hfrom : ∀ t ∈ ts, ∃ u ∈ Item.solid 0 (lex .expression s),
      u.2.pos = t.pos ∧ u.2.stop = t.stop := by
    intro t ht
    have hmem := List.mem_map_of_mem (f := fun t : Token => (t.pos, t.text)) ht
    rw [← hspan] at hmem
    obtain ⟨u, hu, he⟩ := List.mem_map.mp hmem
    obtain ⟨hpos, htext⟩ := Prod.mk.inj he
    exact ⟨u, hu, hpos, by rw [Token.stop, Token.stop, hpos, htext]⟩
  refine ⟨fun u hu => ?_, ?_, ?_⟩
  · have hmem := List.mem_map_of_mem (f := fun t : Nat × Token => (t.2.pos, t.2.text)) hu
    rw [hspan] at hmem
    obtain ⟨t, ht, he⟩ := List.mem_map.mp hmem
    obtain ⟨hpos, htext⟩ := Prod.mk.inj he
    have hwithin := hts.within t ht
    simp only [Token.stop, ← hpos, ← htext] at hwithin ⊢
    omega
  · obtain ⟨t, us, rfl, hpos⟩ := hts.exists_first hne h.head
    rw [List.map_cons] at hspan
    obtain ⟨u, vs, hu, he, -⟩ := List.map_eq_cons_iff.mp hspan
    exact ⟨u, by rw [hu]; rfl, (Prod.mk.inj he).1.trans hpos⟩
  · obtain ⟨t, ht, hstop⟩ := hts.exists_last hne h.last
    obtain ⟨u, hu, -, hu'⟩ := hfrom t ht
    exact ⟨u, hu, hu'.trans hstop⟩

theorem Covers.map_moved {n : Nat} {ts : List (Nat × Token)} (h : Covers 0 n ts) (k p : Nat) :
    Covers p n (ts.map (moved k p)) := by
  have hstop : ∀ t : Nat × Token, (moved k p t).2.stop = t.2.stop + p := by
    intro t
    simp only [moved, Token.moved, Token.stop]
    omega
  refine ⟨?_, ?_, ?_⟩
  · rw [List.forall_mem_map]
    intro t ht
    have hwithin := h.within t ht
    rw [hstop]
    simp only [moved, Token.moved]
    omega
  · obtain ⟨t, ht, hpos⟩ := h.first
    refine ⟨_, by rw [List.head?_map, ht]; rfl, ?_⟩
    rw [moved, Token.moved, hpos, Nat.zero_add]
  · obtain ⟨t, ht, hend⟩ := h.last
    refine ⟨_, List.mem_map_of_mem ht, ?_⟩
    rw [hstop, hend]
    omega

/-- Among tokens in order, those that reach into a stretch of text are those that cover it. -/
theorem Item.solidIn_eq {items mid : List Item} {p n k : Nat} {before behind : List (Nat × Token)}
    (hsplit : leveledAll 0 items = before ++ (leveledAll k mid ++ behind))
    (hsorted : (tokensAll items).Pairwise fun a b => a.stop ≤ b.pos)
    (hcovers : Covers p n (solid k mid)) : solidIn p (p + n) items = solid k mid := by
  rw [← map_leveledAll 0, List.pairwise_map, hsplit, List.pairwise_append, List.pairwise_append]
    at hsorted
  obtain ⟨-, ⟨-, -, hmidbehind⟩, hbefore⟩ := hsorted
  have hleft : ∀ t ∈ before, (p < t.2.stop && t.2.pos < p + n) = false := by
    obtain ⟨u, hu, hpos⟩ := hcovers.first
    intro t ht
    have hmem := List.mem_of_mem_filter (List.mem_of_head? hu)
    have hle := hbefore t ht u (List.mem_append_left _ hmem)
    simp only [Bool.and_eq_false_iff, decide_eq_false_iff_not]
    omega
  have hright : ∀ t ∈ behind, (p < t.2.stop && t.2.pos < p + n) = false := by
    obtain ⟨u, hu, hstop⟩ := hcovers.last
    intro t ht
    have hle := hmidbehind u (List.mem_of_mem_filter hu) t ht
    simp only [Bool.and_eq_false_iff, decide_eq_false_iff_not]
    omega
  have hmid : ∀ t ∈ solid k mid, (p < t.2.stop && t.2.pos < p + n) = true := by
    intro t ht
    obtain ⟨hlt, hgt⟩ := hcovers.within t ht
    simp only [Bool.and_eq_true, decide_eq_true_eq]
    exact ⟨hgt, hlt⟩
  have hsolid : solid 0 items = before.filter (fun t => t.2.cls ≠ .blank) ++
      (solid k mid ++ behind.filter fun t => t.2.cls ≠ .blank) := by
    rw [solid, hsplit, List.filter_append, List.filter_append]
    rfl
  rw [solidIn, hsolid, List.filter_append, List.filter_append, List.filter_eq_self.mpr hmid,
    List.filter_eq_nil_iff.mpr fun t ht => Bool.not_eq_true _ ▸ hleft t (List.mem_of_mem_filter ht),
    List.filter_eq_nil_iff.mpr fun t ht => Bool.not_eq_true _ ▸ hright t (List.mem_of_mem_filter ht),
    List.nil_append, List.append_nil]

/-! ## The expression of a context -/

namespace Item

mutual

/-- The contexts of a context are among those around it. -/
theorem mem_contexts_trans {p q : Mode × List Item} : (i : Item) → p ∈ contexts i →
    q ∈ contextsAll p.2 → q ∈ contexts i
  | .token _, h, _ => nomatch h
  | .context _ items, h, hq => by
    rcases List.mem_cons.mp h with rfl | h
    · exact List.mem_cons_of_mem _ hq
    · exact List.mem_cons_of_mem _ (mem_contextsAll_trans items h hq)

theorem mem_contextsAll_trans {p q : Mode × List Item} : (items : List Item) →
    p ∈ contextsAll items → q ∈ contextsAll p.2 → q ∈ contextsAll items
  | [], h, _ => nomatch h
  | i :: is, h, hq => (List.mem_append.mp h).elim
    (fun h => List.mem_append_left _ (mem_contexts_trans i h hq))
    (fun h => List.mem_append_right _ (mem_contextsAll_trans is h hq))

end

end Item

theorem SoundItems.of_context {m inner : Mode} {items sub : List Item} (h : SoundItems m items)
    (hmem : (inner, sub) ∈ Item.contextsAll items) : SoundItems inner sub :=
  ⟨(h.2 _ hmem).token, fun _ hp => h.2 _ (Item.mem_contextsAll_trans items hmem hp)⟩

theorem Item.getLast?_dropTrailing (items : List Item) :
    ∀ i ∈ (dropTrailing items).getLast?, i.isTrailing = false := by
  intro i hi
  rw [dropTrailing, List.getLast?_reverse] at hi
  have hnot := List.head?_dropWhile_not isTrailing items.reverse
  rw [Option.mem_def.mp hi] at hnot
  simpa using hnot

theorem startsWithToken_of_forall {items : List Item} (h : ∀ i ∈ items, ∃ t, i = .token t) :
    StartsWithToken items := by
  rintro k sub rest rfl
  obtain ⟨t, ht⟩ := h _ List.mem_cons_self
  cases ht

/-- What ends a context, behind its expression. -/
theorem Mode.expressionItems_append {m : Mode} {sub : List Item} (hm : m.isValue = true)
    (hclosed : m = .rawExpression → (Item.closedBy? ['\x7d'] sub).isSome = true) :
    ∃ ending, sub = m.expressionItems sub ++ ending ∧ (∀ i ∈ ending, ∃ t, i = .token t) ∧
      Bounded m sub ending := by
  have hlast : ∀ {c : List Char}, (Item.closedBy? c sub).isSome = true →
      ∃ ending, sub = sub.dropLast ++ ending ∧ (∀ i ∈ ending, ∃ t, i = .token t) ∧
        Bounded m sub ending := by
    intro c hc
    obtain ⟨t, he, -⟩ := Item.append_of_closedBy? hc
    refine ⟨[.token t], he, fun i hi => ⟨t, List.mem_singleton.mp hi⟩, ?_, ?_⟩ <;> intros <;>
      exact List.cons_ne_nil _ _
  obtain rfl | rfl | rfl : m = .attribute ∨ m = .spread ∨ m = .rawExpression := by
    simpa [isValue, or_assoc] using hm
  · rw [expressionItems, valueItems]
    split
    · rename_i t ht
      exact hlast (by rw [ht]; rfl)
    · rename_i hnone
      refine ⟨[], (List.append_nil _).symm, by simp, fun _ hcomma => ?_, by decide⟩
      rw [hnone] at hcomma
      cases hcomma
  · exact ⟨[], (List.append_nil _).symm, by simp, by rintro ⟨⟩, by decide⟩
  · exact hlast (hclosed rfl)

/-- The expression of a context, with what is dropped behind it. -/
theorem Mode.expressionItems_split {m : Mode} {sub : List Item} (hm : m.isValue = true)
    (hclosed : m = .rawExpression → (Item.closedBy? ['\x7d'] sub).isSome = true) :
    ∃ tail, sub = Item.dropTrailing (m.expressionItems sub) ++ tail ∧ StartsWithToken tail ∧
      Bounded m sub tail := by
  obtain ⟨ending, he, htokens, hbounded⟩ := Mode.expressionItems_append hm hclosed
  obtain ⟨dropped, he', htrailing⟩ := Item.dropTrailing_append (m.expressionItems sub)
  refine ⟨dropped ++ ending, ?_, startsWithToken_of_forall fun i hi => ?_, ?_, ?_⟩
  · rw [← List.append_assoc, ← he', ← he]
  · rcases List.mem_append.mp hi with hi | hi
    · cases i with
      | token t => exact ⟨t, rfl⟩
      | context k sub => cases htrailing _ hi
    · exact htokens i hi
  · exact fun hattribute hcomma =>
      List.append_ne_nil_of_right_ne_nil _ (hbounded.comma hattribute hcomma)
  · exact fun hraw => List.append_ne_nil_of_right_ne_nil _ (hbounded.mark hraw)

/-- From `c` on, the items were found in the text `s` and in the white space `w` in front of it; `r`
comes behind. -/
structure Expresses (c : Cursor) (items : List Item) (w s r : List Char) : Prop where
  rest : c.rest = w ++ (s ++ r)
  blank : ∀ d ∈ w, isBlank d = true
  trimmed : Trimmed s
  nonempty : s ≠ []
  pieces : Pieces c.pos (w ++ s) items r

/-- The items of the expression of a context were found in its text. -/
theorem Scans.expresses {m : Mode} {c back : Cursor} {sub : List Item} {s : List Char}
    (h : Scans m c sub back) (hm : m.isValue = true)
    (hclosed : m = .rawExpression → (Item.closedBy? ['\x7d'] sub).isSome = true)
    (hsound : SoundItems m sub) (hspell : Item.Spell (m.expressionItems sub) s) :
    ∃ w r, Expresses c (Item.dropTrailing (m.expressionItems sub)) w s r := by
  obtain ⟨tail, hsplit, hstart, hbounded⟩ := Mode.expressionItems_split hm hclosed
  have hlast := Item.getLast?_dropTrailing (m.expressionItems sub)
  obtain ⟨spelt, hspelling, hstrip, hne⟩ := hspell
  generalize Item.dropTrailing (m.expressionItems sub) = own at hsplit hlast hspelling ⊢
  obtain ⟨u, r, hrest, hpieces⟩ := h.pieces (Mode.isInline_of_isValue hm) hsplit hstart hsound hbounded
  obtain rfl : u = spelt := Except.ok.inj (hpieces.spellingAll_eq.symm.trans hspelling)
  -- The expression does not end in white space, but there may be some in front of it.
  obtain ⟨w, hw, hblank⟩ := stripStart_split u
  have hends : stripEnd (stripStart u) = stripStart u := by
    refine stripEnd_of_last fun d hd => hpieces.last_not_blank hlast d ?_
    have hnonempty : stripStart u ≠ [] := by
      intro hnil
      rw [hnil] at hd
      cases hd
    rw [hw, List.getLast?_append_of_ne_nil _ hnonempty]
    exact hd
  have hs : stripStart u = s := by rw [← hends, ← hstrip, strip]
  rw [hs] at hw
  subst hw
  exact ⟨w, r, by rw [hrest, List.append_assoc], hblank, hstrip ▸ trimmed_strip _, hne, hpieces⟩

namespace Expresses

variable {c : Cursor} {items : List Item} {w s r : List Char}

theorem solid_eq (h : Expresses c items w s r) (k : Nat) :
    Item.solid k items = (Item.solid 0 (lex .expression s)).map (moved k (c.pos + w.length)) :=
  h.pieces.solid_eq h.blank k

theorem covers (h : Expresses c items w s r) (k : Nat) :
    Covers (c.pos + w.length) s.length (Item.solid k items) := by
  rw [h.solid_eq]
  exact (covers_lex h.trimmed h.nonempty).map_moved k _

/-- The first token of an expression starts where the expression does. -/
theorem start (h : Expresses c items w s r) :
    (Item.ownTokens items).head?.map (·.pos) = some (c.pos + w.length) := by
  obtain ⟨t, ht, hfirst⟩ := (h.covers 0).first
  rw [h.pieces.head?_ownTokens 0, ht, ← hfirst]
  rfl

theorem slice {text : List Char} (h : Expresses c items w s r) (hc : c.In text) :
    (text.drop (c.pos + w.length)).take s.length = s := by
  obtain ⟨before, htext, hpos⟩ := hc
  have hsplit : text = (before ++ w) ++ (s ++ r) := by rw [htext, h.rest, List.append_assoc]
  rw [hsplit, hpos, ← List.length_append, List.drop_left, List.take_left]

end Expresses

/-- The expression of a context stands in the text, where its first token is. -/
theorem agreesAt_of_context {text s : List Char} {m : Mode} {sub : List Item}
    (hsound : SoundItems .root (lex .root text)) (hmem : (m, sub) ∈ Item.contextsAll (lex .root text))
    (hm : m.isValue = true)
    (hclosed : m = .rawExpression → (Item.closedBy? ['\x7d'] sub).isSome = true)
    (hspell : Item.Spell (m.expressionItems sub) s) : ∃ p, AgreesAt text p s ∧
      (Item.ownTokens (Item.dropTrailing (m.expressionItems sub))).head?.map (·.pos) = some p := by
  obtain ⟨stop, hscan, -⟩ := scans_lex isBottom_root text
  obtain ⟨c, back, hc, hsub⟩ := (hscan.located (Cursor.in_start text)).2 _ hmem
  obtain ⟨w, r, h⟩ := hsub.expresses hm hclosed (hsound.of_context hmem) hspell
  obtain ⟨tail, hsplit, -⟩ := Mode.expressionItems_split hm hclosed
  have hlast := Item.getLast?_dropTrailing (m.expressionItems sub)
  generalize Item.dropTrailing (m.expressionItems sub) = own at hsplit hlast h ⊢
  obtain ⟨k, front, behind, hinfix⟩ := Item.exists_infix_leveledAll 0 _ hmem
  rw [Nat.zero_add, hsplit, Item.leveledAll_append, List.append_assoc] at hinfix
  refine ⟨c.pos + w.length, ⟨h.slice hc, ⟨k, ?_⟩, h.pieces.soundTree h.blank,
    h.pieces.solid_comma h.blank hlast⟩, h.start⟩
  rw [← h.solid_eq]
  exact Item.solidIn_eq hinfix hscan.ordered.sorted (h.covers k)

/-! ## The expressions of a document -/

theorem expressionNode_of_spell {items : List Item} {s : List Char} (t : Token)
    (h : Item.Spell items s) : expressionNode items t =
      .mk { cls := .of .expression, head := some s,
            origin := some ⟨Item.ownTokens (Item.dropTrailing items), []⟩ } [] := by
  obtain ⟨u, hu, rfl, hne⟩ := h
  simp only [expressionNode, hu]

theorem agreesAt_of_flawless {text : List Char} {n : Node}
    (h : Flawless (bodyNodes .root (lex .root text))) (hn : n ∈ (transcribe text).subtrees)
    (hexpression : n.cls = .of .expression) :
    ∃ s p, n.head = some s ∧ n.start? = some p ∧ AgreesAt text p s := by
  obtain ⟨left, hf⟩ := formed_lex isBottom_root text
  obtain ⟨b, hb, hn⟩ := below_of_cls (l := ⟨.of .document, _, _, _⟩) nofun hn hexpression
  have hbelow := Tree.mem_subtreesAll.mpr ⟨b, hb, hn⟩
  obtain ⟨m, sub, t, hmem, hm, hclosed, rfl⟩ := hosted_bodyNodes hf rfl n hbelow hexpression
  obtain ⟨s, hspell, -⟩ := flawless_expressionNode_iff.mp (h.of_mem_subtrees hbelow)
  obtain ⟨p, hagrees, hp⟩ :=
    agreesAt_of_context ((hf.flawless_iff rfl (.inl rfl)).mp h) hmem hm hclosed hspell
  refine ⟨s, p, ?_, ?_, hagrees⟩
  · rw [expressionNode_of_spell t hspell]
    rfl
  · rw [expressionNode_of_spell t hspell, ← hp]
    simp [Node.start?, Tree.preorder, Tree.preorderAll, Label.ownStart?]

/-- Every expression of a document that was read stands in the text, where its first token is, and
lexing it on its own agrees with lexing the text. -/
theorem agreesAt_of_read {origin : Bool} {text : List Char} {d n : Node}
    (h : read origin text = .ok d) (hn : n ∈ d.subtrees) (hexpression : n.cls = .of .expression) :
    ∃ s p, n.head = some s ∧ (origin = true → n.start? = some p) ∧ AgreesAt text p s := by
  have hflawless := isOk_read_iff.mp ⟨d, h⟩
  obtain rfl := read_eq_ok h
  cases origin with
  | true =>
    obtain ⟨s, p, hs, hp, hagrees⟩ := agreesAt_of_flawless hflawless hn hexpression
    exact ⟨s, p, hs, fun _ => hp, hagrees⟩
  | false =>
    have hmap : n ∈ (transcribe text).forgetOrigin.subtrees := hn
    rw [Node.forgetOrigin, Tree.subtrees_map] at hmap
    obtain ⟨n', hn', rfl⟩ := List.mem_map.mp hmap
    rw [← Node.forgetOrigin, Node.cls_forgetOrigin] at hexpression
    obtain ⟨s, p, hs, -, hagrees⟩ := agreesAt_of_flawless hflawless hn' hexpression
    refine ⟨s, p, ?_, (by rintro ⟨⟩), hagrees⟩
    rw [← Node.forgetOrigin, Node.head_forgetOrigin, hs]

/-- An attribute whose value has a line comment inside of brackets, and one behind it. -/
def sampleValue : List Char := "a\x7bb: f(x, // one\n \"s\") // two\n\x7d".toList

theorem sampleValue_agreesAt : ∃ d n : Node, read true sampleValue = .ok d ∧ n ∈ d.subtrees ∧
    n.cls = .of .expression ∧
    ∃ s p, n.head = some s ∧ (true = true → n.start? = some p) ∧ AgreesAt sampleValue p s := by
  have hread : ((read true sampleValue).toOption.bind fun d =>
      d.subtrees.find? fun (n : Node) => n.cls = .of .expression).isSome = true := by decide +kernel
  cases h : read true sampleValue with
  | error e =>
    rw [h] at hread
    cases hread
  | ok d =>
    rw [h] at hread
    obtain ⟨n, hfind⟩ := Option.isSome_iff_exists.mp hread
    have hn : n ∈ d.subtrees := List.mem_of_find?_eq_some hfind
    have hexpression : n.cls = .of .expression := by simpa using List.find?_some hfind
    exact ⟨d, n, rfl, hn, hexpression, agreesAt_of_read h hn hexpression⟩

end BlockMarkup
