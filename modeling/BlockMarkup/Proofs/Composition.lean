import BlockMarkup.Proofs.Document.Joined
import BlockMarkup.Proofs.Document.Relocated
import BlockMarkup.Proofs.Expression.Lexing
import BlockMarkup.Proofs.Format

/-!
# BlockMarkup.Proofs.Composition

Two texts with a line feed between them are read as the nodes of both (`read_joined`), and formatted as
both (`format_joined`), where each of them is accepted. The first one must be sealed: an opening mark
that is ordinary text there, as it is not closed, may be closed by the second one.
-/

namespace BlockMarkup

open Text

/-- No token of the text is an opening mark that waits for its closing mark. -/
def IsSealed (text : List Char) : Prop :=
  ∀ t ∈ Item.tokensAll (lex .root text), isLoose t.text (text.drop t.stop) = false

instance (text : List Char) : Decidable (IsSealed text) :=
  List.decidableBAll _ (Item.tokensAll (lex .root text))

/-! ## Tokens of both texts -/

namespace Item

mutual

/-- A token in an item is the item, or it stands in one of its contexts. -/
theorem eq_or_mem_contexts {t : Token} : (i : Item) → t ∈ tokens i →
    i = .token t ∨ ∃ c ∈ contexts i, .token t ∈ c.2
  | .token u, h => .inl (congrArg Item.token (List.mem_singleton.mp h).symm)
  | .context m items, h => by
    rcases mem_or_mem_contextsAll items h with h | ⟨c, hc, h⟩
    · exact .inr ⟨(m, items), List.mem_cons_self, h⟩
    · exact .inr ⟨c, List.mem_cons_of_mem _ hc, h⟩

theorem mem_or_mem_contextsAll {t : Token} : (items : List Item) → t ∈ tokensAll items →
    .token t ∈ items ∨ ∃ c ∈ contextsAll items, .token t ∈ c.2
  | [], h => nomatch h
  | i :: is, h => by
    rcases List.mem_append.mp h with h | h
    · rcases eq_or_mem_contexts i h with rfl | ⟨c, hc, h⟩
      · exact .inl List.mem_cons_self
      · exact .inr ⟨c, List.mem_append_left _ hc, h⟩
    · rcases mem_or_mem_contextsAll is h with h | ⟨c, hc, h⟩
      · exact .inl (List.mem_cons_of_mem _ h)
      · exact .inr ⟨c, List.mem_append_right _ hc, h⟩

end

end Item

/-- Items in order are made of matched text, at any depth. -/
theorem SoundItems.matched {m : Mode} {items : List Item} (h : SoundItems m items) :
    ∀ t ∈ Item.tokensAll items, t.cls ≠ .stray := by
  intro t ht
  rcases Item.mem_or_mem_contextsAll items ht with ht | ⟨c, hc, ht⟩
  · exact h.not_stray t ht
  · obtain ⟨sub, hsub⟩ := Item.mem_opened ht
    exact ((h.2 c hc).token _ hsub).matched

theorem soundItems_of_read {origin : Bool} {text : List Char} {d : Node}
    (h : read origin text = .ok d) : SoundItems .root (lex .root text) := by
  obtain ⟨left, hf⟩ := formed_lex isBottom_root text
  exact (hf.flawless_iff rfl (.inl rfl)).mp (isOk_read_iff.mp ⟨d, h⟩)

/-- White space in front of a text makes no tokens. -/
theorem scans_behind_blanks (text : List Char) : ∃ w s stop, text = w ++ s ∧
    (∀ c ∈ w, isBlank c = true) ∧ (∀ c ∈ s.head?, isBlank c = false) ∧
    Scans .root ⟨w.length, s⟩ (lex .root text) stop := by
  obtain ⟨w, htext, hw⟩ := stripStart_split text
  have hs := head?_stripStart text
  obtain ⟨stop, hscan, -⟩ := scans_lex isBottom_root (stripStart text)
  have hmoved := hscan.moved w.length
  have hcursor : (Cursor.start (stripStart text)).moved w.length = ⟨w.length, stripStart text⟩ := by
    rw [Cursor.start, Cursor.moved, Nat.zero_add]
  have hreads := reads_blanks_to (c := Cursor.start text) (m := .root) rfl htext hw hs
  rw [Cursor.start, Nat.zero_add, ← hcursor] at hreads
  have hlex := lex_eq_of_scans isBottom_root (hreads _ _ hmoved)
  rw [List.nil_append] at hlex
  rw [← hlex, hcursor] at hmoved
  exact ⟨w, stripStart text, _, htext, hw, hs, hmoved⟩

/-- The items of both texts, the second ones further on. -/
theorem lex_joined {a b : List Char} {d : Node} (ha : read false a = .ok d) (hsealed : IsSealed a) :
    lex .root (a ++ '\n' :: b) =
      lex .root a ++ Item.movedAll (a.length + 1) (lex .root b) := by
  have hsound := soundItems_of_read ha
  obtain ⟨stop, hscan, -⟩ := scans_lex isBottom_root a
  obtain ⟨p, w, hp, hw, hreads⟩ := hscan.reads_onward rfl (Cursor.in_start a) hsound.1
    (fun t ht => ⟨hsound.matched t ht, hsealed t ht⟩) b
  obtain ⟨v, s, stop', hb, hv, hs, hscan'⟩ := scans_behind_blanks b
  have hblanks : ∀ c ∈ w ++ '\n' :: v, isBlank c = true :=
    List.forall_mem_append.mpr ⟨hw, List.forall_mem_cons.mpr ⟨by decide, hv⟩⟩
  have hrest : w ++ '\n' :: b = (w ++ '\n' :: v) ++ s := by
    rw [hb, List.append_assoc, List.cons_append]
  have hskip := reads_blanks_to (c := ⟨p, w ++ '\n' :: b⟩) (m := .root) rfl hrest hblanks hs
  have hcursor : (⟨p + (w ++ '\n' :: v).length, s⟩ : Cursor) =
      (⟨v.length, s⟩ : Cursor).moved (a.length + 1) := by
    rw [Cursor.moved, List.length_append, List.length_cons]
    simp only [Cursor.mk.injEq, and_true]
    omega
  rw [hcursor] at hskip
  exact lex_eq_of_scans isBottom_root (hreads _ _ (hskip _ _ (hscan'.moved (a.length + 1))))

/-! ## Nodes of both texts -/

/-- A whole text is closed by no token, so that its items can be cut in front of any token. -/
theorem bodyNodes_append {more : List Item} (h : StartsWithToken more) (items : List Item) :
    bodyNodes .root (items ++ more) = bodyNodes .root items ++ bodyNodes .root more := by
  -- The items are taken as a body takes them: each token with the context behind it.
  fun_induction Item.opened items with
  | case1 => rfl
  | case2 c sub is ih => rw [List.cons_append, bodyNodes, bodyNodes, ih, List.cons_append]
  | case3 t =>
    have hnil := bodyNodes_token (m := .root) (t := t) startsWithToken_nil rfl
    rw [List.singleton_append, bodyNodes_token h rfl, hnil, bodyNodes, List.append_nil]
  | case4 t u is ih =>
    rw [List.cons_append] at ih
    rw [List.cons_append, List.cons_append, bodyNodes, bodyNodes, ih, List.append_assoc]
  | case5 t c sub is ih =>
    rw [List.cons_append, List.cons_append, bodyNodes, bodyNodes, ih, List.append_assoc]

theorem flawless_map_forgetOrigin {ns : List Node} :
    Flawless (ns.map Node.forgetOrigin) ↔ Flawless ns := by
  have hmap : ns.map Node.forgetOrigin = Tree.mapAll (fun l => { l with origin := none }) ns :=
    (Tree.mapAll_eq_map _ _).symm
  rw [hmap, flawless_forgetOrigin]

/-- Two accepted texts with a line feed between them are accepted, and read as the nodes of the first
one and those of the second. -/
theorem read_joined {a b : List Char} {d e : Node} (ha : read false a = .ok d)
    (hb : read false b = .ok e) (hsealed : IsSealed a) : ∃ j, read false (a ++ '\n' :: b) = .ok j ∧
      j.children = d.children ++ e.children := by
  have hlex := lex_joined (b := b) ha hsealed
  obtain ⟨left, hf⟩ := formed_lex isBottom_root b
  have hflawless := isOk_read_iff.mp ⟨e, hb⟩
  have hnodes : bodyNodes .root (lex .root (a ++ '\n' :: b)) = bodyNodes .root (lex .root a) ++
      (bodyNodes .root (lex .root b)).map (Node.moved (a.length + 1)) := by
    rw [hlex, bodyNodes_append (hf.startsWithToken.moved _), bodyNodes_moved]
  have hmoved : ((bodyNodes .root (lex .root b)).map (Node.moved (a.length + 1))).map
      Node.forgetOrigin = (bodyNodes .root (lex .root b)).map Node.forgetOrigin :=
    Node.map_forgetOrigin_moved _ _ (position_of_flawless hflawless)
  have hjoined : Flawless (bodyNodes .root (lex .root (a ++ '\n' :: b))) := by
    rw [hnodes]
    refine Flawless.append_iff.mpr ⟨isOk_read_iff.mp ⟨d, ha⟩, ?_⟩
    rwa [← flawless_map_forgetOrigin, hmoved, flawless_map_forgetOrigin]
  obtain ⟨j, hj⟩ : ∃ j, read false (a ++ '\n' :: b) = .ok j := isOk_read_iff.mpr hjoined
  refine ⟨j, hj, ?_⟩
  rw [children_of_read hj, children_of_read ha, children_of_read hb, hnodes, List.map_append, hmoved]

/-! ## Formatting both texts -/

/-- Two texts that can be formatted are formatted as the one and then the other, with a line feed
between them. -/
theorem format_joined {a b s t : List Char} {width : Int} (ha : format a width = .ok s)
    (hb : format b width = .ok t) (hsealed : IsSealed a) :
    format (a ++ '\n' :: b) width = .ok (s ++ t) := by
  obtain ⟨d, hd, hs⟩ := writes_of_format ha
  obtain ⟨e, he, ht⟩ := writes_of_format hb
  obtain ⟨j, hj, hchildren⟩ := read_joined hd he hsealed
  rw [format_of_read hj, hchildren, Formatter.nodes, List.map_append, Script.concat_append]
  exact (hs.append ht).result

/-- The mark of a comment that does not end is ordinary text in an expression. -/
example : ¬ IsSealed "a{b:/*}".toList := by decide +kernel

end BlockMarkup
