import BlockMarkup.Proofs.Document.Accept
import BlockMarkup.Proofs.Document.Factory
import BlockMarkup.Proofs.Document.Spans

/-!
# BlockMarkup.Proofs.Document.Refused

Where a text is refused. Every flaw of a transcript stands where one of the tokens of the text starts
(`Formed.anchored`), so a text that is not read has a failure with a position in that text, and
the failure is the first flaw (`failure_of_read`).
-/

namespace BlockMarkup

open Text

/-! ## Flaws at tokens -/

/-- Each flaw among the nodes has its words, and stands where one of the tokens starts. -/
def FlawsAt (ts : List Token) (ns : List Node) : Prop :=
  ∀ l ∈ Tree.preorderAll ns, l.isA .invalid = true →
    ∃ f : Flaw, ∃ t ∈ ts, l.head = some f.message ∧ l.position = some (Int.ofNat t.pos)

namespace FlawsAt

variable {ts us : List Token} {ns ms : List Node} {l : Label} {t : Token}

theorem nil : FlawsAt ts [] := nofun

theorem append_iff : FlawsAt ts (ns ++ ms) ↔ FlawsAt ts ns ∧ FlawsAt ts ms := by
  simp only [FlawsAt, Tree.mem_preorderAll, List.mem_append, or_and_right, exists_or, or_imp,
    forall_and]

theorem iff_forall : FlawsAt ts ns ↔ ∀ n ∈ ns, FlawsAt ts [n] := by
  simp only [FlawsAt, Tree.mem_preorderAll, List.mem_singleton, exists_eq_left]
  grind

theorem mono (hsub : ts ⊆ us) (h : FlawsAt ts ns) : FlawsAt us ns := by
  intro l hl hinvalid
  obtain ⟨f, t, ht, hlabel⟩ := h l hl hinvalid
  exact ⟨f, t, hsub ht, hlabel⟩

/-- A node that is no flaw itself. -/
theorem node (hl : l.isA .invalid = false) (h : FlawsAt ts ns) : FlawsAt ts [.mk l ns] := by
  intro k hk hinvalid
  simp only [Tree.preorderAll, Tree.preorder, List.append_nil, List.mem_cons] at hk
  rcases hk with rfl | hk
  · rw [hl] at hinvalid
    cases hinvalid
  · exact h k hk hinvalid

theorem invalid (f : Flaw) (ht : t ∈ ts) : FlawsAt ts [.invalid f (some t.pos)] := by
  intro l hl _
  cases List.mem_singleton.mp hl
  exact ⟨f, t, ht, rfl, rfl⟩

end FlawsAt

/-! ## Expressions -/

/-- If the items do not spell an expression, the trouble is where one of the tokens starts. -/
def Item.TroubleAt (ts : List Token) (items : List Item) : Prop :=
  ∀ e, spellingAll items = .error e → ∃ t ∈ ts, e.pos = some t.pos

namespace Item

theorem spellingAll_cons_error {i : Item} {is : List Item} {e : Trouble}
    (h : spellingAll (i :: is) = .error e) : spelling i = .error e ∨ spellingAll is = .error e := by
  rw [spellingAll] at h
  cases hi : spelling i with
  | error e' =>
    rw [hi] at h
    cases h
    exact .inl rfl
  | ok s =>
    cases his : spellingAll is with
    | error e' =>
      rw [hi, his] at h
      cases h
      exact .inr rfl
    | ok s' =>
      rw [hi, his] at h
      cases h

theorem spellingAll_append_error {is : List Item} {e : Trouble} (js : List Item)
    (h : spellingAll is = .error e) : spellingAll (is ++ js) = .error e := by
  induction is with
  | nil => cases h
  | cons i is ih =>
    rw [spellingAll] at h
    rw [List.cons_append, spellingAll]
    cases hi : spelling i with
    | error e' => rwa [hi] at h
    | ok s =>
      cases his : spellingAll is with
      | error e' =>
        rw [hi, his] at h
        cases h
        rw [ih his]
      | ok s' =>
        rw [hi, his] at h
        cases h

namespace TroubleAt

variable {ts : List Token} {is js : List Item}

theorem nil : TroubleAt ts [] := nofun

theorem mono {us : List Token} (hsub : ts ⊆ us) (h : TroubleAt ts is) : TroubleAt us is := by
  intro e he
  obtain ⟨t, ht, hpos⟩ := h e he
  exact ⟨t, hsub ht, hpos⟩

theorem of_prefix (h : TroubleAt ts js) (hpre : is <+: js) : TroubleAt ts is := by
  obtain ⟨rest, rfl⟩ := hpre
  exact fun e he => h e (spellingAll_append_error rest he)

end TroubleAt

theorem dropTrailing_prefix (items : List Item) : dropTrailing items <+: items := by
  have hsuffix := List.dropWhile_suffix (l := items.reverse) isTrailing
  have hprefix := List.reverse_prefix.mpr hsuffix
  rwa [List.reverse_reverse] at hprefix

theorem valueItems_prefix (items : List Item) : valueItems items <+: items := by
  unfold valueItems
  split
  · exact List.dropLast_prefix items
  · exact List.prefix_rfl

end Item

namespace Item

theorem pos_of_spelling_token {t : Token} {e : Trouble} (h : spelling (.token t) = .error e) :
    e.pos = some t.pos := by
  rw [spelling] at h
  split at h
  · cases h
    rfl
  · cases h

/-- A group is in trouble where an item of it is, or it is not closed and the trouble is where it
starts. -/
theorem spelling_context_error {m : Mode} {items : List Item} {e : Trouble}
    (h : spelling (.context m items) = .error e) :
    spellingAll items = .error e ∨ e.pos = start? items := by
  rw [spelling] at h
  split at h
  · rename_i e' he
    cases h
    exact .inl he
  · split at h
    · cases h
    · cases h
      exact .inr rfl

namespace TroubleAt

variable {t : Token} {items : List Item}

theorem token (h : TroubleAt (tokensAll items) items) :
    TroubleAt (tokensAll (.token t :: items)) (.token t :: items) := by
  intro e he
  rcases spellingAll_cons_error he with ht | hrest
  · exact ⟨t, List.mem_cons_self, pos_of_spelling_token ht⟩
  · obtain ⟨u, hu, hpos⟩ := h e hrest
    exact ⟨u, List.mem_cons_of_mem _ hu, hpos⟩

theorem context {m : Mode} {u : Token} {sub : List Item}
    (hsub : TroubleAt (tokensAll (.token u :: sub)) (.token u :: sub))
    (h : TroubleAt (tokensAll items) items) :
    TroubleAt (tokensAll (.context m (.token u :: sub) :: items))
      (.context m (.token u :: sub) :: items) := by
  intro e he
  rcases spellingAll_cons_error he with hgroup | hrest
  · rcases spelling_context_error hgroup with hinner | hopen
    · obtain ⟨v, hv, hpos⟩ := hsub e hinner
      exact ⟨v, List.mem_append_left _ hv, hpos⟩
    · exact ⟨u, List.mem_cons_self, hopen⟩
  · obtain ⟨v, hv, hpos⟩ := h e hrest
    exact ⟨v, List.mem_append_right _ hv, hpos⟩

end TroubleAt

end Item

/-- What lexing finds is in trouble only where a token starts. -/
theorem Formed.troubleAt {m : Mode} {items : List Item} {left : Bool} (h : Formed m items left) :
    Item.TroubleAt (Item.tokensAll items) items := by
  induction h with
  | stop | leave => exact .nil
  | stray _ _ _ ih => exact ih.token
  | stay _ _ _ ih => exact ih.token
  | close _ _ => exact Item.TroubleAt.nil.token
  | @push m inner r t c back sub items subLeft left _ _ _ hsub _ _ ihsub ih =>
    refine Item.TroubleAt.token ?_
    cases sub with
    | nil => exact ih
    | cons i is =>
      cases i with
      | token u => exact .context ihsub ih
      | context k js => exact absurd hsub Formed.not_context

/-! ## The nodes of a body -/

section

variable {ts : List Token} {t : Token} {items : List Item} {ns : List Node}

theorem flawsAt_expressionNode (h : Item.TroubleAt ts items) (ht : t ∈ ts) :
    FlawsAt ts [expressionNode items t] := by
  unfold expressionNode
  simp only
  split
  · rename_i e he
    obtain ⟨u, hu, hpos⟩ := h.of_prefix (Item.dropTrailing_prefix items) e he
    rw [hpos]
    exact .invalid _ hu
  · split
    · exact .invalid _ ht
    · exact .node rfl .nil

theorem flawsAt_valueNode (h : Item.TroubleAt ts items) (ht : t ∈ ts) :
    FlawsAt ts [valueNode items t] := by
  rcases valueNode_eq items t with ⟨u, -, -, he⟩ | ⟨-, he⟩
  · rw [he]
    exact .node rfl .nil
  · rw [he]
    exact flawsAt_expressionNode h ht

theorem flawsAt_attributeNode (h : Item.TroubleAt ts items) (ht : t ∈ ts) :
    FlawsAt ts [attributeNode t items] := by
  have hvalue := flawsAt_valueNode (h.of_prefix (Item.valueItems_prefix items)) ht
  unfold attributeNode
  simp only
  split
  · exact .node rfl .nil
  · exact .node (isA_invalid_attributeKind _ _) hvalue

theorem flawsAt_blockNode {k : Kind} (hk : k.isA .invalid = false) (ht : t ∈ ts)
    (hinner : FlawsAt ts ns) : FlawsAt ts [blockNode k t items ns] := by
  unfold blockNode
  simp only
  refine .node hk (FlawsAt.append_iff.mpr ⟨hinner, ?_⟩)
  split
  · exact .invalid _ ht
  · exact .nil

theorem flawsAt_rawExpressionNode (h : Item.TroubleAt ts items) (ht : t ∈ ts) :
    FlawsAt ts [rawExpressionNode t items] := by
  unfold rawExpressionNode
  split
  · exact .invalid _ ht
  · exact .node rfl (flawsAt_expressionNode (h.of_prefix (List.dropLast_prefix items)) ht)

theorem flawsAt_decorationNode (h : Item.TroubleAt ts items) (ht : t ∈ ts) :
    FlawsAt ts [decorationNode t items] := by
  unfold decorationNode
  split
  · exact .invalid _ ht
  · split
    · rename_i e he
      obtain ⟨u, hu, hpos⟩ := h e he
      rw [hpos]
      exact .invalid _ hu
    · exact .node rfl .nil

theorem flawsAt_nodeOf? (m : Mode) (h : Item.TroubleAt ts items) (ht : t ∈ ts)
    (hinner : FlawsAt ts ns) : FlawsAt ts (nodeOf? m t items ns).toList := by
  unfold nodeOf?
  split
  · exact flawsAt_attributeNode h ht
  · exact .node (isA_invalid_fieldKind _ _)
      (flawsAt_valueNode (h.of_prefix (Item.valueItems_prefix items)) ht)
  · exact .node rfl (flawsAt_expressionNode h ht)
  · exact .nil
  · exact .node rfl .nil
  · exact flawsAt_blockNode rfl ht hinner
  · exact flawsAt_blockNode rfl ht hinner
  · exact flawsAt_rawExpressionNode h ht
  · exact flawsAt_decorationNode h ht
  · exact .invalid _ ht

end

/-- Flaws stand where one of the tokens starts, and so does each of the nodes that is none. -/
structure Anchored (ts : List Token) (ns : List Node) : Prop where
  flaws : FlawsAt ts ns
  starts : ∀ n ∈ ns, n.kind ≠ .invalid → ∃ t ∈ ts, n.label.ownStart? = some t.pos

namespace Anchored

variable {ts us : List Token} {ns ms : List Node}

theorem nil : Anchored ts [] := ⟨.nil, nofun⟩

theorem append (h : Anchored ts ns) (h' : Anchored ts ms) : Anchored ts (ns ++ ms) :=
  ⟨FlawsAt.append_iff.mpr ⟨h.flaws, h'.flaws⟩, List.forall_mem_append.mpr ⟨h.starts, h'.starts⟩⟩

theorem mono (hsub : ts ⊆ us) (h : Anchored ts ns) : Anchored us ns := by
  refine ⟨h.flaws.mono hsub, fun n hn hkind => ?_⟩
  obtain ⟨t, ht, hstart⟩ := h.starts n hn hkind
  exact ⟨t, hsub ht, hstart⟩

theorem nodeOf? {t : Token} {items : List Item} (m : Mode) (h : Item.TroubleAt ts items)
    (ht : t ∈ ts) (hinner : FlawsAt ts ns) : Anchored ts (nodeOf? m t items ns).toList := by
  refine ⟨flawsAt_nodeOf? m h ht hinner, fun n hn hkind => ⟨t, ht, ?_⟩⟩
  exact ownStart?_of_nodeOf? (Option.mem_toList.mp hn) hkind

/-- A node that may stand only once becomes a flaw where it starts. -/
theorem onlyFirst {k : Kind} (hk : k ≠ .invalid) (f : Flaw) (h : Anchored ts ns) :
    FlawsAt ts (onlyFirst k f ns) := by
  rw [FlawsAt.iff_forall]
  intro n hn
  rcases mem_of_mem_onlyFirst hn with hn | ⟨m, hm, hkind, rfl⟩
  · exact FlawsAt.iff_forall.mp h.flaws n hn
  · obtain ⟨t, ht, hstart⟩ := h.starts m hm (hkind ▸ hk)
    rw [hstart]
    exact .invalid f ht

end Anchored

/-- The nodes of a body are anchored in its tokens. -/
theorem Formed.anchored {m : Mode} {items : List Item} {left : Bool} (h : Formed m items left)
    (hm : m.isBody = true) : Anchored (Item.tokensAll items) (bodyNodes m items) := by
  induction h with
  | stop | leave => exact .nil
  | stray _ hfirst hf ih =>
    rw [bodyNodes_token hf.startsWithToken (closesBlock_of_stray hfirst)]
    exact .append (.nodeOf? _ .nil List.mem_cons_self .nil) (.mono (List.subset_cons_self _ _) (ih hm))
  | stay hmove hmakes hf ih =>
    rw [bodyNodes_token hf.startsWithToken (closesBlock_of_stay hm hmove hmakes)]
    exact .append (.nodeOf? _ .nil List.mem_cons_self .nil) (.mono (List.subset_cons_self _ _) (ih hm))
  | close hmove hmakes =>
    obtain ⟨hblock, -, htext⟩ := closes_body hm hmove hmakes
    rw [bodyNodes, if_pos (closesBlock_iff.mpr ⟨hblock, htext⟩)]
    exact .nil
  | @push m inner r t c back sub items subLeft left hmove hmakes _ hsub _ hf ihsub ih =>
    have hopens := opens_of_makes hmove hmakes
    rw [bodyNodes_push hf.startsWithToken (closesBlock_of_opens hopens hm), Item.tokensAll_push]
    have hin : Item.tokensAll sub ⊆ t :: (Item.tokensAll sub ++ Item.tokensAll items) :=
      fun u hu => List.mem_cons_of_mem _ (List.mem_append_left _ hu)
    have hbehind : Item.tokensAll items ⊆ t :: (Item.tokensAll sub ++ Item.tokensAll items) :=
      fun u hu => List.mem_cons_of_mem _ (List.mem_append_right _ hu)
    refine .append (.nodeOf? m (.mono hin hsub.troubleAt) List.mem_cons_self ?_)
      (.mono hbehind (ih hm))
    rw [innerNodes_of_opens hopens]
    split
    · exact .mono hin ((ihsub rfl).onlyFirst (by decide) _)
    · exact .mono hin ((ihsub rfl).onlyFirst (by decide) _)
    · exact .nil

/-! ## Texts that are not read -/

theorem Token.In.pos_lt_length {t : Token} {text : List Char} (h : t.In text) :
    t.pos < text.length := by
  have hpos := List.length_pos_iff.mpr h.nonempty
  obtain ⟨before, behind, rfl, hbefore⟩ := h.split
  rw [List.length_append, List.length_append]
  omega

/-- The flaws of a transcript stand where tokens of its text start. -/
theorem flawsAt_transcribeWith (origin : Bool) (text : List Char) :
    FlawsAt (Item.tokensAll (lex .root text)) (transcribeWith origin text).children := by
  obtain ⟨left, hf⟩ := formed_lex isBottom_root text
  have hflaws := (hf.anchored rfl).flaws
  cases origin with
  | true => exact hflaws
  | false =>
    intro l hl hinvalid
    rw [transcribeWith, if_neg (by simp), children_forgetOrigin, Tree.preorderAll_mapAll] at hl
    obtain ⟨k, hk, rfl⟩ := List.mem_map.mp hl
    exact hflaws k hk hinvalid

/-- The failure tells of the first invalid node in document order. -/
def ParseFailure.IsFirstIn (e : ParseFailure) (n : Node) : Prop :=
  ∃ (before behind : List Label) (l : Label), n.preorder = before ++ l :: behind ∧
    (∀ k ∈ before, k.isA .invalid = false) ∧ l.isA .invalid = true ∧ e = ⟨l.head, l.position⟩

/-- What a check finds is the first flaw. -/
theorem isFirstIn_of_check {n : Node} {e : ParseFailure} (hroot : n.label.isA .invalid = false)
    (h : check n = .error e) : e.IsFirstIn n ∧
      ∃ l ∈ Tree.preorderAll n.children, l.isA .invalid = true ∧ e = ⟨l.head, l.position⟩ := by
  obtain ⟨l, hl, rfl⟩ : ∃ l, firstInvalid? n = some l ∧ e = ⟨l.head, l.position⟩ := by
    unfold check at h
    split at h
    · rename_i l hl
      cases h
      exact ⟨l, hl, rfl⟩
    · cases h
  obtain ⟨hinvalid, before, behind, hsplit, hbefore⟩ := List.find?_eq_some_iff_append.mp hl
  refine ⟨⟨n.label :: before, behind, l, ?_, List.forall_mem_cons.mpr ⟨hroot, ?_⟩, hinvalid, rfl⟩,
    l, ?_, hinvalid, rfl⟩
  · rw [List.cons_append, ← hsplit]
    cases n
    rfl
  · exact fun k hk => by simpa using hbefore k hk
  · rw [hsplit]
    exact List.mem_append_right _ List.mem_cons_self

/-- The failure of a text that is not read is the first flaw of its transcript. It has the words of a
flaw and a position in the text, where a token starts. -/
theorem failure_of_read {origin : Bool} {text : List Char} {e : ParseFailure}
    (h : read origin text = .error e) : e.IsFirstIn (transcribeWith origin text) ∧
      ∃ (f : Flaw) (t : Token), t ∈ Item.tokensAll (lex .root text) ∧ e.head = some f.message ∧
        e.pos = some (Int.ofNat t.pos) ∧ t.pos < text.length := by
  have hroot : (transcribeWith origin text).label.isA .invalid = false := by
    cases origin <;> rfl
  obtain ⟨hfirst, l, hl, hinvalid, rfl⟩ := isFirstIn_of_check hroot h
  obtain ⟨f, t, ht, hhead, hpos⟩ := flawsAt_transcribeWith origin text l hl hinvalid
  obtain ⟨stop, hscan, -⟩ := scans_lex isBottom_root text
  have hin := hscan.tokens_in (Cursor.in_start text) t ht
  exact ⟨hfirst, f, t, ht, hhead, hpos, hin.pos_lt_length⟩

/-- A second spread in front of a group and a block that the end of the text leaves open. -/
def sampleRefused : List Char := "A\x7b..x, ..y, b: g(h".toList

theorem failure_sampleRefused : ∃ e, read false sampleRefused = .error e ∧
    e.IsFirstIn (transcribeWith false sampleRefused) ∧
      ∃ (f : Flaw) (t : Token), t ∈ Item.tokensAll (lex .root sampleRefused) ∧
        e.head = some f.message ∧ e.pos = some (Int.ofNat t.pos) ∧
        t.pos < sampleRefused.length := by
  have hread : (read false sampleRefused).toOption.isSome = false := by decide +kernel
  cases h : read false sampleRefused with
  | ok d =>
    rw [h] at hread
    cases hread
  | error e => exact ⟨e, rfl, failure_of_read h⟩

end BlockMarkup
