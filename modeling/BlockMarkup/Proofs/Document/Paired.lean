import BlockMarkup.Proofs.Document.Refused
import BlockMarkup.Proofs.Token.Attached

/-!
# BlockMarkup.Proofs.Document.Paired

Tokens and contexts in pairs. `Item.pairs` goes through the items of a context and takes each token
together with the context directly behind it; the nodes of a body are those of its pairs
(`bodyNodes_eq_pairs`). In a text that was lexed, each of these is a token with the context that it
opened itself (`Attached.pairs`), so a context without a token is never found.
-/

namespace BlockMarkup

namespace Item

/-- The items, each token with the mode and the items of the context directly behind it. -/
def pairs : List Item → List (Item × Option (Mode × List Item))
  | [] => []
  | .token t :: .context m sub :: is => (.token t, some (m, sub)) :: pairs is
  | i :: is => (i, none) :: pairs is

/-- The items that a pair is made of. -/
def ofPair : Item × Option (Mode × List Item) → List Item
  | (i, none) => [i]
  | (i, some (m, sub)) => [i, .context m sub]

/-- The items of a body without the brace that closes it. -/
def unclosed (m : Mode) (items : List Item) : List Item :=
  match items.getLast? with
  | some (.token t) => if closesBlock m t then items.dropLast else items
  | _ => items

theorem unclosed_cons (m : Mode) (i : Item) {items : List Item} (hne : items ≠ []) :
    unclosed m (i :: items) = i :: unclosed m items := by
  obtain ⟨j, is, rfl⟩ := List.exists_cons_of_ne_nil hne
  rw [unclosed, unclosed, List.getLast?_cons_cons]
  split
  · split <;> rfl
  · rfl

theorem unclosed_context (m c : Mode) (sub items : List Item) :
    unclosed m (.context c sub :: items) = .context c sub :: unclosed m items := by
  cases items with
  | nil => rfl
  | cons i is => exact unclosed_cons m _ (List.cons_ne_nil i is)

theorem unclosed_prefix (m : Mode) (items : List Item) : unclosed m items <+: items := by
  unfold unclosed
  split
  · split
    · exact List.dropLast_prefix items
    · exact List.prefix_refl items
  · exact List.prefix_refl items

theorem pairs_token {t : Token} {items : List Item} (h : StartsWithToken items) :
    pairs (.token t :: items) = (.token t, none) :: pairs items := by
  cases items with
  | nil => rfl
  | cons i is =>
    cases i with
    | token u => rfl
    | context k sub => exact absurd rfl (h k sub is)

/-- No item gets lost or is taken twice. -/
theorem flatMap_pairs (items : List Item) : (pairs items).flatMap ofPair = items := by
  fun_induction opened items with
  | case1 => rfl
  | case2 c sub is ih => exact congrArg (.context c sub :: ·) ih
  | case3 t => rfl
  | case4 t u is ih => exact congrArg (.token t :: ·) ih
  | case5 t c sub is ih => exact congrArg (.token t :: .context c sub :: ·) ih

/-- A token at the end is a pair of its own. -/
theorem pairs_append_token (t : Token) (items : List Item) :
    pairs (items ++ [.token t]) = pairs items ++ [(.token t, none)] := by
  fun_induction opened items with
  | case1 => rfl
  | case2 c sub is ih => exact congrArg ((context c sub, none) :: ·) ih
  | case3 u => rfl
  | case4 u v is ih => exact congrArg ((token u, none) :: ·) ih
  | case5 u c sub is ih => exact congrArg ((token u, some (c, sub)) :: ·) ih

/-- Without its closing brace a body has no other pairs. -/
theorem pairs_unclosed_subset (m : Mode) (items : List Item) :
    pairs (unclosed m items) ⊆ pairs items := by
  unfold unclosed
  split
  · rename_i t hlast
    split
    · obtain ⟨front, rfl⟩ := List.getLast?_eq_some_iff.mp hlast
      rw [List.dropLast_concat, pairs_append_token]
      exact List.subset_append_left _ _
    · exact List.Subset.refl _
  · exact List.Subset.refl _

end Item

theorem StartsWithToken.of_prefix {is js : List Item} (h : StartsWithToken js) (hpre : is <+: js) :
    StartsWithToken is := by
  obtain ⟨behind, rfl⟩ := hpre
  rintro k sub rest rfl
  exact h k sub (rest ++ behind) rfl

/-- The nodes of an item of a body and of the context behind it. -/
def pairNodes (m : Mode) : Item × Option (Mode × List Item) → List Node
  | (.context c _, _) => [.invalid (.unexpectedContext c) none]
  | (.token t, none) => (nodeOf? m t [] []).toList
  | (.token t, some (c, sub)) => (nodeOf? m t sub (innerNodes t.cls (.context c sub))).toList

/-- The nodes of a body are those of its pairs, whatever its items are. -/
theorem bodyNodes_eq_pairs (m : Mode) (items : List Item) :
    bodyNodes m items = (Item.pairs (Item.unclosed m items)).flatMap (pairNodes m) := by
  fun_induction Item.opened items with
  | case1 => rfl
  | case2 c sub is ih =>
    rw [bodyNodes, ih, Item.unclosed_context]
    rfl
  | case3 t =>
    rw [bodyNodes]
    show _ = (Item.pairs (if closesBlock m t = true then [] else [.token t])).flatMap _
    split
    · rfl
    · exact (List.append_nil _).symm
  | case4 t u is ih =>
    have hstart : StartsWithToken (Item.unclosed m (.token u :: is)) := by
      refine StartsWithToken.of_prefix ?_ (Item.unclosed_prefix m _)
      rintro k sub rest ⟨⟩
    rw [bodyNodes, ih, Item.unclosed_cons m _ (List.cons_ne_nil _ _), Item.pairs_token hstart]
    rfl
  | case5 t c sub is ih =>
    rw [bodyNodes, ih, Item.unclosed_cons m _ (List.cons_ne_nil _ _), Item.unclosed_context]
    rfl

/-! ## Pairs of a run -/

/-- The pair is a token with the context that it opened; where there is no context, whatever the token
opened was empty. -/
def OwnPair (log : List Lexer.Step) (m : Mode) (q : Item × Option (Mode × List Item)) : Prop :=
  ∃ t, q.1 = .token t ∧
    match q.2 with
    | none => ∀ k inner sub, OpenedBy log k t inner sub → sub = []
    | some (inner, sub) => OpenedBy log m t inner sub

theorem Attached.ownPairs {log : List Lexer.Step} {m : Mode} {items : List Item} {p : Nat}
    {u : List Char} (htiles : Tiles p (stretchesOf log) u) (h : Attached log m items) :
    ∀ q ∈ Item.pairs items, OwnPair log m q := by
  induction h with
  | nil => exact nofun
  | @token s t items hs hm ht hnone hrest ih =>
    rw [Item.pairs_token hrest.startsWithToken]
    refine List.forall_mem_cons.mpr ⟨⟨t, rfl, ?_⟩, ih⟩
    rintro k inner sub ⟨s', hs', -, hp⟩
    obtain rfl := htiles.step_unique hs hs' ht hp.mem_tokens
    exact hnone inner sub hp
  | @context s t inner sub items hs hm hp _ _ ih =>
    exact List.forall_mem_cons.mpr ⟨⟨t, rfl, s, hs, hm, hp⟩, ih⟩

/-- The items of a context in mode `m` and their pairs. -/
structure Paired (log : List Lexer.Step) (m : Mode) (items : List Item) : Prop where
  first : ∀ i ∈ items.head?, ∃ t, i = .token t
  /-- Directly in front of a context stands the token that opened it, as its class and its text call
  for. -/
  before : ∀ front inner sub behind, items = front ++ .context inner sub :: behind →
    ∃ before t, front = before ++ [.token t] ∧ OpenedBy log m t inner sub ∧ Opens m t inner ∧
      t.cls.opens? m = some inner
  /-- The pairs are the items, in their order. -/
  pairs : (Item.pairs items).flatMap Item.ofPair = items ∧
    ∀ q ∈ Item.pairs items, OwnPair log m q
  /-- The nodes are made of such pairs. -/
  nodes : bodyNodes m items = (Item.pairs (Item.unclosed m items)).flatMap (pairNodes m) ∧
    ∀ q ∈ Item.pairs (Item.unclosed m items), OwnPair log m q

theorem Attached.paired {log : List Lexer.Step} {m : Mode} {items : List Item} {p : Nat}
    {u : List Char} (htiles : Tiles p (stretchesOf log) u) (h : Attached log m items) :
    Paired log m items where
  first i hi := by
    cases items with
    | nil => cases hi
    | cons j is =>
      cases hi
      cases i with
      | token t => exact ⟨t, rfl⟩
      | context k sub => exact absurd rfl (h.startsWithToken k sub is)
  before front inner sub behind hitems := by
    obtain ⟨before, t, hfront, hopened⟩ := h.in_front hitems
    exact ⟨before, t, hfront, hopened, hopened.opens, hopened.opens.opens?⟩
  pairs := ⟨Item.flatMap_pairs items, h.ownPairs htiles⟩
  nodes := ⟨bodyNodes_eq_pairs m items, fun q hq =>
    h.ownPairs htiles q (Item.pairs_unclosed_subset m items hq)⟩

/-- No node of a transcript stands for a context that no token opens. -/
theorem not_unexpectedContext (text : List Char) (c : Mode) :
    Node.invalid (.unexpectedContext c) none ∉ (transcribe text).subtrees := by
  intro hn
  rcases List.mem_cons.mp hn with hroot | hn
  · cases hroot
  · have hl := Tree.preorder_of_mem_subtreesAll (a := (Node.invalid (.unexpectedContext c) none).label)
      List.mem_cons_self _ hn
    obtain ⟨_, _, _, _, hpos⟩ := flawsAt_transcribeWith true text _ hl rfl
    cases hpos

/-- In every text, the item directly in front of a context is the token that opened it, and the mode of
the context is the one that this token calls for. So going through the items of a context pairs
every context with its own token, and no token with the context of another one: a token opens one
context, and where none stands behind it, what it opened was empty. All contexts but that of the
whole text are not empty and start with a token, and no node is made for an unexpected context. -/
theorem paired_lex (text : List Char) : ∃ log, Lossless .root text log ∧
    (∀ t m inner sub m' inner' sub', OpenedBy log m t inner sub → OpenedBy log m' t inner' sub' →
      m = m' ∧ inner = inner' ∧ sub = sub') ∧
    (∀ p ∈ Item.contexts (.context .root (lex .root text)),
      (p = (.root, lex .root text) ∨ p.2 ≠ []) ∧ Paired log p.1 p.2) ∧
    ∀ c, Node.invalid (.unexpectedContext c) none ∉ (transcribe text).subtrees := by
  obtain ⟨log, hlossless⟩ := exists_lossless isBottom_root text
  obtain ⟨stop, hlog, -⟩ := hlossless.logged
  have htiles := hlossless.tiles
  obtain ⟨hroot, hbelow⟩ := hlog.attached
  refine ⟨log, hlossless, fun _ _ _ _ _ _ _ h h' => h.unique htiles h', fun p hp => ?_,
    not_unexpectedContext text⟩
  rcases List.mem_cons.mp hp with rfl | hp
  · exact ⟨.inl rfl, hroot.paired htiles⟩
  · obtain ⟨hne, hattached⟩ := hbelow p hp
    exact ⟨.inr hne, hattached.paired htiles⟩

end BlockMarkup
