import BlockMarkup.Proofs.Document.Hosted
import BlockMarkup.Proofs.Expression.Moved

/-!
# BlockMarkup.Proofs.Document.Relocated

The same text further on. Lexing finds the same items there, each token as many characters further on
(`Scans.moved`), and they make the same nodes, which tell these places (`bodyNodes_moved`). Apart from
where they were read, flawless nodes are the same (`Node.forgetOrigin_moved`).
-/

namespace BlockMarkup

open Text

/-! ## Items -/

namespace Item

mutual

/-- The item, with its tokens `p` characters further on. -/
def moved (p : Nat) : Item → Item
  | .token t => .token (t.moved p)
  | .context m items => .context m (movedAll p items)

def movedAll (p : Nat) : List Item → List Item
  | [] => []
  | i :: is => moved p i :: movedAll p is

end

theorem movedAll_eq_map (p : Nat) (items : List Item) : movedAll p items = items.map (moved p) := by
  induction items with
  | nil => rfl
  | cons i is ih => rw [movedAll, ih, List.map_cons]

theorem movedAll_append (p : Nat) (is js : List Item) :
    movedAll p (is ++ js) = movedAll p is ++ movedAll p js := by
  rw [movedAll_eq_map, movedAll_eq_map, movedAll_eq_map, List.map_append]

theorem movedAll_nested (p : Nat) (m : Mode) (sub : List Item) :
    movedAll p (nested m sub) = nested m (movedAll p sub) := by
  cases sub <;> rfl

end Item

theorem StartsWithToken.moved {items : List Item} (h : StartsWithToken items) (p : Nat) :
    StartsWithToken (Item.movedAll p items) := by
  intro k sub rest he
  cases items with
  | nil => cases he
  | cons i is =>
    cases i with
    | token t => cases he
    | context m js => exact h m js is rfl

/-- The same place in a text that has `p` more characters in front. -/
def Cursor.moved (p : Nat) (c : Cursor) : Cursor := { c with pos := c.pos + p }

theorem Cursor.take_moved (p : Nat) (c : Cursor) (n : Nat) (cls : TokenClass) :
    (c.moved p).take n cls = Item.movedAll p (c.take n cls) := by
  unfold take moved
  cases c.rest.take n <;> rfl

theorem Mode.Hit.items_moved (p : Nat) (h : Mode.Hit) (c : Cursor) :
    h.items (c.moved p) = Item.movedAll p (h.items c) := by
  have hadvance : (c.moved p).advance h.skipped = (c.advance h.skipped).moved p := by
    rw [Cursor.advance, Cursor.moved, Nat.add_right_comm]
    rfl
  rw [items, items, Item.movedAll_append, Cursor.take_moved, hadvance]
  cases h.rule.effect with
  | skip => rfl
  | emit cls => rw [Cursor.emit, Cursor.emit, Cursor.take_moved]

theorem Mode.Hit.after_moved (p : Nat) (h : Mode.Hit) (c : Cursor) :
    h.after (c.moved p) = (h.after c).moved p := by
  simp only [after, Cursor.advance, Cursor.moved, Nat.add_right_comm _ p]

/-- Lexing finds the same further on. -/
theorem Scans.moved (p : Nat) {m : Mode} {c stop : Cursor} {items : List Item}
    (h : Scans m c items stop) : Scans m (c.moved p) (Item.movedAll p items) (stop.moved p) := by
  induction h with
  | @stop m c hs =>
    rw [← Cursor.take_moved]
    have hstop := Scans.stop (c := c.moved p) hs
    rwa [Cursor.advance, Cursor.moved, Nat.add_right_comm] at hstop
  | @stay m c stop h items hs hmove _ ih =>
    rw [← Mode.Hit.after_moved] at ih
    rw [Item.movedAll_append, ← Mode.Hit.items_moved]
    exact .stay hs hmove ih
  | @pop m c h hs hmove =>
    rw [← Mode.Hit.items_moved, ← Mode.Hit.after_moved]
    exact .pop hs hmove
  | @push m inner c back stop h sub items hs hmove _ _ ihsub ih =>
    rw [← Mode.Hit.after_moved] at ihsub
    rw [Item.movedAll_append, Item.movedAll_append, Item.movedAll_nested, ← Mode.Hit.items_moved]
    exact .push hs hmove ihsub ih

/-! ## What nodes are made from -/

namespace Item

variable (p : Nat)

theorem closedBy?_moved (c : List Char) (items : List Item) :
    closedBy? c (movedAll p items) = (closedBy? c items).map (Token.moved p) := by
  rw [movedAll_eq_map, closedBy?, closedBy?, List.getLast?_map]
  cases items.getLast? with
  | none => rfl
  | some i =>
    cases i with
    | token t =>
      show (if t.text = c then _ else _) = Option.map _ (if t.text = c then _ else _)
      split <;> rfl
    | context m is => rfl

theorem isClosed_moved (items : List Item) : isClosed (movedAll p items) = isClosed items := by
  simp only [isClosed, closedBy?_moved, Option.isSome_map]

theorem start?_moved (items : List Item) : start? (movedAll p items) = (start? items).map (· + p) := by
  cases items with
  | nil => rfl
  | cons i is => cases i <;> rfl

theorem isBlank_moved (i : Item) : (i.moved p).isBlank = i.isBlank := by
  cases i <;> rfl

theorem isTrailing_moved (i : Item) : (i.moved p).isTrailing = i.isTrailing := by
  cases i <;> rfl

theorem token?_moved (i : Item) : (i.moved p).token? = i.token?.map (Token.moved p) := by
  cases i <;> rfl

theorem dropLast_moved (items : List Item) :
    (movedAll p items).dropLast = movedAll p items.dropLast := by
  rw [movedAll_eq_map, movedAll_eq_map, List.map_dropLast]

theorem valueItems_moved (items : List Item) :
    valueItems (movedAll p items) = movedAll p (valueItems items) := by
  rw [valueItems, valueItems, closedBy?_moved]
  cases closedBy? [','] items with
  | none => rfl
  | some t => exact dropLast_moved p items

theorem filter_isBlank_moved (items : List Item) :
    (movedAll p items).filter (fun i => !i.isBlank) =
      movedAll p (items.filter fun i => !i.isBlank) := by
  rw [movedAll_eq_map, movedAll_eq_map, List.filter_map]
  simp only [Function.comp_def, isBlank_moved]

theorem dropTrailing_moved (items : List Item) :
    dropTrailing (movedAll p items) = movedAll p (dropTrailing items) := by
  have hdrop : isTrailing ∘ moved p = isTrailing := funext (isTrailing_moved p)
  rw [dropTrailing, dropTrailing, movedAll_eq_map, movedAll_eq_map, ← List.map_reverse,
    List.dropWhile_map, hdrop, List.map_reverse]

theorem ownTokens_moved (items : List Item) :
    ownTokens (movedAll p items) = (ownTokens items).map (Token.moved p) := by
  rw [ownTokens, ownTokens, filter_isBlank_moved, movedAll_eq_map, List.filterMap_map,
    List.map_filterMap]
  exact congrArg (List.filterMap · _) (funext (token?_moved p))

end Item

/-- The flaw, `p` characters further on. -/
def Trouble.moved (p : Nat) (e : Trouble) : Trouble := { e with pos := e.pos.map (· + p) }

namespace Item

variable (p : Nat)

mutual

theorem spelling_moved : (i : Item) →
    spelling (i.moved p) = (spelling i).mapError (Trouble.moved p)
  | .token t => by
    show (if t.cls = .stray then _ else _) = Except.mapError _ (if t.cls = .stray then _ else _)
    split <;> rfl
  | .context m items => by
    rw [moved, spelling, spelling, spellingAll_moved items, isClosed_moved, start?_moved]
    cases spellingAll items with
    | error e => rfl
    | ok s =>
      show (if isClosed items = true then _ else _) =
        Except.mapError _ (if isClosed items = true then _ else _)
      split <;> rfl

theorem spellingAll_moved : (items : List Item) →
    spellingAll (movedAll p items) = (spellingAll items).mapError (Trouble.moved p)
  | [] => rfl
  | i :: is => by
    rw [movedAll, spellingAll, spellingAll, spelling_moved i, spellingAll_moved is]
    cases spelling i with
    | error e => rfl
    | ok s => cases spellingAll is <;> rfl

end

end Item

/-! ## Nodes -/

/-- The tokens of an origin, `p` characters further on. -/
def Origin.moved (p : Nat) (o : Origin) : Origin where
  opening := o.opening.map (Token.moved p)
  closing := o.closing.map (Token.moved p)

/-- A label of a node that was read `p` characters further on. -/
def Label.moved (p : Nat) (l : Label) : Label :=
  { l with origin := l.origin.map (Origin.moved p), position := l.position.map (· + (p : Int)) }

theorem Label.ownStart?_moved (p : Nat) (l : Label) :
    (l.moved p).ownStart? = l.ownStart?.map (· + p) := by
  obtain ⟨cls, head, origin, position⟩ := l
  rcases origin with - | ⟨opening, closing⟩
  · rfl
  · cases opening <;> rfl

namespace Node

/-- The node that is read `p` characters further on. -/
def moved (p : Nat) (n : Node) : Node := n.map (Label.moved p)

variable (p : Nat)

theorem moved_mk (l : Label) (cs : List Node) :
    moved p (.mk l cs) = .mk (l.moved p) (cs.map (moved p)) := by
  rw [moved, Tree.map, Tree.mapAll_eq_map]
  rfl

theorem kind_moved (n : Node) : (n.moved p).kind = n.kind := by
  cases n
  rfl

theorem head_moved (n : Node) : (n.moved p).head = n.head := by
  cases n
  rfl

theorem ownStart?_moved (n : Node) :
    (n.moved p).label.ownStart? = n.label.ownStart?.map (· + p) := by
  cases n
  exact Label.ownStart?_moved p _

theorem moved_invalid (f : Flaw) (pos : Option Nat) :
    moved p (.invalid f pos) = .invalid f (pos.map (· + p)) := by
  cases pos <;> rfl

end Node

section

variable (p : Nat) (t : Token) (items : List Item)

theorem expressionNode_moved :
    expressionNode (Item.movedAll p items) (t.moved p) = (expressionNode items t).moved p := by
  rw [expressionNode, expressionNode, Item.dropTrailing_moved, Item.spellingAll_moved,
    Item.ownTokens_moved]
  cases Item.spellingAll (Item.dropTrailing items) with
  | error e => exact (Node.moved_invalid p _ _).symm
  | ok s =>
    simp only [Except.mapError]
    cases strip s <;> rfl

theorem valueNode_moved :
    valueNode (Item.movedAll p items) (t.moved p) = (valueNode items t).moved p := by
  rw [valueNode, valueNode, Item.filter_isBlank_moved]
  generalize items.filter (fun i => !i.isBlank) = own
  rcases own with - | ⟨i, - | ⟨j, is⟩⟩
  · exact expressionNode_moved p t items
  · cases i with
    | token u =>
      show (if u.cls = .string then _ else _) = Node.moved p (if u.cls = .string then _ else _)
      split
      · rfl
      · exact expressionNode_moved p t items
    | context m is => exact expressionNode_moved p t items
  · cases i <;> exact expressionNode_moved p t items

theorem attributeNode_moved :
    attributeNode (t.moved p) (Item.movedAll p items) = (attributeNode t items).moved p := by
  rw [attributeNode, attributeNode, Item.valueItems_moved, valueNode_moved]
  simp only [Node.kind_moved, Node.head_moved]
  by_cases hkey : nameOf t = "key".toList ∧ (valueNode (valueItems items) t).kind = .string
  · rw [if_pos hkey]
    exact if_pos hkey
  · rw [if_neg hkey]
    exact if_neg hkey

theorem fieldNode_moved :
    fieldNode (t.moved p) (Item.movedAll p items) = (fieldNode t items).moved p := by
  rw [fieldNode, fieldNode, Item.valueItems_moved, valueNode_moved]
  simp only [Node.kind_moved]
  rfl

theorem spreadNode_moved :
    spreadNode (t.moved p) (Item.movedAll p items) = (spreadNode t items).moved p := by
  rw [spreadNode, spreadNode, expressionNode_moved]
  rfl

theorem blockNode_moved (k : Kind) (inner : List Node) :
    blockNode k (t.moved p) (Item.movedAll p items) (inner.map (Node.moved p)) =
      (blockNode k t items inner).moved p := by
  rw [blockNode, blockNode, Item.closedBy?_moved]
  cases Item.closedBy? ['\x7d'] items with
  | none =>
    simp only [Node.moved_mk, List.map_append]
    rfl
  | some closing =>
    simp only [Node.moved_mk, List.map_append]
    rfl

theorem rawExpressionNode_moved :
    rawExpressionNode (t.moved p) (Item.movedAll p items) = (rawExpressionNode t items).moved p := by
  rw [rawExpressionNode, rawExpressionNode, Item.closedBy?_moved, Item.dropLast_moved,
    expressionNode_moved]
  cases Item.closedBy? ['\x7d'] items <;> rfl

theorem decorationNode_moved :
    decorationNode (t.moved p) (Item.movedAll p items) = (decorationNode t items).moved p := by
  rw [decorationNode, decorationNode, Item.closedBy?_moved, Item.spellingAll_moved]
  cases Item.closedBy? [']'] items with
  | none => rfl
  | some closing =>
    cases Item.spellingAll items with
    | error e => exact (Node.moved_invalid p _ _).symm
    | ok s => rfl

theorem nodeOf?_moved (m : Mode) (inner : List Node) :
    nodeOf? m (t.moved p) (Item.movedAll p items) (inner.map (Node.moved p)) =
      (nodeOf? m t items inner).map (Node.moved p) := by
  have hcls : (t.moved p).cls = t.cls := rfl
  unfold nodeOf?
  rw [hcls]
  generalize t.cls = cls
  split <;> simp only [attributeNode_moved, fieldNode_moved, spreadNode_moved, blockNode_moved,
    rawExpressionNode_moved, decorationNode_moved, Option.map_some, Option.map_none]
  · rfl
  · rfl

end

theorem onlyFirst_moved (p : Nat) (k : Kind) (f : Flaw) (ns : List Node) :
    onlyFirst k f (ns.map (Node.moved p)) = (onlyFirst k f ns).map (Node.moved p) := by
  induction ns with
  | nil => rfl
  | cons n ns ih =>
    rw [List.map_cons, onlyFirst, onlyFirst, Node.kind_moved]
    split
    · rw [List.map_cons, List.map_map, List.map_map]
      refine congrArg _ (List.map_congr_left fun m _ => ?_)
      simp only [Function.comp_apply, Node.kind_moved, Node.ownStart?_moved]
      split
      · exact (Node.moved_invalid p _ _).symm
      · rfl
    · rw [ih, List.map_cons]

mutual

theorem innerNodes_moved (p : Nat) (o : TokenClass) : (i : Item) →
    innerNodes o (i.moved p) = (innerNodes o i).map (Node.moved p)
  | .token t => by rw [Item.moved, innerNodes, innerNodes, List.map_nil]
  | .context c items => by
    rw [Item.moved]
    cases o with
    | tag => rw [innerNodes, innerNodes, bodyNodes_moved p .element items, onlyFirst_moved]
    | path => rw [innerNodes, innerNodes, bodyNodes_moved p .component items, onlyFirst_moved]
    | _ => rw [innerNodes, innerNodes, List.map_nil] <;> exact nofun

theorem bodyNodes_moved (p : Nat) (m : Mode) : (items : List Item) →
    bodyNodes m (Item.movedAll p items) = (bodyNodes m items).map (Node.moved p)
  | [] => rfl
  | .context c items :: is => by
    simp only [Item.movedAll, Item.moved, bodyNodes, List.map_cons, bodyNodes_moved p m is]
    rfl
  | [.token t] => by
    have hclose : closesBlock m (t.moved p) = closesBlock m t := rfl
    have hnode := nodeOf?_moved p t [] m []
    rw [List.map_nil, Item.movedAll] at hnode
    rw [Item.movedAll, Item.moved, Item.movedAll, bodyNodes, bodyNodes, hclose, hnode]
    split
    · rfl
    · exact Option.toList_map
  | .token t :: .token u :: is => by
    have hnode := nodeOf?_moved p t [] m []
    rw [List.map_nil, Item.movedAll] at hnode
    have hrest := bodyNodes_moved p m (.token u :: is)
    simp only [Item.movedAll, Item.moved, bodyNodes] at hrest ⊢
    rw [hnode, hrest, Option.toList_map, List.map_append]
  | .token t :: .context c items :: is => by
    have hnode := nodeOf?_moved p t items m (innerNodes t.cls (.context c items))
    rw [← innerNodes_moved p t.cls (.context c items)] at hnode
    have hcls : (t.moved p).cls = t.cls := rfl
    rw [Item.moved] at hnode
    simp only [Item.movedAll, Item.moved, bodyNodes, bodyNodes_moved p m is]
    rw [hcls, hnode, Option.toList_map, List.map_append]

end

/-! ## Where flaws are -/

/-- Apart from the tokens they were read from, only flaws in the node say where they are. -/
def Node.PinsOnlyFlaws (n : Node) : Prop :=
  ∀ l ∈ n.preorder, l.isA .invalid = false → l.position = none

namespace Node.PinsOnlyFlaws

theorem mk {l : Label} {cs : List Node} (hl : l.position = none)
    (hcs : ∀ c : Node, c ∈ cs → c.PinsOnlyFlaws) : PinsOnlyFlaws (.mk l cs) := by
  intro k hk
  rcases List.mem_cons.mp hk with rfl | hk
  · exact fun _ => hl
  · obtain ⟨c, hc, hk⟩ := Tree.mem_preorderAll.mp hk
    exact hcs c hc k hk

theorem leaf {l : Label} (hl : l.position = none) : PinsOnlyFlaws (.mk l []) :=
  mk hl (List.forall_mem_nil _)

theorem invalid (f : Flaw) (pos : Option Nat) : PinsOnlyFlaws (.invalid f pos) := by
  intro k hk hvalid
  cases List.mem_singleton.mp hk
  cases hvalid

theorem expressionNode (items : List Item) (t : Token) :
    PinsOnlyFlaws (expressionNode items t) := by
  unfold BlockMarkup.expressionNode
  simp only
  split
  · exact invalid _ _
  · split
    · exact invalid _ _
    · exact leaf rfl

theorem valueNode (items : List Item) (t : Token) : PinsOnlyFlaws (valueNode items t) := by
  rcases valueNode_eq items t with ⟨u, -, -, he⟩ | ⟨-, he⟩ <;> rw [he]
  · exact leaf rfl
  · exact expressionNode items t

theorem attributeNode (t : Token) (items : List Item) : PinsOnlyFlaws (attributeNode t items) := by
  unfold BlockMarkup.attributeNode
  simp only
  split
  · exact leaf rfl
  · exact mk rfl (List.forall_mem_singleton.mpr (valueNode _ t))

theorem blockNode (k : Kind) (t : Token) (items : List Item) {inner : List Node}
    (h : ∀ n : Node, n ∈ inner → n.PinsOnlyFlaws) : PinsOnlyFlaws (blockNode k t items inner) := by
  refine mk rfl (List.forall_mem_append.mpr ⟨h, ?_⟩)
  split
  · exact List.forall_mem_singleton.mpr (invalid _ _)
  · exact List.forall_mem_nil _

theorem rawExpressionNode (t : Token) (items : List Item) :
    PinsOnlyFlaws (rawExpressionNode t items) := by
  unfold BlockMarkup.rawExpressionNode
  split
  · exact invalid _ _
  · exact mk rfl (List.forall_mem_singleton.mpr (expressionNode _ t))

theorem decorationNode (t : Token) (items : List Item) : PinsOnlyFlaws (decorationNode t items) := by
  unfold BlockMarkup.decorationNode
  split
  · exact invalid _ _
  · split
    · exact invalid _ _
    · exact leaf rfl

theorem nodeOf? (m : Mode) (t : Token) (items : List Item) {inner : List Node}
    (h : ∀ n : Node, n ∈ inner → n.PinsOnlyFlaws) :
    ∀ n : Node, n ∈ (nodeOf? m t items inner).toList → n.PinsOnlyFlaws := by
  intro n hn
  replace hn := Option.mem_toList.mp hn
  unfold BlockMarkup.nodeOf? at hn
  split at hn <;> cases hn
  · exact attributeNode t items
  · exact mk rfl (List.forall_mem_singleton.mpr (valueNode _ t))
  · exact mk rfl (List.forall_mem_singleton.mpr (expressionNode items t))
  · exact leaf rfl
  · exact blockNode .element t items h
  · exact blockNode .component t items h
  · exact rawExpressionNode t items
  · exact decorationNode t items
  · exact invalid _ _

theorem onlyFirst {k : Kind} {f : Flaw} {ns : List Node} (h : ∀ n : Node, n ∈ ns → n.PinsOnlyFlaws) :
    ∀ n : Node, n ∈ onlyFirst k f ns → n.PinsOnlyFlaws := by
  intro n hn
  rcases mem_of_mem_onlyFirst hn with hn | ⟨m, -, -, rfl⟩
  · exact h n hn
  · exact invalid f _

mutual

theorem innerNodes (o : TokenClass) : (i : Item) →
    ∀ n : Node, n ∈ innerNodes o i → n.PinsOnlyFlaws
  | .token _ => by rw [BlockMarkup.innerNodes]; exact List.forall_mem_nil _
  | .context _ items => by
    cases o with
    | tag => rw [BlockMarkup.innerNodes]; exact onlyFirst (bodyNodes .element items)
    | path => rw [BlockMarkup.innerNodes]; exact onlyFirst (bodyNodes .component items)
    | _ => rw [BlockMarkup.innerNodes] <;> first | exact List.forall_mem_nil _ | exact nofun

/-- Of the nodes of a body, only flaws have a position. -/
theorem bodyNodes (m : Mode) : (items : List Item) →
    ∀ n : Node, n ∈ bodyNodes m items → n.PinsOnlyFlaws
  | [] => by rw [BlockMarkup.bodyNodes]; exact List.forall_mem_nil _
  | .context _ _ :: is => by
    rw [BlockMarkup.bodyNodes]
    exact List.forall_mem_cons.mpr ⟨invalid _ _, bodyNodes m is⟩
  | [.token t] => by
    rw [BlockMarkup.bodyNodes]
    split
    · exact List.forall_mem_nil _
    · exact nodeOf? m t [] (List.forall_mem_nil _)
  | .token t :: .token u :: is => by
    rw [BlockMarkup.bodyNodes]
    exact List.forall_mem_append.mpr
      ⟨nodeOf? m t [] (List.forall_mem_nil _), bodyNodes m (.token u :: is)⟩
  | .token t :: .context c items :: is => by
    rw [BlockMarkup.bodyNodes]
    exact List.forall_mem_append.mpr
      ⟨nodeOf? m t items (innerNodes t.cls (.context c items)), bodyNodes m is⟩

end

end Node.PinsOnlyFlaws

/-- The root nodes of a text that is read without a flaw do not say where they are. -/
theorem position_of_flawless {m : Mode} {items : List Item} (h : Flawless (bodyNodes m items)) :
    ∀ l ∈ Tree.preorderAll (bodyNodes m items), l.position = none := by
  intro l hl
  obtain ⟨n, hn, hl'⟩ := Tree.mem_preorderAll.mp hl
  exact Node.PinsOnlyFlaws.bodyNodes m items n hn l hl' (h l hl)

namespace Node

mutual

/-- Without their origins, nodes are the same further on, where they do not say where they are. -/
theorem forgetOrigin_moved (p : Nat) : (n : Node) → (∀ l ∈ n.preorder, l.position = none) →
    (n.moved p).forgetOrigin = n.forgetOrigin
  | .mk l cs, h => by
    obtain ⟨hl, hcs⟩ := List.forall_mem_cons.mp h
    have hlabel : withoutOrigin (l.moved p) = withoutOrigin l := by
      rw [withoutOrigin, withoutOrigin, Label.moved, hl]
      rfl
    rw [moved_mk, forgetOrigin_mk, forgetOrigin_mk, hlabel, map_forgetOrigin_moved p cs hcs]

theorem map_forgetOrigin_moved (p : Nat) : (ns : List Node) →
    (∀ l ∈ Tree.preorderAll ns, l.position = none) →
    (ns.map (moved p)).map forgetOrigin = ns.map forgetOrigin
  | [], _ => rfl
  | n :: ns, h => by
    obtain ⟨hn, hns⟩ := List.forall_mem_append.mp h
    rw [List.map_cons, List.map_cons, List.map_cons, forgetOrigin_moved p n hn,
      map_forgetOrigin_moved p ns hns]

end

end Node

end BlockMarkup
