import BlockMarkup.Proofs.Document.Flawless

/-!
# BlockMarkup.Proofs.Document.Factory

Reading through a factory, which makes each node and decides what to keep of its tokens. What stands
only once in a block is counted on the way, and a flaw is where its token is, so no node has to know
its tokens. Reading without tokens is reading through the factory that keeps none of them
(`transcribeWith_eq_document`).
-/

namespace BlockMarkup

open Text

/-- What a node keeps of the tokens it starts with and of those that close it. -/
structure Factory where
  origin : List Token → List Token → Option Origin

namespace Factory

/-- The factory of nodes that keep all their tokens. -/
def keeping : Factory := ⟨fun opening closing => some ⟨opening, closing⟩⟩

/-- The factory of nodes that keep none of their tokens. -/
def adHoc : Factory := ⟨fun _ _ => none⟩

/-- What a factory leaves of a label that has kept all its tokens. -/
def relabel (f : Factory) (l : Label) : Label :=
  { l with origin := l.origin.bind fun o => f.origin o.opening o.closing }

variable (f : Factory)

def node (k : Kind) (head : Option (List Char)) (opening : List Token)
    (closing : List Token := []) (children : List Node := []) : Node :=
  .mk { cls := .of k, head, origin := f.origin opening closing } children

def expression (items : List Item) (opener : Token) : Node :=
  let own := Item.dropTrailing items
  match Item.spellingAll own with
  | .error e => .invalid e.flaw e.pos
  | .ok s =>
    match strip s with
    | [] => .invalid .missingExpression (some opener.pos)
    | text => f.node .expression (some text) (Item.ownTokens own)

def value (items : List Item) (opener : Token) : Node :=
  match items.filter fun i => !i.isBlank with
  | [.token t] =>
    if t.cls = .string then f.node .string (some (unquote t.text)) [t] else f.expression items opener
  | _ => f.expression items opener

def attr (t : Token) (items : List Item) : Node :=
  let value := f.value (valueItems items) t
  let name := nameOf t
  let isString := value.kind = .string
  if name = "key".toList ∧ isString then f.node .key value.head [t]
  else f.node (attributeKind name isString) (some name) [t] [] [value]

def field (t : Token) (items : List Item) : Node :=
  let value := f.value (valueItems items) t
  let name := nameOf t
  f.node (fieldKind name (value.kind = .string)) (some name) [t] [] [value]

def block (k : Kind) (t : Token) (items : List Item) (inner : List Node) : Node :=
  let closing := (Item.closedBy? ['\x7d'] items).toList
  let missing := if closing.isEmpty then [.invalid .missingBrace (some t.pos)] else []
  f.node k (some (blockNameOf t)) [t] closing (inner ++ missing)

def rawExpression (t : Token) (items : List Item) : Node :=
  match Item.closedBy? ['\x7d'] items with
  | none => .invalid .missingBrace (some t.pos)
  | some closing => f.node .rawExpression none [t] [closing] [f.expression items.dropLast t]

def decoration (t : Token) (items : List Item) : Node :=
  match Item.closedBy? [']'] items with
  | none => .invalid .missingBracket (some t.pos)
  | some closing =>
    match Item.spellingAll items with
    | .error e => .invalid e.flaw e.pos
    | .ok s => f.node .decoration (some (t.text ++ s)) [t] [closing]

/-- The node of a token in a body, if it makes one. -/
def node? (m : Mode) (t : Token) (items : List Item) (inner : List Node) : Option Node :=
  match m, t.cls with
  | .element, .name => some (f.attr t items)
  | .component, .name => some (f.field t items)
  | .component, .operator => some (f.node .spread none [t] [] [f.expression items t])
  | _, .separator => none
  | _, .string => some (f.node .text (some (unquote t.text)) [t])
  | _, .tag => some (f.block .element t items inner)
  | _, .path => some (f.block .component t items inner)
  | _, .bracket => some (f.rawExpression t items)
  | _, .decorator => some (f.decoration t items)
  | _, _ => some (.invalid (.unexpected t.text) (some t.pos))

end Factory

namespace Mode

/-- What a block holds only one of, and the flaw that each further one is. -/
def only? : Mode → Option (Kind × Flaw)
  | .element => some (.key, .duplicateKey)
  | .component => some (.spread, .secondSpread)
  | _ => none

/-- Whether a block holds only one such node. -/
def isOnly (m : Mode) (n : Node) : Bool :=
  match m.only? with
  | some (k, _) => n.kind = k
  | none => false

/-- The node of a token, or the flaw that stands for it where one of its kind was seen already. -/
def orFlaw (m : Mode) (seen : Bool) (t : Token) (n : Node) : Node :=
  match m.only? with
  | some (k, flaw) => if seen && n.kind = k then .invalid flaw (some t.pos) else n
  | none => n

end Mode

namespace Factory

variable (f : Factory)

mutual

/-- The nodes inside the context that a token opened. -/
def inner (opener : TokenClass) : Item → List Node
  | .token _ => []
  | .context _ items =>
    match opener with
    | .tag => nodes .element false items
    | .path => nodes .component false items
    | _ => []

/-- The nodes of a body; `seen` tells whether what it holds only one of was there already. -/
def nodes (m : Mode) (seen : Bool) : List Item → List Node
  | [] => []
  | .context c _ :: is => .invalid (.unexpectedContext c) none :: nodes m seen is
  | [.token t] =>
    if closesBlock m t then [] else ((f.node? m t [] []).map (m.orFlaw seen t)).toList
  | .token t :: .token u :: is =>
    let made := f.node? m t [] []
    (made.map (m.orFlaw seen t)).toList ++ nodes m (seen || made.any m.isOnly) (.token u :: is)
  | .token t :: .context c items :: is =>
    let made := f.node? m t items (inner t.cls (.context c items))
    (made.map (m.orFlaw seen t)).toList ++ nodes m (seen || made.any m.isOnly) is

end

/-- The document of a text, made through a factory. -/
def document (text : List Char) : Node := .bare .document (f.nodes .root false (lex .root text))

end Factory

/-! ## Nodes through a factory -/

mutual

theorem Tree.map_id {α : Type} : (t : Tree α) → t.map (fun a => a) = t
  | .mk a ts => by rw [Tree.map, Tree.mapAll_id ts]

theorem Tree.mapAll_id {α : Type} : (ts : List (Tree α)) → Tree.mapAll (fun a => a) ts = ts
  | [] => rfl
  | t :: ts => by rw [Tree.mapAll, Tree.map_id t, Tree.mapAll_id ts]

end

namespace Factory

variable (f : Factory)

/-- What a factory leaves of a node that has kept all its tokens. -/
def remake (n : Node) : Node := n.map f.relabel

theorem remake_mk (l : Label) (cs : List Node) :
    f.remake (.mk l cs) = .mk (f.relabel l) (cs.map f.remake) := by
  rw [remake, Tree.map, Tree.mapAll_eq_map]
  rfl

theorem kind_remake (n : Node) : (f.remake n).kind = n.kind := by
  cases n
  rfl

theorem head_remake (n : Node) : (f.remake n).head = n.head := by
  cases n
  rfl

theorem remake_invalid (flaw : Flaw) (pos : Option Nat) :
    f.remake (.invalid flaw pos) = .invalid flaw pos := by
  cases pos <;> rfl

section

variable (t : Token) (items : List Item)

theorem expression_eq : f.expression items t = f.remake (expressionNode items t) := by
  rw [expression, expressionNode]
  cases Item.spellingAll (Item.dropTrailing items) with
  | error e => exact (f.remake_invalid _ _).symm
  | ok s =>
    simp only
    cases strip s <;> rfl

theorem value_eq : f.value items t = f.remake (valueNode items t) := by
  rw [value, valueNode]
  generalize items.filter (fun i => !i.isBlank) = own
  rcases own with - | ⟨i, - | ⟨j, is⟩⟩
  · exact f.expression_eq t items
  · cases i with
    | token u =>
      show (if u.cls = .string then _ else _) = f.remake (if u.cls = .string then _ else _)
      split
      · rfl
      · exact f.expression_eq t items
    | context m is => exact f.expression_eq t items
  · cases i <;> exact f.expression_eq t items

theorem attr_eq : f.attr t items = f.remake (attributeNode t items) := by
  rw [attr, attributeNode, value_eq]
  simp only [kind_remake, head_remake]
  by_cases hkey : nameOf t = "key".toList ∧ (valueNode (valueItems items) t).kind = .string
  · rw [if_pos hkey, if_pos hkey]
    rfl
  · rw [if_neg hkey, if_neg hkey]
    rfl

theorem field_eq : f.field t items = f.remake (fieldNode t items) := by
  rw [field, fieldNode, value_eq]
  simp only [kind_remake]
  rfl

theorem spread_eq : f.node .spread none [t] [] [f.expression items t] =
    f.remake (spreadNode t items) := by
  rw [expression_eq]
  rfl

theorem block_eq (k : Kind) (inner : List Node) :
    f.block k t items (inner.map f.remake) = f.remake (blockNode k t items inner) := by
  rw [block, blockNode]
  cases Item.closedBy? ['\x7d'] items with
  | none =>
    simp only [remake_mk, List.map_append]
    rfl
  | some closing =>
    simp only [remake_mk, List.map_append]
    rfl

theorem rawExpression_eq : f.rawExpression t items = f.remake (rawExpressionNode t items) := by
  rw [rawExpression, rawExpressionNode, expression_eq]
  cases Item.closedBy? ['\x7d'] items <;> rfl

theorem decoration_eq : f.decoration t items = f.remake (decorationNode t items) := by
  rw [decoration, decorationNode]
  cases Item.closedBy? [']'] items with
  | none => rfl
  | some closing =>
    cases Item.spellingAll items with
    | error e => exact (f.remake_invalid _ _).symm
    | ok s => rfl

theorem node?_eq (m : Mode) (inner : List Node) :
    f.node? m t items (inner.map f.remake) = (nodeOf? m t items inner).map f.remake := by
  obtain ⟨pos, text, cls⟩ := t
  cases m <;> cases cls <;> simp only [node?, nodeOf?, Option.map_some, Option.map_none, attr_eq,
    field_eq, spread_eq, block_eq, rawExpression_eq, decoration_eq, remake_invalid] <;> rfl

end

end Factory

/-! ## What stands only once -/

/-- A node that is no flaw starts with its token. -/
theorem ownStart?_of_nodeOf? {m : Mode} {t : Token} {items : List Item} {inner : List Node} {n : Node}
    (h : nodeOf? m t items inner = some n) (hn : n.kind ≠ .invalid) :
    n.label.ownStart? = some t.pos := by
  unfold nodeOf? at h
  split at h <;> cases h
  · unfold attributeNode
    simp only
    split <;> rfl
  · rfl
  · rfl
  · rfl
  · rfl
  · rfl
  · unfold rawExpressionNode at hn ⊢
    split
    · rename_i hnone
      rw [hnone] at hn
      exact absurd rfl hn
    · rfl
  · unfold decorationNode at hn ⊢
    split
    · rename_i hnone
      rw [hnone] at hn
      exact absurd rfl hn
    · rename_i closing hclosing
      rw [hclosing] at hn
      simp only at hn
      split
      · rename_i e he
        rw [he] at hn
        exact absurd rfl hn
      · rfl
  · exact absurd rfl hn

namespace Mode

/-- The nodes of a body where each further one of those it holds only one of is a flaw. -/
def held (m : Mode) (seen : Bool) (ns : List Node) : List Node :=
  match m.only? with
  | none => ns
  | some (k, flaw) =>
    if seen then ns.map fun (n : Node) => if n.kind = k then .invalid flaw n.label.ownStart? else n
    else onlyFirst k flaw ns

variable {m : Mode} {seen : Bool}

theorem held_nil : m.held seen [] = [] := by
  cases m <;> cases seen <;> rfl

theorem held_root (ns : List Node) : Mode.root.held seen ns = ns := rfl

theorem only?_ne_invalid {k : Kind} {flaw : Flaw} (h : m.only? = some (k, flaw)) : k ≠ .invalid := by
  cases m <;> cases h <;> decide

/-- The node of a token, in front of the other nodes. -/
theorem held_cons {t : Token} {n : Node} {ns : List Node}
    (h : n.kind ≠ .invalid → n.label.ownStart? = some t.pos) :
    m.held seen (n :: ns) = m.orFlaw seen t n :: m.held (seen || m.isOnly n) ns := by
  unfold held orFlaw isOnly
  cases hk : m.only? with
  | none => rfl
  | some p =>
    obtain ⟨k, flaw⟩ := p
    by_cases hn : n.kind = k
    · have hstart : n.label.ownStart? = some t.pos := h (hn ▸ only?_ne_invalid hk)
      cases seen <;> simp [hn, hstart, onlyFirst]
    · cases seen <;> simp [hn, onlyFirst]

/-- A node that a block may hold many of. -/
theorem held_cons_invalid {flaw : Flaw} {pos : Option Nat} {ns : List Node} :
    m.held seen (.invalid flaw pos :: ns) = .invalid flaw pos :: m.held seen ns := by
  cases m <;> cases seen <;> rfl

theorem held_append {t : Token} {items : List Item} {inner ns : List Node} :
    m.held seen ((nodeOf? m t items inner).toList ++ ns) =
      ((nodeOf? m t items inner).map (m.orFlaw seen t)).toList ++
        m.held (seen || (nodeOf? m t items inner).any m.isOnly) ns := by
  cases hnode : nodeOf? m t items inner with
  | none => rw [Option.any_none, Bool.or_false]; rfl
  | some n => exact held_cons (ownStart?_of_nodeOf? hnode)

end Mode

namespace Factory

variable (f : Factory)

theorem isOnly_remake (m : Mode) (n : Node) : m.isOnly (f.remake n) = m.isOnly n := by
  rw [Mode.isOnly, Mode.isOnly, kind_remake]

theorem orFlaw_remake (m : Mode) (seen : Bool) (t : Token) (n : Node) :
    m.orFlaw seen t (f.remake n) = f.remake (m.orFlaw seen t n) := by
  unfold Mode.orFlaw
  rw [kind_remake]
  split
  · split
    · exact (f.remake_invalid _ _).symm
    · rfl
  · rfl

theorem made_eq (m : Mode) (seen : Bool) (t : Token) (o : Option Node) :
    ((o.map f.remake).map (m.orFlaw seen t)).toList =
        ((o.map (m.orFlaw seen t)).toList).map f.remake ∧
      (o.map f.remake).any m.isOnly = o.any m.isOnly := by
  cases o with
  | none => exact ⟨rfl, rfl⟩
  | some n => exact ⟨congrArg (fun x => [x]) (f.orFlaw_remake m seen t n), f.isOnly_remake m n⟩

mutual

theorem inner_eq (o : TokenClass) : (i : Item) → f.inner o i = (innerNodes o i).map f.remake
  | .token _ => by rw [inner, innerNodes, List.map_nil]
  | .context _ items => by
    cases o with
    | tag => rw [inner, innerNodes, nodes_eq .element false items]; rfl
    | path => rw [inner, innerNodes, nodes_eq .component false items]; rfl
    | _ => rw [inner, innerNodes, List.map_nil] <;> exact nofun

/-- What is made through a factory is what it leaves of the nodes that keep all their tokens. -/
theorem nodes_eq (m : Mode) (seen : Bool) : (items : List Item) →
    f.nodes m seen items = (m.held seen (bodyNodes m items)).map f.remake
  | [] => by rw [nodes, bodyNodes, Mode.held_nil, List.map_nil]
  | .context c items :: is => by
    rw [nodes, bodyNodes, Mode.held_cons_invalid, List.map_cons, remake_invalid,
      nodes_eq m seen is]
  | [.token t] => by
    have hnode := f.node?_eq t [] m []
    rw [List.map_nil] at hnode
    rw [nodes, bodyNodes]
    split
    · rw [Mode.held_nil, List.map_nil]
    · have happend := @Mode.held_append m seen t [] [] []
      rw [Mode.held_nil, List.append_nil, List.append_nil] at happend
      rw [happend, hnode, (f.made_eq m seen t _).1]
  | .token t :: .token u :: is => by
    have hnode := f.node?_eq t [] m []
    rw [List.map_nil] at hnode
    obtain ⟨hmade, hany⟩ := f.made_eq m seen t (nodeOf? m t [] [])
    simp only [nodes, bodyNodes]
    rw [hnode, hmade, hany, nodes_eq m _ (.token u :: is), Mode.held_append, List.map_append]
  | .token t :: .context c items :: is => by
    have hnode := f.node?_eq t items m (innerNodes t.cls (.context c items))
    rw [← inner_eq t.cls (.context c items)] at hnode
    obtain ⟨hmade, hany⟩ :=
      f.made_eq m seen t (nodeOf? m t items (innerNodes t.cls (.context c items)))
    simp only [nodes, bodyNodes]
    rw [hnode, hmade, hany, nodes_eq m _ is, Mode.held_append, List.map_append]

end

/-- The document of a text through a factory. -/
theorem document_eq (text : List Char) : f.document text = f.remake (transcribe text) := by
  rw [document, nodes_eq, Mode.held_root, transcribe, Node.bare, Node.bare, remake_mk]
  rfl

theorem relabel_keeping (l : Label) : keeping.relabel l = l := by
  obtain ⟨cls, head, origin, position⟩ := l
  cases origin <;> rfl

theorem relabel_adHoc (l : Label) : adHoc.relabel l = Node.withoutOrigin l := by
  obtain ⟨cls, head, origin, position⟩ := l
  cases origin <;> rfl

theorem remake_keeping (n : Node) : keeping.remake n = n := by
  rw [remake, funext relabel_keeping]
  exact n.map_id

theorem remake_adHoc (n : Node) : adHoc.remake n = n.forgetOrigin := by
  rw [remake, funext relabel_adHoc]
  rfl

/-- The factory that keeps tokens or does not. -/
def of (origin : Bool) : Factory := if origin then keeping else adHoc

end Factory

/-- Reading with and without tokens is reading through one factory or the other. -/
theorem transcribeWith_eq_document (origin : Bool) (text : List Char) :
    transcribeWith origin text = (Factory.of origin).document text := by
  cases origin with
  | true => exact ((Factory.document_eq _ _).trans (Factory.remake_keeping _)).symm
  | false => exact ((Factory.document_eq _ _).trans (Factory.remake_adHoc _)).symm

end BlockMarkup
