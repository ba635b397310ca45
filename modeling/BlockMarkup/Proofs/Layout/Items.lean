import BlockMarkup.Proofs.Layout.Grammar
import Mathlib.Data.List.Forall2
import Mathlib.Data.List.Perm.Basic

/-!
# BlockMarkup.Proofs.Layout.Items

What a formatting run writes, item by item. The nodes that a run reaches are those of `Node.reached`,
where the children of a block stand in groups. `Piece.walk` goes through such a tree: each node has an
item, and a block has a closing line behind the items of the nodes below it. The texts that a run hands
on are exactly those of these pieces, in this order (`chunks_nodes`).
-/

namespace BlockMarkup

open Text

/-- The kinds of children that the blocks of a class have, in the order that they are written in. -/
def NodeClass.groups (c : NodeClass) : List Kind :=
  if c = .of .element then [.key, .attribute, .bodyNode]
  else if c = .of .component then [.field, .spread, .bodyNode]
  else []

/-- The kinds in a group exclude one another. -/
theorem NodeClass.countP_groups_le (c : NodeClass) (k : Kind) : c.groups.countP k.isA ≤ 1 := by
  unfold groups
  split
  · cases k <;> decide
  · split
    · cases k <;> decide
    · exact Nat.zero_le 1

theorem flatMap_filter_cons_perm {α κ : Type} (p : κ → α → Bool) (x : α) (xs : List α) (ks : List κ) :
    (ks.flatMap fun k => (x :: xs).filter (p k)).Perm
      (List.replicate (ks.countP (p · x)) x ++ ks.flatMap fun k => xs.filter (p k)) := by
  induction ks with
  | nil => simp
  | cons k ks ih =>
    have hswap := (ih.append_left (xs.filter (p k))).trans
      (List.perm_append_comm_assoc (xs.filter (p k)) _ _)
    simp only [List.flatMap_cons]
    by_cases hk : p k x = true
    · rw [List.filter_cons_of_pos hk, List.countP_cons_of_pos (p := (p · x)) hk, List.replicate_succ]
      exact hswap.cons x
    · rw [List.filter_cons_of_neg hk, List.countP_cons_of_neg (p := (p · x)) hk]
      exact hswap

/-- One list for each key, of the elements that belong to it: together they hold every element once, if
each element belongs to one key. -/
theorem flatMap_filter_perm {α κ : Type} {p : κ → α → Bool} {ks : List κ} {xs : List α}
    (h : ∀ x ∈ xs, ks.countP (p · x) = 1) : (ks.flatMap fun k => xs.filter (p k)).Perm xs := by
  induction xs with
  | nil => simp
  | cons x xs ih =>
    refine (flatMap_filter_cons_perm p x xs ks).trans ?_
    rw [h x List.mem_cons_self]
    exact (ih fun y hy => h y (List.mem_cons_of_mem x hy)).cons x

namespace Node

/-- Elements and components. -/
def IsBlock (n : Node) : Prop := n.cls = .of .element ∨ n.cls = .of .component

/-- Nodes that may stand in a block but are not written. -/
def IsSilent (n : Node) : Prop := n.cls = .of .rawExpression ∨ n.cls = .of .metaAttribute

instance (n : Node) : Decidable n.IsBlock := inferInstanceAs (Decidable (_ ∨ _))

instance (n : Node) : Decidable n.IsSilent := inferInstanceAs (Decidable (_ ∨ _))

/-- The children of a block, group by group, and in each group as they stand. -/
def regrouped (n : Node) : List Node := n.cls.groups.flatMap n.childrenOf

mutual

/-- The nodes that are reached from a node, with those of each block in groups. Only blocks have nodes
below them here, so the depth of a node is the number of blocks around it. -/
def reached : Node → Tree Node
  | .mk l cs => .mk (.mk l cs) (l.cls.groups.flatMap fun k =>
      (reachedAll cs).filter fun t => Node.isA t.label k)

def reachedAll : List Node → List (Tree Node)
  | [] => []
  | c :: cs => reached c :: reachedAll cs

end

theorem reachedAll_eq_map (cs : List Node) : reachedAll cs = cs.map reached := by
  induction cs with
  | nil => rfl
  | cons c cs ih => rw [reachedAll, ih, List.map_cons]

theorem label_reached (n : Node) : n.reached.label = n := by
  cases n
  rfl

theorem reached_eq (n : Node) : n.reached = .mk n (n.regrouped.map reached) := by
  obtain ⟨l, cs⟩ := n
  have hfilter : ∀ k, (cs.map reached).filter (fun t => Node.isA t.label k) =
      (Node.childrenOf (.mk l cs) k).map reached := by
    intro k
    simp only [List.filter_map, Function.comp_def, label_reached]
    rfl
  simp only [reached, reachedAll_eq_map, hfilter, regrouped, List.map_flatMap]
  rfl

/-- Nothing is reached from a node that is no block. -/
theorem reached_of_not_isBlock {n : Node} (h : ¬ n.IsBlock) : n.reached = .mk n [] := by
  have hgroups : n.cls.groups = [] := by
    rw [NodeClass.groups, if_neg fun he => h (.inl he), if_neg fun hc => h (.inr hc)]
  rw [reached_eq, regrouped, hgroups]
  rfl

theorem not_isBlock_of_cls {n : Node} {k : Kind} (hc : n.cls = .of k) (he : k ≠ .element)
    (hk : k ≠ .component) : ¬ n.IsBlock := by
  simpa [IsBlock, hc, NodeClass.of] using And.intro he hk

theorem not_isSilent_of_cls {n : Node} {k : Kind} (hc : n.cls = .of k) (hr : k ≠ .rawExpression)
    (hm : k ≠ .metaAttribute) : ¬ n.IsSilent := by
  simpa [IsSilent, hc, NodeClass.of] using And.intro hr hm

theorem not_isSilent_of_isBlock {n : Node} (h : n.IsBlock) : ¬ n.IsSilent := by
  rcases h with hc | hc
  · exact not_isSilent_of_cls hc nofun nofun
  · exact not_isSilent_of_cls hc nofun nofun

theorem cls_ne_of_isA {n : Node} {k k' : Kind} (h : n.isA k = true) (hk : k'.isA k = false) :
    n.cls ≠ .of k' := by
  intro hc
  rw [isA_of_cls hc, hk] at h
  cases h

theorem not_isBlock_of_isA {n : Node} {k : Kind} (h : n.isA k = true)
    (he : Kind.isA .element k = false) (hc : Kind.isA .component k = false) : ¬ n.IsBlock :=
  not_or.mpr ⟨cls_ne_of_isA h he, cls_ne_of_isA h hc⟩

theorem not_isSilent_of_isA {n : Node} {k : Kind} (h : n.isA k = true)
    (hr : Kind.isA .rawExpression k = false) (hm : Kind.isA .metaAttribute k = false) :
    ¬ n.IsSilent :=
  not_or.mpr ⟨cls_ne_of_isA h hr, cls_ne_of_isA h hm⟩

theorem regrouped_of_element {n : Node} (h : n.cls = .of .element) :
    n.regrouped = n.childrenOf .key ++ (n.childrenOf .attribute ++ n.childrenOf .bodyNode) := by
  simp [regrouped, NodeClass.groups, h]

theorem regrouped_of_component {n : Node} (h : n.cls = .of .component) :
    n.regrouped = n.childrenOf .field ++ (n.childrenOf .spread ++ n.childrenOf .bodyNode) := by
  simp [regrouped, NodeClass.groups, h, NodeClass.of]

/-- Each child is in one group if it is of one of the kinds. -/
theorem regrouped_perm {n : Node} {ks : List Kind} (hks : n.cls.groups = ks)
    (h : ∀ c : Node, c ∈ n.children → c.isAny ks = true) : n.regrouped.Perm n.children := by
  subst hks
  refine flatMap_filter_perm fun c hc => Nat.le_antisymm (n.cls.countP_groups_le c.label.cls.kind) ?_
  obtain ⟨k, hk, hck⟩ := List.any_eq_true.mp (h c hc)
  exact List.countP_pos_iff.mpr ⟨k, hk, hck⟩

end Node

/-- What is written in one go: the line or lines of a node, which open the block if it is one, and the
line that closes a block. -/
inductive Piece where
  | item (d : Nat) (n : Node)
  | closing (d : Nat) (n : Node)

namespace Piece

/-- A block has all its children in groups. -/
def Complete : Piece → Prop
  | item _ n => n.IsBlock → n.regrouped.Perm n.children
  | closing _ _ => True

/-- The depth and the node of an item. -/
def item? : Piece → Option (Nat × Node)
  | item d n => some (d, n)
  | closing _ _ => none

mutual

/-- The pieces of a tree of nodes in the order of a run. -/
def walk (d : Nat) : Tree Node → List Piece
  | .mk n ts => (if n.IsSilent then [] else [item d n]) ++ walkAll (d + 1) ts ++
      (if n.IsBlock then [closing d n] else [])

def walkAll (d : Nat) : List (Tree Node) → List Piece
  | [] => []
  | t :: ts => walk d t ++ walkAll d ts

end

theorem walkAll_append (d : Nat) (ts us : List (Tree Node)) :
    walkAll d (ts ++ us) = walkAll d ts ++ walkAll d us := by
  induction ts with
  | nil => rfl
  | cons t ts ih => rw [List.cons_append, walkAll, walkAll, ih, List.append_assoc]

/-- A block is an item, what is below it, and a closing line. -/
theorem walk_reached_of_isBlock {n : Node} (h : n.IsBlock) (d : Nat) : walk d n.reached =
    [item d n] ++ (walkAll (d + 1) (n.regrouped.map Node.reached) ++ [closing d n]) := by
  rw [Node.reached_eq, walk, if_neg (Node.not_isSilent_of_isBlock h), if_pos h, List.append_assoc]

/-- A node that is no block is one item, or nothing. -/
theorem walk_reached_of_not_isBlock {n : Node} (h : ¬ n.IsBlock) (d : Nat) :
    walk d n.reached = if n.IsSilent then [] else [item d n] := by
  rw [Node.reached_of_not_isBlock h, walk, walkAll, if_neg h, List.append_nil, List.append_nil]

mutual

/-- The items of a walk are the nodes of the tree in preorder, without those that are not written. -/
theorem items_walk (d : Nat) : (t : Tree Node) →
    (walk d t).filterMap item? = (t.levels d).filter fun p => !decide (Node.IsSilent p.2)
  | .mk n ts => by
    have hclosing : (if n.IsBlock then [closing d n] else []).filterMap item? = [] := by
      split <;> rfl
    rw [walk, Tree.levels, List.filterMap_append, List.filterMap_append, items_walkAll (d + 1) ts,
      hclosing, List.append_nil]
    by_cases hn : n.IsSilent <;> simp [hn, item?]

theorem items_walkAll (d : Nat) : (ts : List (Tree Node)) → (walkAll d ts).filterMap item? =
    (Tree.levelsAll d ts).filter fun p => !decide (Node.IsSilent p.2)
  | [] => rfl
  | t :: ts => by
    rw [walkAll, Tree.levelsAll, List.filterMap_append, List.filter_append, items_walk d t,
      items_walkAll d ts]

end

end Piece

theorem Renderer.lines_ne_nil {r : Renderer} {v : Node} {ls : List (List Char)}
    (h : r.lines v = .ok ls) : ls ≠ [] := by
  unfold lines at h
  split at h
  · cases h
  · cases h
    exact Text.lines_ne_nil _

namespace Formatter

variable (f : Formatter)

/-- The white space in front of a line with `d` blocks around it. -/
def spaces (d : Nat) : List Char :=
  List.replicate (max f.indentWidth 0 * max (f.startIndent + d) 0).toNat ' '

theorem margin_eq_spaces (d : Nat) : f.margin (f.startIndent + d) = f.spaces d := by
  have hwidth : 0 ≤ max f.indentWidth 0 := by omega
  have hdepth : 0 ≤ max (f.startIndent + d) 0 := by omega
  rw [margin, indent, spaces, Int.toNat_mul hwidth hdepth]
  congr 2 <;> omega

theorem tabs_eq (d : Nat) : f.tabs (f.startIndent + d) = .write (f.spaces d) := by
  rw [← margin_eq_spaces]
  rfl

theorem line_eq (d : Nat) (text : List Char) :
    f.line (f.startIndent + d) text = ⟨[f.spaces d, text ++ ['\n']], none⟩ := by
  rw [line, tabs_eq]
  rfl

/-- The lines that a value is shown as. -/
def Shows (v : Node) (ls : List (List Char)) : Prop :=
  if v.isA .string then ls = [inQuotes v.head] else f.renderer.lines v = .ok ls

/-- The texts of the lines of a value after its first one. -/
def continued (margin : List Char) (literal : List Nat) (start : Nat) (ls : List (List Char)) :
    List (List Char) :=
  (ls.zipIdx start).flatMap fun (l, i) => ['\n'] :: if i ∈ literal then [l] else [margin, l]

/-- The texts of a value of one or more lines, from `lead` to `tail`. -/
def valueTexts (d : Nat) (lead tail first : List Char) (rest : List (List Char)) :
    List (List Char) :=
  f.spaces d :: (lead ++ first) ::
    (continued (f.spaces d) (literalLines (unlines (first :: rest))) 1 rest ++ [tail ++ ['\n']])

/-- The texts that a piece is written as. -/
inductive Written : Piece → List (List Char) → Prop where
  | opening {d : Nat} {n : Node} {name : List Char} : n.IsBlock → n.head = some name →
      Written (.item d n) [f.spaces d, name ++ [' ', '\x7b', '\n']]
  | closing {d : Nat} {n : Node} : Written (.closing d n) [f.spaces d, ['\x7d', '\n']]
  | key {d : Nat} {n : Node} {tail : List Char} : n.isA .key = true →
      tail = [',', '\n'] ∨ tail = ['\n'] →
      Written (.item d n) [f.spaces d, "key: ".toList ++ inQuotes n.head, tail]
  | nameValue {d : Nat} {n v : Node} {name first : List Char} {rest : List (List Char)} :
      n.isA .attribute = true ∨ n.isA .field = true → n.head = some name → n.value? = some v →
      f.Shows v (first :: rest) →
      Written (.item d n) (f.valueTexts d (name ++ [':', ' ']) [','] first rest)
  | spread {d : Nat} {n v : Node} {first : List Char} {rest : List (List Char)} :
      n.isA .spread = true → n.expression? = some v → f.Shows v (first :: rest) →
      Written (.item d n) (f.valueTexts d ['.', '.'] [] first rest)
  | text {d : Nat} {n : Node} : n.cls = .of .text →
      Written (.item d n) [f.spaces d, inQuotes n.head ++ ['\n']]
  | decoration {d : Nat} {n : Node} {text : List Char} : n.cls = .of .decoration →
      n.head = some text → Written (.item d n) [f.spaces d, text ++ ['\n']]

theorem furtherLines_eq (depth : Int) (literal : List Nat) (ls : List (List Char)) : ∀ i,
    f.furtherLines depth literal i ls = ⟨continued (f.margin depth) literal i ls, none⟩ := by
  induction ls with
  | nil => intro i; rfl
  | cons l ls ih =>
    intro i
    rw [furtherLines, ih]
    by_cases hi : i ∈ literal
    · have hcontains : literal.contains i = true := List.contains_iff_mem.mpr hi
      simp only [hcontains, if_true, continued, List.zipIdx_cons, List.flatMap_cons, hi]
      rfl
    · have hcontains : ¬ literal.contains i = true := mt List.contains_iff_mem.mp hi
      simp only [hcontains, if_false, continued, List.zipIdx_cons, List.flatMap_cons, hi]
      rfl

theorem valueLines_cons (d : Nat) (lead tail first : List Char) (rest : List (List Char)) :
    f.valueLines (f.startIndent + d) lead tail (first :: rest) =
      ⟨f.valueTexts d lead tail first rest, none⟩ := by
  have hliteral : f.furtherLines (f.startIndent + d)
      (if rest.isEmpty then [] else literalLines (unlines (first :: rest))) 1 rest =
        ⟨continued (f.spaces d) (literalLines (unlines (first :: rest))) 1 rest, none⟩ := by
    rw [furtherLines_eq, margin_eq_spaces]
    cases rest <;> rfl
  rw [valueLines, valueTexts, tabs_eq, hliteral]
  rfl

end Formatter

namespace Script

theorem append_of_failure {a b : Script} (h : a.failure = none) :
    a ++ b = ⟨a.chunks ++ b.chunks, b.failure⟩ := by
  show Script.append a b = _
  rw [Script.append, h]

theorem failure_of_append {a b : Script} (h : (a ++ b).failure = none) : a.failure = none := by
  cases hf : a.failure with
  | none => rfl
  | some e =>
    have happ : a ++ b = a := by
      show Script.append a b = a
      rw [Script.append, hf]
    rw [happ, hf] at h
    cases h

/-- If the script does not fail, its texts are those of the pieces `ps`, and the blocks among these have
all their children in groups. -/
def Follows (f : Formatter) (s : Script) (ps : List Piece) : Prop :=
  s.failure = none →
    (∃ run : List (List (List Char)), s.chunks = run.flatten ∧ List.Forall₂ f.Written ps run) ∧
    ∀ p ∈ ps, p.Complete

namespace Follows

variable {f : Formatter} {a b : Script} {ps qs : List Piece}

theorem empty : Script.empty.Follows f [] :=
  fun _ => ⟨⟨[], rfl, .nil⟩, fun _ h => absurd h List.not_mem_nil⟩

theorem of_failure {e : Failure} (h : a.failure = some e) : a.Follows f ps :=
  fun hnone => absurd (h.symm.trans hnone) nofun

theorem append (ha : a.Follows f ps) (hb : b.Follows f qs) : (a ++ b).Follows f (ps ++ qs) := by
  intro hnone
  have hfailure : a.failure = none := failure_of_append hnone
  rw [append_of_failure hfailure] at hnone ⊢
  obtain ⟨⟨runa, hruna, hwa⟩, hpa⟩ := ha hfailure
  obtain ⟨⟨runb, hrunb, hwb⟩, hpb⟩ := hb hnone
  refine ⟨⟨runa ++ runb, ?_, List.rel_append hwa hwb⟩, fun p hmem => ?_⟩
  · rw [List.flatten_append, ← hruna, ← hrunb]
  · exact (List.mem_append.mp hmem).elim (hpa p) (hpb p)

/-- A check hands on nothing, and what comes behind it may rely on it. -/
theorem of_check (ha : a.chunks = []) (hb : a.failure = none → b.Follows f ps) :
    (a ++ b).Follows f ps := by
  intro hnone
  have hfailure : a.failure = none := failure_of_append hnone
  rw [append_of_failure hfailure, ha, List.nil_append] at hnone ⊢
  exact hb hfailure hnone

/-- A script of nothing but the texts of one piece. -/
theorem single {p : Piece} {texts : List (List Char)} (hw : f.Written p texts) (hp : p.Complete) :
    (Script.mk texts none).Follows f [p] :=
  fun _ => ⟨⟨[texts], by simp, .cons hw .nil⟩, by simpa using hp⟩

theorem concat_map {g : Node → Script} {d : Nat} {ns : List Node}
    (h : ∀ n ∈ ns, (g n).Follows f (Piece.walk d n.reached)) :
    (concat (ns.map g)).Follows f (Piece.walkAll d (ns.map Node.reached)) := by
  induction ns with
  | nil => exact .empty
  | cons n ns ih =>
    exact (h n List.mem_cons_self).append (ih fun m hm => h m (List.mem_cons_of_mem n hm))

end Follows
end Script

namespace Formatter

open Script

variable {f : Formatter} {d : Nat}

/-- A line that shows the head of a node is all of a piece. -/
theorem headLine_follows {p : Piece} {head : Option (List Char)} {tail : List Char} (hp : p.Complete)
    (hw : ∀ s, head = some s → f.Written p [f.spaces d, s ++ (tail ++ ['\n'])]) :
    (f.headLine (f.startIndent + d) head tail).Follows f [p] := by
  cases head with
  | none => exact .of_failure rfl
  | some s =>
    rw [headLine, line_eq, List.append_assoc]
    exact .single (hw s rfl) hp

/-- The lines that show a value are all of a piece. -/
theorem value_follows {p : Piece} {lead tail : List Char} {v? : Option Node} (hp : p.Complete)
    (hw : ∀ v first rest, v? = some v → f.Shows v (first :: rest) →
      f.Written p (f.valueTexts d lead tail first rest)) :
    (f.value (f.startIndent + d) lead tail v?).Follows f [p] := by
  cases v? with
  | none => exact .of_failure rfl
  | some v =>
    rw [value]
    split
    · rename_i hstring
      rw [valueLines_cons]
      exact .single (hw v _ _ rfl (by rw [Shows, if_pos hstring])) hp
    · rename_i hstring
      split
      · exact .of_failure rfl
      · rename_i ls hlines
        have hshows : f.Shows v ls := by
          rw [Shows, if_neg hstring]
          exact hlines
        obtain ⟨first, rest, rfl⟩ := List.exists_cons_of_ne_nil (Renderer.lines_ne_nil hlines)
        rw [valueLines_cons]
        exact .single (hw v _ _ rfl hshows) hp

theorem nameValue_follows {n : Node} (hk : n.isA .attribute = true ∨ n.isA .field = true)
    (hb : ¬ n.IsBlock) : (f.nameValue (f.startIndent + d) n).Follows f [.item d n] := by
  unfold nameValue
  cases hname : n.head with
  | none => exact .of_failure rfl
  | some name =>
    exact value_follows (absurd · hb) fun v _ _ hv hshows => .nameValue hk hname hv hshows

theorem keyLine_follows {n : Node} (hk : n.isA .key = true) (hasAttributes : Bool) :
    (f.keyLine (f.startIndent + d) hasAttributes n).Follows f (Piece.walk d n.reached) := by
  have hb : ¬ n.IsBlock := Node.not_isBlock_of_isA hk rfl rfl
  rw [Piece.walk_reached_of_not_isBlock hb, if_neg (Node.not_isSilent_of_isA hk rfl rfl), keyLine,
    tabs_eq]
  exact .single (.key hk (by cases hasAttributes <;> simp)) (absurd · hb)

theorem attributeLines_follows {n : Node} (hk : n.isA .attribute = true) :
    (f.attributeLines (f.startIndent + d) n).Follows f (Piece.walk d n.reached) := by
  have hb : ¬ n.IsBlock := Node.not_isBlock_of_isA hk rfl rfl
  rw [Piece.walk_reached_of_not_isBlock hb]
  rcases attributeLines_cases f (f.startIndent + d) n with ⟨hc, he⟩ | ⟨hc, he⟩ | ⟨-, u, he⟩
  · have hs : ¬ n.IsSilent := by
      rintro (hs | hs) <;> rw [hs] at hc <;> exact absurd hc (by decide)
    rw [he, if_neg hs]
    exact nameValue_follows (.inl hk) hb
  · rw [he, if_pos (.inr hc)]
    exact .empty
  · rw [he]
    exact .of_failure rfl

theorem fieldLines_follows {n : Node} (hk : n.isA .field = true) :
    (f.fieldLines (f.startIndent + d) n).Follows f (Piece.walk d n.reached) := by
  have hb : ¬ n.IsBlock := Node.not_isBlock_of_isA hk rfl rfl
  rw [Piece.walk_reached_of_not_isBlock hb, if_neg (Node.not_isSilent_of_isA hk rfl rfl)]
  rcases fieldLines_cases f (f.startIndent + d) n with ⟨-, he⟩ | ⟨-, u, he⟩
  · rw [he]
    exact nameValue_follows (.inr hk) hb
  · rw [he]
    exact .of_failure rfl

theorem spreadLines_follows {n : Node} (hk : n.isA .spread = true) :
    (f.spreadLines (f.startIndent + d) n).Follows f (Piece.walk d n.reached) := by
  have hb : ¬ n.IsBlock := Node.not_isBlock_of_isA hk rfl rfl
  rw [Piece.walk_reached_of_not_isBlock hb, if_neg (Node.not_isSilent_of_isA hk rfl rfl)]
  exact value_follows (absurd · hb) fun v _ _ hv hshows => .spread hk hv hshows

theorem chunks_checkChildren (n : Node) (kinds : List Kind) : (checkChildren n kinds).chunks = [] := by
  unfold checkChildren
  split <;> rfl

theorem isAny_of_checkChildren {n : Node} {kinds : List Kind}
    (h : (checkChildren n kinds).failure = none) :
    ∀ c : Node, c ∈ n.children → c.isAny kinds = true := by
  intro c hc
  cases hkind : c.isAny kinds with
  | true => rfl
  | false =>
    obtain ⟨e, he⟩ := (checkChildren_fails n kinds).fails.mpr ⟨c, hc, hkind⟩
    rw [h] at he
    cases he

theorem chunks_checkKeys (n : Node) : (checkKeys n).chunks = [] := by
  unfold checkKeys
  split <;> rfl

theorem childrenOf_follows {n : Node} {k : Kind} {g : Node → Script}
    (h : ∀ c : Node, c.isA k = true → (g c).Follows f (Piece.walk d c.reached)) :
    (Script.concat ((n.childrenOf k).map g)).Follows f
      (Piece.walkAll d ((n.childrenOf k).map Node.reached)) :=
  .concat_map fun c hc => h c (Node.mem_childrenOf.mp hc).2

/-- The closing line of a block. -/
theorem closing_follows (n : Node) :
    (f.line (f.startIndent + d) ['\x7d']).Follows f [.closing d n] := by
  rw [line_eq]
  exact .single .closing trivial

mutual

theorem node_follows (d : Nat) :
    (n : Node) → (f.node (f.startIndent + d) n).Follows f (Piece.walk d n.reached)
  | .mk l cs => by
    have hdepth : f.startIndent + d + 1 = f.startIndent + (d + 1 : Nat) := by omega
    have hbody := body_follows (d + 1) cs
    have hplain : ∀ k, l.cls = .of k → k ≠ .element → k ≠ .component → ¬ Node.IsBlock (.mk l cs) :=
      fun k hc => Node.not_isBlock_of_cls hc
    unfold node
    simp only
    split
    · rename_i hc
      have hblock : Node.IsBlock (.mk l cs) := .inl hc
      rw [Piece.walk_reached_of_isBlock hblock, Node.regrouped_of_element (n := .mk l cs) hc]
      simp only [elementHead, Script.append_assoc, List.map_append, Piece.walkAll_append,
        List.append_assoc, hdepth]
      refine .of_check (chunks_checkChildren _ _) fun hchildren => ?_
      refine .of_check (chunks_checkKeys _) fun _ => ?_
      refine .append (headLine_follows (fun _ => ?_) fun _ hname => ?_) ?_
      · exact Node.regrouped_perm (congrArg NodeClass.groups hc) (isAny_of_checkChildren hchildren)
      · exact .opening hblock hname
      refine .append (childrenOf_follows fun _ hk => keyLine_follows hk _) ?_
      refine .append (childrenOf_follows fun _ hk => attributeLines_follows hk) ?_
      exact .append hbody (closing_follows _)
    · rename_i hc
      have hblock : Node.IsBlock (.mk l cs) := .inr hc
      rw [Piece.walk_reached_of_isBlock hblock, Node.regrouped_of_component (n := .mk l cs) hc]
      simp only [componentHead, Script.append_assoc, List.map_append, Piece.walkAll_append,
        List.append_assoc, hdepth]
      refine .of_check (chunks_checkChildren _ _) fun hchildren => ?_
      refine .append (headLine_follows (fun _ => ?_) fun _ hname => ?_) ?_
      · exact Node.regrouped_perm (congrArg NodeClass.groups hc) (isAny_of_checkChildren hchildren)
      · exact .opening hblock hname
      refine .append (childrenOf_follows fun _ hk => fieldLines_follows hk) ?_
      refine .append (childrenOf_follows fun _ hk => spreadLines_follows hk) ?_
      exact .append hbody (closing_follows _)
    · rename_i hc
      have hblock := hplain _ hc nofun nofun
      rw [Piece.walk_reached_of_not_isBlock hblock,
        if_neg (Node.not_isSilent_of_cls (n := .mk l cs) hc nofun nofun), line_eq]
      exact .single (.text hc) (absurd · hblock)
    · rename_i hc
      rw [Piece.walk_reached_of_not_isBlock (hplain _ hc nofun nofun), if_pos (.inl hc)]
      exact .empty
    · rename_i hc
      have hblock := hplain _ hc nofun nofun
      rw [Piece.walk_reached_of_not_isBlock hblock,
        if_neg (Node.not_isSilent_of_cls (n := .mk l cs) hc nofun nofun)]
      exact headLine_follows (absurd · hblock) fun _ hhead => .decoration hc hhead
    · exact .of_failure rfl

theorem body_follows (d : Nat) : (ns : List Node) → (f.body (f.startIndent + d) ns).Follows f
    (Piece.walkAll d ((ns.filter fun (n : Node) => n.isA .bodyNode).map Node.reached))
  | [] => .empty
  | .mk l cs :: ns => by
    have hrest := body_follows d ns
    have hisA : Node.isA (.mk l cs) .bodyNode = l.isA .bodyNode := rfl
    rw [body]
    split
    · rename_i hl
      rw [List.filter_cons_of_pos (by rw [hisA, hl])]
      exact (node_follows d (.mk l cs)).append hrest
    · rename_i hl
      rwa [List.filter_cons_of_neg (by rw [hisA]; exact hl)]

end

theorem nodes_follows (ns : List Node) :
    (f.nodes ns).Follows f (Piece.walkAll 0 (ns.map Node.reached)) := by
  refine .concat_map fun n _ => ?_
  have hnode := node_follows (f := f) 0 n
  rwa [Int.natCast_zero, Int.add_zero] at hnode

end Formatter

/-- A run on root nodes that all have a written form. The texts that it hands on are those of one item
for each node it reaches, apart from those that are not written, in preorder and with the children of
each block in groups, and of a closing line behind each block. None of the children of a block is
missing. -/
theorem Formatter.chunks_nodes {f : Formatter} {ns : List Node} (h : (f.nodes ns).failure = none) :
    (∃ run : List (List (List Char)), (f.nodes ns).chunks = run.flatten ∧
      List.Forall₂ f.Written (Piece.walkAll 0 (ns.map Node.reached)) run) ∧
    (Piece.walkAll 0 (ns.map Node.reached)).filterMap Piece.item? =
      (Tree.levelsAll 0 (ns.map Node.reached)).filter (fun p => !decide (Node.IsSilent p.2)) ∧
    ∀ n : Node, n ∈ Tree.preorderAll (ns.map Node.reached) → n.IsBlock →
      n.regrouped.Perm n.children := by
  obtain ⟨hrun, hcomplete⟩ := Formatter.nodes_follows ns h
  refine ⟨hrun, Piece.items_walkAll 0 _, fun n hn hblock => ?_⟩
  rw [← Tree.levelsAll_map_snd 0] at hn
  obtain ⟨⟨d, m⟩, hlevel, rfl⟩ := List.mem_map.mp hn
  have hitem : (d, m) ∈ (Piece.walkAll 0 (ns.map Node.reached)).filterMap Piece.item? := by
    rw [Piece.items_walkAll]
    exact List.mem_filter.mpr ⟨hlevel, by simpa using Node.not_isSilent_of_isBlock hblock⟩
  obtain ⟨p, hp, hpiece⟩ := List.mem_filterMap.mp hitem
  cases p with
  | closing => cases hpiece
  | item =>
    cases hpiece
    exact hcomplete _ hp hblock

/-- An element whose key comes last, with a component in it, an expression of two lines and a node that
is not written. -/
def sampleBlock : Node :=
  Node.textual .element "a".toList
    [Node.textual .component "B".toList
      [Node.textual .text "c".toList, Node.bare .spread [Node.textual .expression "d".toList]],
     Node.bare .rawExpression [Node.textual .expression "e".toList],
     Node.textual .eventHandler "f".toList [Node.textual .expression "g(\n)".toList],
     Node.textual .key "h".toList]

theorem chunks_sampleBlock : (Formatter.nodes ⟨2, -1, .verbatim⟩ [sampleBlock]).failure = none ∧
    (∃ run : List (List (List Char)),
      (Formatter.nodes ⟨2, -1, .verbatim⟩ [sampleBlock]).chunks = run.flatten ∧
      List.Forall₂ (Formatter.Written ⟨2, -1, .verbatim⟩)
        (Piece.walkAll 0 ([sampleBlock].map Node.reached)) run) ∧
    (Piece.walkAll 0 ([sampleBlock].map Node.reached)).filterMap Piece.item? =
      (Tree.levelsAll 0 ([sampleBlock].map Node.reached)).filter
        (fun p => !decide (Node.IsSilent p.2)) ∧
    ∀ n : Node, n ∈ Tree.preorderAll ([sampleBlock].map Node.reached) → n.IsBlock →
      n.regrouped.Perm n.children := by
  have haccepted : (Formatter.nodes ⟨2, -1, .verbatim⟩ [sampleBlock]).failure = none := by
    rfl
  exact ⟨haccepted, Formatter.chunks_nodes haccepted⟩

end BlockMarkup
