import BlockMarkup.Proofs.Expression.Orderly
import BlockMarkup.Proofs.Format
import BlockMarkup.Proofs.Layout.Reread

/-!
# BlockMarkup.Proofs.Canonical

Documents in canonical form: every node stands where it is written, and every text in it can be read
back. Reading undoes writing on them, at any indent (`read_write_canonical`).
-/

namespace BlockMarkup

open Text

/-- A canonical expression that is not taken for a string. -/
def IsCanonicalValue (s : List Char) : Prop :=
  IsCanonical s ∧ ∀ b, isQuotable b = true → s ≠ quote b

/-- An orderly text between the marks of a decoration; a line comment would hide the last mark. -/
def IsCanonicalDecoration (s : List Char) : Prop :=
  ∃ o w, s = o ++ (w ++ [']']) ∧ (o = ['#', '['] ∨ o = ['#', '!', '[']) ∧ IsOrderly w ∧
    ∀ l : Lexeme, l ∈ (lexemesOf w).getLast? → l.isLineComment = false

/-- A name with its value: a string under any name but the reserved ones, or an expression, whose
kind depends on whether the name is that of a handler. -/
inductive CanonicalPair (ofText ofExpression ofHandler : Kind) (reserved : List Char → Prop) :
    Node → Prop where
  | text {l : Label} {p : List Char} {v : Node} : l.cls = .of ofText → l.head = some p →
      isName p = true → ¬ reserved p → IsString v →
      CanonicalPair ofText ofExpression ofHandler reserved (.mk l [v])
  | expression {l : Label} {p : List Char} {v : Node} : l.cls = .of ofExpression →
      l.head = some p → isName p = true → isHandlerName p = false →
      IsExpression IsCanonicalValue v →
      CanonicalPair ofText ofExpression ofHandler reserved (.mk l [v])
  | handler {l : Label} {p : List Char} {v : Node} : l.cls = .of ofHandler →
      l.head = some p → isName p = true → isHandlerName p = true →
      IsExpression IsCanonicalValue v →
      CanonicalPair ofText ofExpression ofHandler reserved (.mk l [v])

/-- An attribute in canonical form: a string under the name `key` would be a key. -/
def CanonicalAttribute : Node → Prop :=
  CanonicalPair .textAttribute .expressionAttribute .eventHandler (· = "key".toList)

def CanonicalField : Node → Prop :=
  CanonicalPair .formattedField .expressionField .handlerField fun _ => False

inductive CanonicalKey : Node → Prop where
  | mk {l : Label} {b : List Char} : l.cls = .of .key → l.head = some b → isQuotable b = true →
      CanonicalKey (.mk l [])

inductive CanonicalSpread : Node → Prop where
  | mk {l : Label} {e : Node} : l.cls = .of .spread → IsExpression IsCanonical e →
      CanonicalSpread (.mk l [e])

/-- A body node in canonical form. -/
inductive CanonicalNode : Node → Prop where
  | text {l : Label} {b : List Char} : l.cls = .of .text → l.head = some b →
      isQuotable b = true → CanonicalNode (.mk l [])
  | decoration {l : Label} {s : List Char} : l.cls = .of .decoration → l.head = some s →
      IsCanonicalDecoration s → CanonicalNode (.mk l [])
  | element {l : Label} {p : List Char} {keys attributes body : List Node} :
      l.cls = .of .element → l.head = some p → isTag p = true →
      keys.length ≤ 1 → (∀ c ∈ keys, CanonicalKey c) →
      (∀ c ∈ attributes, CanonicalAttribute c) → (∀ c ∈ body, CanonicalNode c) →
      CanonicalNode (.mk l (keys ++ attributes ++ body))
  | component {l : Label} {p : List Char} {fields spreads body : List Node} :
      l.cls = .of .component → l.head = some p → isPath p = true → isTag p = false →
      (∀ c ∈ fields, CanonicalField c) →
      spreads.length ≤ 1 → (∀ c ∈ spreads, CanonicalSpread c) → (∀ c ∈ body, CanonicalNode c) →
      CanonicalNode (.mk l (fields ++ spreads ++ body))

/-- A document in canonical form. -/
def IsCanonicalDocument (d : Node) : Prop :=
  d.cls = .of .document ∧ ∀ n ∈ d.children, CanonicalNode n

/-! ## Canonical nodes by their kinds -/

theorem kind_of_isString' {v : Node} (h : IsString v) : decide (v.kind = .string) = true := by
  simp [kind_of_isString h]

theorem kind_of_isExpression' {P : List Char → Prop} {v : Node} (h : IsExpression P v) :
    decide (v.kind = .string) = false := by
  simp [kind_of_isExpression h]

/-- What the heads of canonical documents are like; there are no raw expressions in them. -/
def Heads.canonical : Heads := ⟨IsCanonicalValue, IsCanonical, fun _ => False, IsCanonicalDecoration⟩

theorem Heads.canonical_readable (f : Formatter) : Heads.canonical.Readable f where
  value h hh depth := by
    rw [hh.1.hung_tidy]
    exact hh.1.isValueText hh.2
  spread h hh depth := by
    rw [IsCanonical.hung_tidy hh]
    exact IsCanonical.isSpreadText hh
  decoration s hs := by
    obtain ⟨o, w, rfl, ho, hw, hlast⟩ := hs
    have hdecoration := isDecorationText_of_nest ho hw.fit hw.nest hlast
    rwa [hw.text] at hdecoration

theorem CanonicalAttribute.placed {n : Node} (h : CanonicalAttribute n) :
    Placed Heads.canonical .element n := by
  cases h with
  | text hc hp hname hkey hv =>
    refine .attr hp (.inl hname) ?_ (.inl ⟨hv, hkey⟩)
    rw [kind_of_isString' hv, hc, attributeKind_of_isName hname]
    rfl
  | expression hc hp hname hon hv =>
    refine .attr hp (.inl hname) ?_ (.inr hv)
    rw [kind_of_isExpression' hv, hc, attributeKind_of_isName hname, hon]
    rfl
  | handler hc hp hname hon hv =>
    refine .attr hp (.inl hname) ?_ (.inr hv)
    rw [kind_of_isExpression' hv, hc, attributeKind_of_isName hname, hon]
    rfl

theorem CanonicalField.placed {n : Node} (h : CanonicalField n) :
    Placed Heads.canonical .component n := by
  cases h with
  | text hc hp hname _ hv =>
    refine .field hp hname ?_ (.inl hv)
    rw [kind_of_isString' hv]
    exact hc
  | expression hc hp hname hon hv =>
    refine .field hp hname ?_ (.inr hv)
    rw [kind_of_isExpression' hv, hc, fieldKind, hon]
    rfl
  | handler hc hp hname hon hv =>
    refine .field hp hname ?_ (.inr hv)
    rw [kind_of_isExpression' hv, hc, fieldKind, hon]
    rfl

/-- The node is written among the nodes of kind `j`, and nowhere else. -/
def Node.HasRole (j : Kind) (n : Node) : Prop :=
  n.isWritten = true ∧ ∀ k ∈ writtenKinds, n.isA k = decide (k = j)

namespace Node

theorem hasRole_of_cls {n : Node} {i j : Kind} (hc : n.cls = .of i)
    (hi : i ≠ .rawExpression ∧ ∀ k ∈ writtenKinds, i.isA k = decide (k = j)) : n.HasRole j := by
  refine ⟨?_, fun k hk => ?_⟩
  · rw [isWritten_of_cls hc]
    exact decide_eq_true hi.1
  · rw [isA_of_cls hc]
    exact hi.2 k hk

theorem filter_of_hasRole {j : Kind} {ns : List Node} (h : ∀ n : Node, n ∈ ns → n.HasRole j)
    {k : Kind} (hk : k ∈ writtenKinds) :
    (ns.filter fun (n : Node) => n.isA k && n.isWritten) = if k = j then ns else [] := by
  split
  · rename_i hkj
    refine List.filter_eq_self.mpr fun n hn => ?_
    rw [(h n hn).2 k hk, (h n hn).1, hkj]
    simp
  · rename_i hkj
    refine List.filter_eq_nil_iff.mpr fun n hn => ?_
    rw [(h n hn).2 k hk]
    simp [hkj]

/-- Children that stand in the order of their roles stay in their order. -/
theorem arranged_of_hasRole {i j k : Kind} {as bs cs : List Node}
    (hi : ∀ n : Node, n ∈ as → n.HasRole i) (hj : ∀ n : Node, n ∈ bs → n.HasRole j)
    (hk : ∀ n : Node, n ∈ cs → n.HasRole k)
    (hkinds : writtenKinds.filter (fun x => x = i || x = j || x = k) = [i, j, k])
    (hdistinct : i ≠ j ∧ i ≠ k ∧ j ≠ k) : arranged (as ++ bs ++ cs) = as ++ bs ++ cs := by
  obtain ⟨hij, hik, hjk⟩ := hdistinct
  have hfilter : ∀ x ∈ writtenKinds,
      ((as ++ bs ++ cs).filter fun (n : Node) => n.isA x && n.isWritten) =
        (if x = i then as else []) ++ (if x = j then bs else []) ++ (if x = k then cs else []) := by
    intro x hx
    rw [List.filter_append, List.filter_append, filter_of_hasRole hi hx, filter_of_hasRole hj hx,
      filter_of_hasRole hk hx]
  have hskip : ∀ xs : List Kind, (∀ x ∈ xs, x ∈ writtenKinds) →
      (xs.flatMap fun x => (as ++ bs ++ cs).filter fun (n : Node) => n.isA x && n.isWritten) =
        (xs.filter fun x => x = i || x = j || x = k).flatMap fun x =>
          (if x = i then as else []) ++ (if x = j then bs else []) ++
            (if x = k then cs else []) := by
    intro xs
    induction xs with
    | nil => exact fun _ => rfl
    | cons x xs ih =>
      intro hxs
      rw [List.flatMap_cons, hfilter x (hxs x List.mem_cons_self),
        ih fun y hy => hxs y (List.mem_cons_of_mem _ hy)]
      by_cases hx : x = i ∨ x = j ∨ x = k
      · rw [List.filter_cons_of_pos (by simpa [or_assoc] using hx), List.flatMap_cons]
      · rw [List.filter_cons_of_neg (by simpa [or_assoc] using hx)]
        simp only [not_or] at hx
        simp [hx]
  rw [arranged, hskip writtenKinds fun _ hx => hx, hkinds]
  simp [hij, hik, hjk, hij.symm, hik.symm, hjk.symm]

end Node

/-! ## Reading back -/

namespace Node

theorem equalsAll_map {g : Node → Node} {ns : List Node}
    (h : ∀ n : Node, n ∈ ns → (g n).equals n = true) : equalsAll (ns.map g) ns = true := by
  induction ns with
  | nil => rfl
  | cons n ns ih =>
    rw [List.map_cons, equalsAll, h n List.mem_cons_self,
      ih fun m hm => h m (List.mem_cons_of_mem _ hm)]
    rfl

mutual

/-- Where a node was read does not count for equality. -/
theorem equals_forgetOrigin : (n m : Node) → n.forgetOrigin.equals m = n.equals m
  | .mk l cs, .mk k ds => by
    rw [forgetOrigin_mk, equals, equals, equalsAll_forgetOrigin cs ds]
    rfl

theorem equalsAll_forgetOrigin : (ns ms : List Node) →
    equalsAll (ns.map forgetOrigin) ms = equalsAll ns ms
  | [], ms => rfl
  | n :: ns, [] => rfl
  | n :: ns, m :: ms => by
    rw [List.map_cons, equalsAll, equalsAll, equals_forgetOrigin n m,
      equalsAll_forgetOrigin ns ms]

end

/-- A node with its children in order equals itself as it is written and read back, if its head
stays and its children do so too. -/
theorem settle_equals {f : Formatter} {depth : Int} {l : Label} {cs : List Node}
    (hcs : arranged cs = cs)
    (hl : l.cls.kind = .expression →
      l.head.map (fun s => hung (f.margin (depth - 1)) (tidy s)) = l.head)
    (h : ∀ c : Node, c ∈ cs → (c.settle f (depth + 1)).equals c = true) :
    (settle f depth (.mk l cs)).equals (.mk l cs) = true := by
  rw [settle_mk, arranged_map_settle, hcs, equals, equalsAll_map h, Bool.and_true]
  have hcls : (settledLabel f depth l).cls = l.cls := rfl
  have hisA : (settledLabel f depth l).isA .textual = l.isA .textual := rfl
  rw [Label.same, hcls, hisA]
  cases htextual : l.isA .textual with
  | false => simp
  | true =>
    have hhead : (settledLabel f depth l).head = l.head := by
      unfold settledLabel
      by_cases hk : l.cls.kind = .expression
      · simp only [if_pos hk]
        exact hl hk
      · simp only [if_neg hk, htextual, if_true]
    simp [hhead]

theorem settle_leaf_equals {f : Formatter} {depth : Int} {l : Label} {k : Kind}
    (hc : l.cls = .of k) (hk : k ≠ .expression) :
    (settle f depth (.mk l [])).equals (.mk l []) = true := by
  refine settle_equals rfl (fun he => ?_) nofun
  rw [hc] at he
  exact absurd he hk

end Node

theorem IsString.settle_equals {f : Formatter} {depth : Int} {v : Node} (h : IsString v) :
    (v.settle f depth).equals v = true := by
  obtain ⟨b, hc, -, hleaf, -⟩ := h
  obtain ⟨l, cs⟩ := v
  obtain rfl : cs = [] := hleaf
  exact Node.settle_leaf_equals hc nofun

theorem IsExpression.settle_equals {P : List Char → Prop} {f : Formatter} {depth : Int} {v : Node}
    (h : IsExpression P v) (hP : ∀ s, P s → IsCanonical s) :
    (v.settle f depth).equals v = true := by
  obtain ⟨s, -, hs, hleaf, hh⟩ := h
  obtain ⟨l, cs⟩ := v
  obtain rfl : cs = [] := hleaf
  have hhead : l.head = some s := hs
  refine Node.settle_equals rfl (fun _ => ?_) nofun
  rw [hhead, Option.map_some, (hP s hh).hung_tidy]

/-- A node that only holds a value equals itself as it is written and read back, if the value
does. -/
theorem settle_equals_of_value {f : Formatter} {depth : Int} {l : Label} {k : Kind} {v : Node}
    (hc : l.cls = .of k) (hk : k ≠ .expression)
    (hv : IsString v ∨ IsExpression IsCanonical v) :
    (Node.settle f depth (.mk l [v])).equals (.mk l [v]) = true := by
  refine Node.settle_equals (arranged_value hv) (fun he => ?_) fun c hm => ?_
  · rw [hc] at he
    exact absurd he hk
  · cases List.mem_singleton.mp hm
    rcases hv with hv | hv
    · exact hv.settle_equals
    · exact hv.settle_equals fun _ hs => hs

theorem IsExpression.mono {P Q : List Char → Prop} {v : Node} (h : IsExpression P v)
    (hPQ : ∀ s, P s → Q s) : IsExpression Q v := by
  obtain ⟨s, hc, hs, hleaf, hP⟩ := h
  exact ⟨s, hc, hs, hleaf, hPQ s hP⟩

theorem CanonicalPair.exists_value {i j k : Kind} {reserved : List Char → Prop} {n : Node}
    (h : CanonicalPair i j k reserved n) : ∃ (l : Label) (v : Node) (x : Kind), n = .mk l [v] ∧
      l.cls = .of x ∧ x ∈ [i, j, k] ∧ (IsString v ∨ IsExpression IsCanonical v) := by
  cases h with
  | text hc _ _ _ hv => exact ⟨_, _, _, rfl, hc, by simp, .inl hv⟩
  | expression hc _ _ _ hv | handler hc _ _ _ hv =>
    exact ⟨_, _, _, rfl, hc, by simp, .inr (hv.mono fun _ hs => hs.1)⟩

/-- What stands in front of a body: written in its place, without a quoted name, and read back as
it is. -/
structure Node.IsSettled (j : Kind) (n : Node) : Prop where
  role : n.HasRole j
  named : ¬ n.HasQuotedName
  equals : ∀ f depth, (n.settle f depth).equals n = true

theorem CanonicalPair.isSettled {i j k r : Kind} {reserved : List Char → Prop} {n : Node}
    (h : CanonicalPair i j k reserved n)
    (hkinds : ∀ x ∈ [i, j, k], x ≠ .expression ∧
      (x.isA .customTextAttribute || x.isA .customExpressionAttribute) = false ∧
      x ≠ .rawExpression ∧ ∀ y ∈ Node.writtenKinds, x.isA y = decide (y = r)) : n.IsSettled r := by
  obtain ⟨l, v, x, rfl, hc, hx, hv⟩ := h.exists_value
  obtain ⟨hne, hnamed, hrole⟩ := hkinds x hx
  exact ⟨Node.hasRole_of_cls (n := .mk l [v]) hc hrole, Formatter.not_hasQuotedName_of_parent hc hnamed hv,
    fun f depth => settle_equals_of_value hc hne hv⟩

theorem CanonicalAttribute.isSettled {n : Node} (h : CanonicalAttribute n) :
    n.IsSettled .attribute := CanonicalPair.isSettled h (by decide)

theorem CanonicalField.isSettled {n : Node} (h : CanonicalField n) : n.IsSettled .field :=
  CanonicalPair.isSettled h (by decide)

theorem isSettled_leaf {l : Label} {k j : Kind} (hc : l.cls = .of k) (hne : k ≠ .expression)
    (hnamed : (k.isA .customTextAttribute || k.isA .customExpressionAttribute) = false)
    (hrole : k ≠ .rawExpression ∧ ∀ y ∈ Node.writtenKinds, k.isA y = decide (y = j)) :
    Node.IsSettled j (.mk l []) :=
  ⟨Node.hasRole_of_cls (n := .mk l []) hc hrole,
    Node.not_hasQuotedName_of_leaf (n := .mk l []) hc hnamed rfl,
    fun _ _ => Node.settle_leaf_equals hc hne⟩

theorem CanonicalKey.isSettled {n : Node} (h : CanonicalKey n) : n.IsSettled .key := by
  cases h with
  | mk hc _ _ => exact isSettled_leaf hc nofun rfl (by decide)

theorem CanonicalSpread.isSettled {n : Node} (h : CanonicalSpread n) : n.IsSettled .spread := by
  cases h with
  | mk hc he =>
    exact ⟨Node.hasRole_of_cls (n := .mk _ [_]) hc (by decide),
      Formatter.not_hasQuotedName_of_parent hc rfl (.inr he),
      fun _ _ => settle_equals_of_value hc nofun (.inr he)⟩

/-- A block equals itself as it is written and read back, if all that stands in it does. -/
theorem isSettled_block {l : Label} {x i j : Kind} {as bs cs : List Node} (hc : l.cls = .of x)
    (hx : x = .element ∨ x = .component) (has : ∀ n ∈ as, n.IsSettled i)
    (hbs : ∀ n ∈ bs, n.IsSettled j) (hcs : ∀ n ∈ cs, n.IsSettled .bodyNode)
    (hkinds : Node.writtenKinds.filter (fun y => y = i || y = j || y = .bodyNode) =
      [i, j, .bodyNode])
    (hdistinct : i ≠ j ∧ i ≠ .bodyNode ∧ j ≠ .bodyNode) :
    Node.IsSettled .bodyNode (.mk l (as ++ bs ++ cs)) := by
  have hall : ∀ n ∈ as ++ bs ++ cs, ∃ k, n.IsSettled k := by
    intro n hn
    rcases List.mem_append.mp hn with hn | hn
    · rcases List.mem_append.mp hn with hn | hn
      · exact ⟨i, has n hn⟩
      · exact ⟨j, hbs n hn⟩
    · exact ⟨.bodyNode, hcs n hn⟩
  refine ⟨Node.hasRole_of_cls (n := .mk l _) hc ?_, ?_, fun f depth => ?_⟩
  · rcases hx with rfl | rfl <;> decide
  · rw [Node.hasQuotedName_mk_iff]
    rintro (hq | ⟨n, hn, hq⟩)
    · rw [Label.isQuotedName, Label.isA, Label.isA, hc] at hq
      rcases hx with rfl | rfl <;> cases hq
    · obtain ⟨k, hk⟩ := hall n hn
      exact hk.named hq
  · refine Node.settle_equals ?_ (fun he => ?_) fun n hn => ?_
    · exact Node.arranged_of_hasRole (fun n hn => (has n hn).role) (fun n hn => (hbs n hn).role)
        (fun n hn => (hcs n hn).role) hkinds hdistinct
    · rw [hc] at he
      rcases hx with rfl | rfl <;> cases he
    · obtain ⟨k, hk⟩ := hall n hn
      exact hk.equals f (depth + 1)

theorem CanonicalNode.isSettled {n : Node} (h : CanonicalNode n) : n.IsSettled .bodyNode := by
  induction h with
  | text hc _ _ => exact isSettled_leaf hc nofun rfl (by decide)
  | decoration hc _ _ => exact isSettled_leaf hc nofun rfl (by decide)
  | element hc _ _ _ hkeys hattributes _ ih =>
    exact isSettled_block hc (.inl rfl) (fun n hn => (hkeys n hn).isSettled)
      (fun n hn => (hattributes n hn).isSettled) ih (by decide) (by decide)
  | component hc _ _ _ hfields _ hspreads _ ih =>
    exact isSettled_block hc (.inr rfl) (fun n hn => (hfields n hn).isSettled)
      (fun n hn => (hspreads n hn).isSettled) ih (by decide) (by decide)

/-- Nodes of one role are of no kind that is written elsewhere. -/
theorem Node.filter_kind_of_hasRole {j k : Kind} {ns : List Node}
    (h : ∀ n : Node, n ∈ ns → n.HasRole j) (hk : k ∈ writtenKinds) (hne : k ≠ j) :
    (ns.filter fun (n : Node) => n.kind = k) = [] := by
  refine List.filter_eq_nil_iff.mpr fun n hn => ?_
  have hisA := (h n hn).2 k hk
  have hself : ∀ x ∈ writtenKinds, x.isA x = true := by decide
  rw [decide_eq_false hne] at hisA
  simp only [decide_eq_true_eq]
  rintro rfl
  rw [isA, Label.isA, NodeClass.isA, ← kind, hself _ hk] at hisA
  cases hisA

theorem CanonicalNode.placed {n : Node} (h : CanonicalNode n) :
    ∀ m, Placed Heads.canonical m n := by
  induction h with
  | text hc hb hq => exact fun _ => .text hc hb hq
  | decoration hc hs hs' => exact fun _ => .decoration hc hs hs'
  | @element l p keys attributes body hc hp htag hlength hkeys hattributes hbody ih =>
    refine fun _ => .element hc hp htag ?_ ?_
    · simp only [List.mem_append, or_imp, forall_and]
      refine ⟨⟨fun c hm => ?_, fun c hm => (hattributes c hm).placed⟩, fun c hm => ih c hm _⟩
      cases hkeys c hm with
      | mk hc hb hq => exact .key hc hb hq
    · have hattributes' := Node.filter_kind_of_hasRole (k := .key)
        (fun c hm => (hattributes c hm).isSettled.role) (by decide) (by decide)
      have hbody' := Node.filter_kind_of_hasRole (k := .key)
        (fun c hm => (hbody c hm).isSettled.role) (by decide) (by decide)
      rw [List.filter_append, List.filter_append, hattributes', hbody', List.append_nil,
        List.append_nil]
      exact (List.length_filter_le _ _).trans hlength
  | @component l p fields spreads body hc hp hpath htag hfields hlength hspreads hbody ih =>
    refine fun _ => .component hc hp hpath htag ?_ ?_
    · simp only [List.mem_append, or_imp, forall_and]
      refine ⟨⟨fun c hm => (hfields c hm).placed, fun c hm => ?_⟩, fun c hm => ih c hm _⟩
      cases hspreads c hm with
      | mk hc he => exact .spread hc he
    · have hfields' := Node.filter_kind_of_hasRole (k := .spread)
        (fun c hm => (hfields c hm).isSettled.role) (by decide) (by decide)
      have hbody' := Node.filter_kind_of_hasRole (k := .spread)
        (fun c hm => (hbody c hm).isSettled.role) (by decide) (by decide)
      rw [List.filter_append, List.filter_append, hfields', hbody', List.nil_append,
        List.append_nil]
      exact (List.length_filter_le _ _).trans hlength

/-- A document in canonical form can be written with any indent, and what is written is read as a
document that equals it. -/
theorem read_write_canonical (d : Node) (h : IsCanonicalDocument d) (width start : Int)
    (origin : Bool) : ∃ t e, d.write ⟨width, start, .tidy⟩ = .ok t ∧ read origin t = .ok e ∧
      e.equals d = true := by
  obtain ⟨hc, hnodes⟩ := h
  obtain ⟨t, hwrites, hread⟩ := Placed.reread (Heads.canonical_readable ⟨width, start, .tidy⟩) rfl
    (fun n hn => (hnodes n hn).placed .root) fun n hn => (hnodes n hn).isSettled.named
  obtain ⟨e, he, hec, hchildren⟩ := hread origin
  refine ⟨t, e, ?_, he, ?_⟩
  · rw [Node.write_document _ hc]
    exact hwrites.result
  · have hwritten : d.children.filter Node.isWritten = d.children :=
      List.filter_eq_self.mpr fun n hn => (hnodes n hn).isSettled.role.1
    rw [Node.settledRoots, hwritten] at hchildren
    obtain ⟨l, cs⟩ := d
    obtain ⟨k, es⟩ := e
    have hl : l.cls = .of .document := hc
    have hk : k.cls = .of .document := hec
    rw [Node.equals, ← Node.equalsAll_forgetOrigin]
    have hes : es.map Node.forgetOrigin = cs.map (Node.settle ⟨width, start, .tidy⟩ start) :=
      hchildren
    have hequals : Node.equalsAll (cs.map (Node.settle ⟨width, start, .tidy⟩ start)) cs = true :=
      Node.equalsAll_map fun n hn => (hnodes n hn).isSettled.equals _ _
    rw [hes, hequals, Label.same, Label.isA, hk, hl]
    rfl

/-- A call is a canonical expression. -/
theorem isCanonical_call : IsCanonical "f(x)".toList := by
  have hlex : lex .expression "f(x)".toList = [.token ⟨0, ['f'], .text⟩,
      .token ⟨1, ['('], .bracket⟩,
      .context .group [.token ⟨2, ['x'], .text⟩, .token ⟨3, [')'], .bracket⟩]] := rfl
  refine ⟨⟨?_, ?_, ?_⟩, ?_, (by decide), ?_, ?_, ?_⟩
  · rw [hlex]
    intro c hc
    simp only [Item.contexts, Item.contextsAll, List.append_nil, List.nil_append, List.mem_cons,
      List.not_mem_nil, or_false] at hc
    rcases hc with rfl | rfl
    all_goals
      refine ⟨?_, (by decide), (by decide)⟩
      simp only [Item.opened, List.forall_mem_cons, List.not_mem_nil, false_implies, implies_true,
        and_true]
      constructor <;> constructor <;> simp [Item.isClosed, Item.closedBy?]
  · rw [hlex]
    simp [Item.CloserFree]
  · rw [hlex]
    simp [Item.lexemes, Item.tokensAll, Item.tokens, Token.lexeme, Lexeme.LooseFree, isLoose,
      Lexeme.textOf]
  · constructor <;> (rintro c ⟨⟩; decide)
  · rw [hlex]
    simp
  · rw [expressionTokens, hlex]
    simp [Item.tokensAll, Item.tokens, Token.lexeme, Lexeme.isLineComment]
  · rw [expressionTokens, hlex]
    simp [Item.tokensAll, Item.tokens]

/-- A page with an element inside a component. -/
def samplePage : Node :=
  .bare .document
    [.textual .component "ui::Card".toList
      [.textual .expressionField "size".toList [.textual .expression "f(x)".toList],
       .bare .spread [.textual .expression "f(x)".toList],
       .textual .element "p".toList
         [.textual .key "main".toList,
          .textual .textAttribute "class".toList [.textual .string "wide".toList],
          .textual .eventHandler "onclick".toList [.textual .expression "f(x)".toList],
          .textual .text "Hello".toList]]]

theorem samplePage_canonical : IsCanonicalDocument samplePage := by
  have hvalue : IsExpression IsCanonicalValue (.textual .expression "f(x)".toList) :=
    ⟨_, rfl, rfl, rfl, isCanonical_call, fun b _ => by simp [quote]⟩
  refine ⟨rfl, fun n hn => ?_⟩
  obtain rfl := List.mem_singleton.mp hn
  refine @CanonicalNode.component _ _ [_] [_] [_] rfl rfl (by decide +kernel) (by decide +kernel) ?_
    (Nat.le_refl 1) ?_ ?_
  · rintro c hc
    obtain rfl := List.mem_singleton.mp hc
    exact .expression rfl rfl (by decide +kernel) (by decide) hvalue
  · rintro c hc
    obtain rfl := List.mem_singleton.mp hc
    exact .mk rfl ⟨_, rfl, rfl, rfl, isCanonical_call⟩
  · rintro c hc
    obtain rfl := List.mem_singleton.mp hc
    refine @CanonicalNode.element _ _ [_] [_, _] [_] rfl rfl (by decide +kernel) (Nat.le_refl 1) ?_ ?_
      ?_
    · rintro c hc
      obtain rfl := List.mem_singleton.mp hc
      exact .mk rfl rfl (by decide)
    · rintro c hc
      rcases List.mem_pair.mp hc with rfl | rfl
      · exact .text rfl rfl (by decide +kernel) (by decide) ⟨_, rfl, rfl, rfl, by decide⟩
      · exact .handler rfl rfl (by decide +kernel) (by decide) hvalue
    · rintro c hc
      obtain rfl := List.mem_singleton.mp hc
      exact .text rfl rfl (by decide)

theorem read_write_samplePage : IsCanonicalDocument samplePage ∧
    ∃ t e, samplePage.write ⟨4, 0, .tidy⟩ = .ok t ∧ read false t = .ok e ∧
      e.equals samplePage = true :=
  ⟨samplePage_canonical, read_write_canonical samplePage samplePage_canonical 4 0 false⟩

end BlockMarkup
