import BlockMarkup.Proofs.Canonical

/-!
# BlockMarkup.Proofs.Layout.Accepted

Trees that are made by hand, with their children in any order. What is written of one is accepted, if
no component in it has a second spread or the name of an element, and no element a second key or a
string under the name of a key (`read_of_handmade`). The classes of attributes and fields need not
agree with their names: they are read by their names. Expressions may be all that is read as it was
written, such as single names (`read_of_handmade_names`).
-/

namespace BlockMarkup

open Text

/-- A name with its value. The class says whether that is a string, and nothing about the name; a
string has no reserved name. -/
inductive HandmadePair (P : List Char → Prop) (ofText : Kind) (ofExpression : List Kind)
    (reserved : List Char → Prop) : Node → Prop where
  | text {l : Label} {p : List Char} {v : Node} : l.cls = .of ofText → l.head = some p →
      isName p = true → ¬ reserved p → IsString v →
      HandmadePair P ofText ofExpression reserved (.mk l [v])
  | expression {l : Label} {p : List Char} {v : Node} {k : Kind} : k ∈ ofExpression →
      l.cls = .of k → l.head = some p → isName p = true → IsExpression P v →
      HandmadePair P ofText ofExpression reserved (.mk l [v])

theorem HandmadePair.exists_cls {P : List Char → Prop} {i : Kind} {ks : List Kind}
    {reserved : List Char → Prop} {n : Node} (h : HandmadePair P i ks reserved n) :
    ∃ k ∈ i :: ks, n.cls = .of k := by
  cases h with
  | text hc _ _ _ _ => exact ⟨i, List.mem_cons_self, hc⟩
  | expression hk hc _ _ _ => exact ⟨_, List.mem_cons_of_mem _ hk, hc⟩

def HandmadeAttribute (X : Heads) : Node → Prop :=
  HandmadePair X.value .textAttribute [.expressionAttribute, .eventHandler] (· = "key".toList)

def HandmadeField (X : Heads) : Node → Prop :=
  HandmadePair X.value .formattedField [.expressionField, .handlerField] fun _ => False

inductive HandmadeSpread (X : Heads) : Node → Prop where
  | mk {l : Label} {e : Node} : l.cls = .of .spread → IsExpression X.spread e →
      HandmadeSpread X (.mk l [e])

/-- A body node made by hand. -/
inductive Handmade (X : Heads) : Node → Prop where
  | text {l : Label} {b : List Char} : l.cls = .of .text → l.head = some b →
      isQuotable b = true → Handmade X (.mk l [])
  | decoration {l : Label} {s : List Char} : l.cls = .of .decoration → l.head = some s →
      X.decoration s → Handmade X (.mk l [])
  | rawExpression {l : Label} {cs : List Node} : l.cls = .of .rawExpression → Handmade X (.mk l cs)
  | element {l : Label} {p : List Char} {cs : List Node} : l.cls = .of .element →
      l.head = some p → isTag p = true →
      (∀ c : Node, c ∈ cs → c.isA .key = true ∨ c.isA .attribute = true ∨ c.isA .bodyNode = true) →
      (∀ c : Node, c ∈ cs → c.isA .key = true → CanonicalKey c) →
      (∀ c : Node, c ∈ cs → c.isA .attribute = true → HandmadeAttribute X c) →
      (∀ c : Node, c ∈ cs → c.isA .bodyNode = true → Handmade X c) →
      (Node.childrenOf (.mk l cs) .key).length ≤ 1 → Handmade X (.mk l cs)
  | component {l : Label} {p : List Char} {cs : List Node} : l.cls = .of .component →
      l.head = some p → isPath p = true → isTag p = false →
      (∀ c : Node, c ∈ cs → c.isA .field = true ∨ c.isA .spread = true ∨ c.isA .bodyNode = true) →
      (∀ c : Node, c ∈ cs → c.isA .field = true → HandmadeField X c) →
      (∀ c : Node, c ∈ cs → c.isA .spread = true → HandmadeSpread X c) →
      (∀ c : Node, c ∈ cs → c.isA .bodyNode = true → Handmade X c) →
      (Node.childrenOf (.mk l cs) .spread).length ≤ 1 → Handmade X (.mk l cs)

namespace Script

/-- What the script writes is read as nodes without a flaw, and at most `count` of them are of kind
`k`. -/
def Accepted (s : Script) (m : Mode) (k : Kind) (count : Nat) : Prop :=
  ∃ t ns, s.Writes t ∧ Reading m t ns ∧ Flawless ns ∧
    (ns.filter fun (n : Node) => n.kind = k).length ≤ count

namespace Accepted

variable {a b : Script} {m : Mode} {k : Kind} {c d : Nat}

theorem empty : Script.empty.Accepted m k 0 :=
  ⟨[], [], .empty, .nil, .nil, Nat.le_refl 0⟩

theorem append (ha : a.Accepted m k c) (hb : b.Accepted m k d) : (a ++ b).Accepted m k (c + d) := by
  obtain ⟨s, ns, hs, hns, hflawless, hc⟩ := ha
  obtain ⟨t, ms, ht, hms, hflawless', hd⟩ := hb
  refine ⟨s ++ t, ns ++ ms, hs.append ht, hns.append hms,
    Flawless.append_iff.mpr ⟨hflawless, hflawless'⟩, ?_⟩
  rw [List.filter_append, List.length_append]
  exact Nat.add_le_add hc hd

theorem concat_map {g : Node → Script} {ns : List Node}
    (h : ∀ n : Node, n ∈ ns → (g n).Accepted m k c) :
    (concat (ns.map g)).Accepted m k (ns.length * c) := by
  induction ns with
  | nil =>
    rw [List.length_nil, Nat.zero_mul]
    exact empty
  | cons n ns ih =>
    have hrest := ih fun n' hn => h n' (List.mem_cons_of_mem _ hn)
    rw [List.length_cons, Nat.add_mul, Nat.one_mul, Nat.add_comm]
    exact (h n List.mem_cons_self).append hrest

/-- The children of one kind. -/
theorem childrenOf {n : Node} {j : Kind} {g : Node → Script}
    (h : ∀ x : Node, x ∈ n.children → x.isA j = true → (g x).Accepted m k c) :
    (concat ((n.childrenOf j).map g)).Accepted m k ((n.childrenOf j).length * c) := by
  refine concat_map fun x hx => ?_
  obtain ⟨hmem, hj⟩ := Node.mem_childrenOf.mp hx
  exact h x hmem hj

theorem of_node {t : List Char} {n : Node} (hwrites : a.Writes t) (hreading : Reading m t [n])
    (hflawless : Flawless [n]) : a.Accepted m k 1 :=
  ⟨t, [n], hwrites, hreading, hflawless, List.length_filter_le _ _⟩

theorem of_node_ne {t : List Char} {n : Node} (hwrites : a.Writes t) (hreading : Reading m t [n])
    (hflawless : Flawless [n]) (hk : n.kind ≠ k) : a.Accepted m k 0 :=
  ⟨t, [n], hwrites, hreading, hflawless, by simp [hk]⟩

end Accepted
end Script

namespace Formatter

variable {X : Heads} (f : Formatter) (depth : Int)

/-- A named value: what is written of it, and what the value is read as. -/
theorem nameValue_of_handmade (hX : X.Readable f) (hr : f.renderer = .tidy) {i : Kind}
    {ks : List Kind} {reserved : List Char → Prop} {n : Node}
    (h : HandmadePair X.value i ks reserved n) : ∃ p s v,
      (f.nameValue depth n).Writes (f.margin depth ++ (p ++ [':', ' '] ++ s ++ ['\n'])) ∧
        isName p = true ∧ IsValueOf s v ∧ Flawless [v] ∧ ¬ (reserved p ∧ v.kind = .string) := by
  have hvalue : ∀ {l : Label} {p : List Char} {v : Node}, l.head = some p →
      (IsString v ∨ IsExpression X.value v) → ∃ s,
        (f.nameValue depth (.mk l [v])).Writes
          (f.margin depth ++ (p ++ [':', ' '] ++ s ++ ['\n'])) ∧
        IsValueOf s (v.settle f (depth + 1)) ∧ Flawless [v.settle f (depth + 1)] := by
    intro l p v hp hv
    obtain ⟨s, hwrites, hvalue⟩ := f.value_settles hX hr depth hv (p ++ [':', ' '])
    have hhead : Node.head (.mk l [v]) = some p := hp
    refine ⟨s, ?_, hvalue, Node.flawless_settle f _ v (.of_value hv)⟩
    rw [nameValue, hhead, value?_of_isValue hv]
    exact hwrites
  cases h with
  | @text l p v _ hp hname hreserved hv =>
    obtain ⟨s, hwrites, hread, hflawless⟩ := hvalue hp (.inl hv)
    exact ⟨p, s, _, hwrites, hname, hread, hflawless, fun h => hreserved h.1⟩
  | @expression l p v k _ _ hp hname hv =>
    obtain ⟨s, hwrites, hread, hflawless⟩ := hvalue hp (.inr hv)
    refine ⟨p, s, _, hwrites, hname, hread, hflawless, fun h => ?_⟩
    rw [Node.kind_settle, kind_of_isExpression hv] at h
    cases h.2

theorem attribute_accepted (hX : X.Readable f) (hr : f.renderer = .tidy) {n : Node}
    (h : HandmadeAttribute X n) : (f.attributeLines depth n).Accepted .element .key 0 := by
  obtain ⟨p, s, v, hwrites, hname, hvalue, hflawless, hkey⟩ := f.nameValue_of_handmade depth hX hr h
  have hlines : f.attributeLines depth n = f.nameValue depth n := by
    obtain ⟨k, hk, hc⟩ := HandmadePair.exists_cls h
    unfold attributeLines
    rw [hc]
    simp only [List.mem_cons, List.not_mem_nil, or_false] at hk
    rcases hk with rfl | rfl | rfl <;> rfl
  have hkind : (attributeKind p (v.kind = .string)).isA .invalid = false ∧
      attributeKind p (v.kind = .string) ≠ .key := by
    rcases attributeKind_cases p (v.kind = .string) with hk | hk | hk | hk | hk <;> rw [hk] <;> decide
  rw [hlines]
  exact .of_node_ne hwrites (reading_attribute (f.blank_margin depth) hname hvalue hkey)
    (.of_cls rfl hkind.1 hflawless) hkind.2

theorem field_accepted (hX : X.Readable f) (hr : f.renderer = .tidy) {n : Node}
    (h : HandmadeField X n) : (f.fieldLines depth n).Accepted .component .spread 0 := by
  obtain ⟨p, s, v, hwrites, hname, hvalue, hflawless, -⟩ := f.nameValue_of_handmade depth hX hr h
  have hlines : f.fieldLines depth n = f.nameValue depth n := by
    obtain ⟨k, hk, hc⟩ := HandmadePair.exists_cls h
    unfold fieldLines
    rw [hc]
    simp only [List.mem_cons, List.not_mem_nil, or_false] at hk
    rcases hk with rfl | rfl | rfl <;> rfl
  have hkind : (fieldKind p (v.kind = .string)).isA .invalid = false ∧
      fieldKind p (v.kind = .string) ≠ .spread := by
    rcases fieldKind_cases p (v.kind = .string) with hk | hk | hk <;> rw [hk] <;> decide
  rw [hlines]
  exact .of_node_ne hwrites (reading_field (f.blank_margin depth) hname hvalue)
    (.of_cls rfl hkind.1 hflawless) hkind.2

theorem key_accepted {n : Node} (h : CanonicalKey n) (hasAttributes : Bool) :
    (f.keyLine depth hasAttributes n).Accepted .element .key 1 := by
  cases h with
  | @mk l b hc hb hq =>
    obtain ⟨t, hwrites, hreading⟩ := f.key_settles depth hc hb hq hasAttributes
    exact .of_node hwrites hreading (Node.flawless_settle f _ _ (.of_cls hc rfl .nil))

theorem spread_accepted (hX : X.Readable f) (hr : f.renderer = .tidy) {n : Node}
    (h : HandmadeSpread X n) : (f.spreadLines depth n).Accepted .component .spread 1 := by
  cases h with
  | @mk l e hc he =>
    obtain ⟨t, hwrites, hreading⟩ := f.spread_settles hX hr depth hc he
    exact .of_node hwrites hreading
      (Node.flawless_settle f _ _ (.of_cls hc rfl (.of_value (.inr he))))

end Formatter

/-- What is written of a body node made by hand is accepted in every body, and never as a key or a
spread. -/
theorem Handmade.accepted {X : Heads} {f : Formatter} {n : Node} (h : Handmade X n)
    (hX : X.Readable f) (hr : f.renderer = .tidy) : ∀ k, k = .key ∨ k = .spread →
      ∀ depth m, Mode.isBody m = true → (f.node depth n).Accepted m k 0 := by
  induction h with
  | @text l b hc hb hq =>
    intro k hk depth m hm
    unfold Formatter.node
    rw [hc, hb]
    refine .of_node_ne (f.line_writes depth _) (reading_text hm (f.blank_margin depth) hq)
      (.of_cls rfl rfl .nil) ?_
    rcases hk with rfl | rfl <;> exact nofun
  | @decoration l s hc hs hX' =>
    intro k hk depth m hm
    have hwrites := f.headLine_writes depth s []
    rw [List.append_nil] at hwrites
    unfold Formatter.node
    rw [hc, hs]
    refine .of_node_ne hwrites
      (reading_decoration hm (f.blank_margin depth) (hX.decoration s hX')) (.of_cls rfl rfl .nil) ?_
    rcases hk with rfl | rfl <;> exact nofun
  | @rawExpression l cs hc =>
    intro k _ depth m _
    unfold Formatter.node
    rw [hc]
    exact .empty
  | @element l p cs hc hp htag hroles hkeys hattributes _ hcount ih =>
    intro k hk depth m hm
    have hkeyLines := Script.Accepted.childrenOf (n := .mk l cs) fun x hx hrole =>
      f.key_accepted (depth + 1) (hkeys x hx hrole)
        !(Node.childrenOf (.mk l cs) .attribute).isEmpty
    have hattributeLines := Script.Accepted.childrenOf (n := .mk l cs) fun x hx hrole =>
      f.attribute_accepted (depth + 1) hX hr (hattributes x hx hrole)
    have hbody := Script.Accepted.childrenOf (n := .mk l cs) fun x hx hrole =>
      ih x hx hrole .key (.inl rfl) (depth + 1) .element rfl
    obtain ⟨t, ns, hwrites, hreading, hflawless, hlength⟩ :=
      (hkeyLines.append hattributeLines).append hbody
    simp only [Nat.mul_one, Nat.mul_zero, Nat.add_zero] at hlength
    have hblock := ((f.headLine_writes depth p [' ', '\x7b']).append hwrites).append
      (f.line_writes depth ['\x7d'])
    rw [f.node_element_of_roles depth hc hp hroles hcount]
    refine .of_node_ne ?_
      (reading_element hm (f.blank_margin depth) htag hreading (hlength.trans hcount))
      (.of_cls rfl rfl hflawless) ?_
    · simpa only [Script.append_assoc] using hblock
    · rcases hk with rfl | rfl <;> exact nofun
  | @component l p cs hc hp hpath htag hroles hfields hspreads _ hcount ih =>
    intro k hk depth m hm
    have hfieldLines := Script.Accepted.childrenOf (n := .mk l cs) fun x hx hrole =>
      f.field_accepted (depth + 1) hX hr (hfields x hx hrole)
    have hspreadLines := Script.Accepted.childrenOf (n := .mk l cs) fun x hx hrole =>
      f.spread_accepted (depth + 1) hX hr (hspreads x hx hrole)
    have hbody := Script.Accepted.childrenOf (n := .mk l cs) fun x hx hrole =>
      ih x hx hrole .spread (.inr rfl) (depth + 1) .component rfl
    obtain ⟨t, ns, hwrites, hreading, hflawless, hlength⟩ :=
      (hfieldLines.append hspreadLines).append hbody
    simp only [Nat.mul_one, Nat.mul_zero, Nat.add_zero, Nat.zero_add] at hlength
    have hblock := ((f.headLine_writes depth p [' ', '\x7b']).append hwrites).append
      (f.line_writes depth ['\x7d'])
    rw [f.node_component_of_roles depth hc hp hroles]
    refine .of_node_ne ?_
      (reading_component hm (f.blank_margin depth) hpath htag hreading (hlength.trans hcount))
      (.of_cls rfl rfl hflawless) ?_
    · simpa only [Script.append_assoc] using hblock
    · rcases hk with rfl | rfl <;> exact nofun

/-- A document of such nodes can be written, and what is written is accepted. -/
theorem read_of_handmade {X : Heads} {f : Formatter} {d : Node} (hX : X.Readable f)
    (hr : f.renderer = .tidy) (hc : d.cls = .of .document) (h : ∀ n ∈ d.children, Handmade X n) :
    ∃ t, d.write f = .ok t ∧ ∀ origin, ∃ e, read origin t = .ok e := by
  have haccepted : (f.nodes d.children).Accepted .root .key (d.children.length * 0) :=
    .concat_map fun n hn => (h n hn).accepted hX hr .key (.inl rfl) f.startIndent .root rfl
  obtain ⟨t, ns, hwrites, hreading, hflawless, -⟩ := haccepted
  refine ⟨t, ?_, fun origin => ?_⟩
  · rw [Node.write_document _ hc]
    exact hwrites.result
  · obtain ⟨e, he, -⟩ := hreading.read hflawless origin
    exact ⟨e, he⟩

/-! ## Single names -/

theorem endsRun_of_isWord {c : Char} (h : isWord c = true) : Pattern.endsRun c = false := by
  have hmarks : ['(', ')', '[', ']', '\x7b', '\x7d', ',', '"', '\'', '/'].all (!isWord ·) = true := by
    decide
  rw [Pattern.endsRun, isBlank_eq_false_of_isWord h, Bool.false_or, ← Bool.not_eq_true,
    List.contains_iff_mem]
  intro hmem
  have hmark := List.all_eq_true.mp hmarks c hmem
  rw [h] at hmark
  cases hmark

theorem ne_mark_of_isName {p : List Char} (h : isName p = true) :
    ∀ c ∈ [',', ')', ']', '\x7d'], p ≠ [c] := by
  have hmarks : [',', ')', ']', '\x7d'].all (fun c => !isName [c]) = true := by decide
  rintro c hc rfl
  have hmark := List.all_eq_true.mp hmarks c hc
  rw [h] at hmark
  cases hmark

/-- A name is one token of an expression. -/
theorem lex_of_isName {p : List Char} (h : isName p = true) :
    lex .expression p = [.token ⟨0, p, .text⟩] := by
  have hne := isName_ne_nil h
  have hword : ∀ c ∈ p, isWord c = true := by
    cases p with
    | nil => exact List.forall_mem_nil _
    | cons c p =>
      simp only [isName, startsName, Bool.and_eq_true, List.all_eq_true] at h
      exact List.forall_mem_cons.mpr ⟨h.1.1, h.2⟩
  have hfits : Lexeme.Fits [] ⟨p, .text⟩ :=
    .run hne (fun c hc => endsRun_of_isWord (hword c hc)) (by rintro c ⟨⟩) (Lexeme.isLoose_nil p)
  obtain ⟨r, hr⟩ := hfits.shared rfl (ne_mark_of_isName h ',' (by decide))
  have hfirst : Rule.first? Mode.expression.rules (p ++ []) = some (p.length, r) := by
    obtain ⟨c, s, hp, hmark⟩ := hr.head
    refine (Rule.first?_cons_none ?_).trans hr.first
    obtain rfl : p = c :: s := hp
    refine Pattern.length?_eq_none ?_
    simp only [List.mem_cons, List.not_mem_nil, or_false, not_or] at hmark
    simp [Pattern.opensWith, hmark]
  have hreads := Reads.stay_text (c := Cursor.start p) (List.append_nil p).symm hne hfirst hr.effect
    hr.move
  exact lex_eq_of_scans isBottom_expression (hreads _ _ (Scans.stop rfl))

theorem isCanonical_of_isName {p : List Char} (h : isName p = true) : IsCanonical p := by
  have hlex := lex_of_isName h
  have htokens : expressionTokens p = [⟨0, p, .text⟩] := by
    rw [expressionTokens, hlex]
    rfl
  have hfeed : '\n' ∉ p := fun hmem => absurd (not_blank_of_isName h _ hmem) (by decide)
  have hmark := ne_mark_of_isName h
  refine ⟨⟨?_, ?_, ?_⟩, trimmed_of_isName h, isName_ne_nil h, ?_, ?_, ?_⟩
  · rw [hlex]
    intro c hc
    simp only [Item.contexts, Item.contextsAll, List.append_nil, List.mem_singleton] at hc
    subst hc
    refine ⟨?_, by rintro ⟨⟩, by rintro ⟨⟩⟩
    simp only [Item.opened, List.forall_mem_singleton]
    constructor <;> simp
  · rw [hlex]
    intro t ht d hd
    obtain rfl := Item.token.inj (List.mem_singleton.mp ht)
    exact hmark d (List.mem_cons_of_mem _ hd)
  · rw [hlex]
    simp [Item.lexemes, Item.tokensAll, Item.tokens, Token.lexeme, Lexeme.LooseFree, isLoose,
      Lexeme.textOf]
  · rw [hlex]
    simpa using hmark ',' (by decide)
  · rw [htokens]
    simp [Token.lexeme, Lexeme.isLineComment]
  · rw [htokens]
    simp [hfeed]

/-- Expressions that are single names; there are no annotations. -/
def Heads.name : Heads :=
  ⟨fun s => isName s = true, fun s => isName s = true, fun _ => False, fun _ => False⟩

theorem Heads.name_readable (f : Formatter) : Heads.name.Readable f where
  value p hp depth := by
    have hcanonical := isCanonical_of_isName hp
    rw [hcanonical.hung_tidy]
    refine hcanonical.isValueText fun b _ he => ?_
    rw [he, quote_eq] at hp
    cases hp
  spread p hp depth := by
    have hcanonical := isCanonical_of_isName hp
    rw [hcanonical.hung_tidy]
    exact hcanonical.isSpreadText
  decoration _ := False.elim

/-- Where all expressions are single names, what is written is accepted. -/
theorem read_of_handmade_names {f : Formatter} {d : Node} (hr : f.renderer = .tidy)
    (hc : d.cls = .of .document) (h : ∀ n ∈ d.children, Handmade Heads.name n) :
    ∃ t, d.write f = .ok t ∧ ∀ origin, ∃ e, read origin t = .ok e :=
  read_of_handmade (Heads.name_readable f) hr hc h

end BlockMarkup
