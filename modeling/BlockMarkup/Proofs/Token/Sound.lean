import BlockMarkup.Proofs.Token.Opener

/-!
# BlockMarkup.Proofs.Token.Sound

When nested tokens are in order, stated on the tokens alone: `Sound m items` for one context, and
`SoundTree` for a context with all contexts in it. A context that a match left ends in its closing
token, and one that the end of the text left does not (`Formed.closed_iff`).
-/

namespace BlockMarkup

open Text

namespace Item

/-- The tokens of a context, each with the items of the context that directly follows it. -/
def opened : List Item → List (Token × List Item)
  | [] => []
  | .context _ _ :: is => opened is
  | [.token t] => [(t, [])]
  | .token t :: .token u :: is => (t, []) :: opened (.token u :: is)
  | .token t :: .context _ sub :: is => (t, sub) :: opened is

mutual

/-- The contexts in an item, with their modes. -/
def contexts : Item → List (Mode × List Item)
  | .token _ => []
  | .context m items => (m, items) :: contextsAll items

def contextsAll : List Item → List (Mode × List Item)
  | [] => []
  | i :: is => contexts i ++ contextsAll is

end

/-- There is more than white space and line comments. -/
def HasValue (items : List Item) : Prop := ∃ i ∈ items, i.isTrailing = false

/-- The items are a string literal and white space. -/
def isLoneString (items : List Item) : Bool :=
  match items.filter fun i => !i.isBlank with
  | [.token t] => t.cls = .string
  | _ => false

end Item

theorem Item.isLoneString_iff {items : List Item} : isLoneString items = true ↔
    ∃ u, items.filter (fun i => !i.isBlank) = [.token u] ∧ u.cls = .string := by
  unfold isLoneString
  split
  · rename_i t ht
    simp [ht]
  · rename_i hne
    exact iff_of_false nofun fun ⟨u, hu, _⟩ => hne u hu

/-- The token of a key whose value is a string literal. -/
def isStringKey (p : Token × List Item) : Bool :=
  p.1.cls = .name && nameOf p.1 = "key".toList && Item.isLoneString (valueItems p.2)

/-- A token of mode `m`, with the items of the context that follows it, is in order. -/
structure SoundToken (m : Mode) (t : Token) (sub : List Item) : Prop where
  matched : t.cls ≠ .stray
  block : t.cls = .tag ∨ t.cls = .path → (Item.closedBy? ['\x7d'] sub).isSome = true
  brace : m.isBody = true → t.cls = .bracket → t.text = ['\x7b'] →
    (Item.closedBy? ['\x7d'] sub).isSome = true ∧ Item.HasValue sub.dropLast
  decorator : t.text = ['#', '['] ∨ t.text = ['#', '!', '['] → t.cls = .decorator →
    (Item.closedBy? [']'] sub).isSome = true
  group : m.isBody = false → t.cls = .bracket →
    t.text = ['('] ∨ t.text = ['['] ∨ t.text = ['\x7b'] → Item.isClosed sub = true
  name : t.cls = .name → Item.HasValue (valueItems sub)
  dots : t.cls = .operator → Item.HasValue sub

/-- A context is in order. -/
structure Sound (m : Mode) (items : List Item) : Prop where
  token : ∀ p ∈ Item.opened items, SoundToken m p.1 p.2
  key : m = .element → ((Item.opened items).filter isStringKey).length ≤ 1
  spread : m = .component →
    ((Item.opened items).filter fun p => p.1.cls = .operator).length ≤ 1

/-- A context and all contexts in it are in order. -/
def SoundTree (m : Mode) (items : List Item) : Prop :=
  ∀ c ∈ Item.contexts (.context m items), Sound c.1 c.2

/-! ## Contexts by their parts -/

/-- The items do not start with a context. -/
def StartsWithToken (items : List Item) : Prop := ∀ k sub rest, items ≠ .context k sub :: rest

theorem startsWithToken_nil : StartsWithToken [] := by
  intro k sub rest h
  cases h

theorem Formed.startsWithToken {m : Mode} {items : List Item} {left : Bool}
    (h : Formed m items left) : StartsWithToken items := by
  rintro k sub rest rfl
  exact Formed.not_context h

/-- The contexts below the items of a context are in order. -/
def SoundBelow (items : List Item) : Prop := ∀ c ∈ Item.contextsAll items, Sound c.1 c.2

theorem soundTree_iff {m : Mode} {items : List Item} :
    SoundTree m items ↔ Sound m items ∧ SoundBelow items := by
  simp [SoundTree, SoundBelow, Item.contexts]

theorem soundTree_nil (m : Mode) : SoundTree m [] := by
  rw [soundTree_iff]
  refine ⟨⟨?_, ?_, ?_⟩, ?_⟩ <;> simp [Item.opened, SoundBelow, Item.contextsAll]

theorem opened_token {t : Token} {items : List Item} (h : StartsWithToken items) :
    Item.opened (.token t :: items) = (t, []) :: Item.opened items := by
  cases items with
  | nil => rfl
  | cons i is =>
    cases i with
    | token u => simp only [Item.opened]
    | context k sub => exact absurd rfl (h k sub is)

theorem opened_push {t : Token} {inner : Mode} {sub items : List Item}
    (h : StartsWithToken items) :
    Item.opened (.token t :: (Item.nested inner sub ++ items)) = (t, sub) :: Item.opened items := by
  cases sub with
  | nil => exact opened_token h
  | cons i is => simp only [Item.nested, List.singleton_append, Item.opened]

theorem soundBelow_token {t : Token} {items : List Item} :
    SoundBelow (.token t :: items) ↔ SoundBelow items := by
  simp [SoundBelow, Item.contextsAll, Item.contexts]

theorem soundBelow_push {t : Token} {inner : Mode} {sub items : List Item} :
    SoundBelow (.token t :: (Item.nested inner sub ++ items)) ↔
      SoundTree inner sub ∧ SoundBelow items := by
  cases sub with
  | nil => simp [Item.nested, soundBelow_token, soundTree_nil]
  | cons i is =>
    simp only [SoundBelow, SoundTree, Item.nested, List.singleton_append, Item.contextsAll,
      Item.contexts, List.nil_append, List.mem_append]
    constructor
    · exact fun h => ⟨fun c hc => h c (.inl hc), fun c hc => h c (.inr hc)⟩
    · rintro ⟨h, h'⟩ c (hc | hc)
      · exact h c hc
      · exact h' c hc

theorem Item.contextsAll_append (is js : List Item) :
    contextsAll (is ++ js) = contextsAll is ++ contextsAll js := by
  induction is with
  | nil => rfl
  | cons i is ih => rw [List.cons_append, contextsAll, contextsAll, ih, List.append_assoc]

theorem Item.mem_contextsAll_nested {p : Mode × List Item} {m : Mode} {sub : List Item} :
    p ∈ contextsAll (nested m sub) ↔ sub ≠ [] ∧ p = (m, sub) ∨ p ∈ contextsAll sub := by
  cases sub with
  | nil => simp [nested, contextsAll]
  | cons i is => simp [nested, contextsAll, contexts]

theorem Item.mem_contextsAll_push {p : Mode × List Item} {t : Token} {m : Mode}
    {sub items : List Item} : p ∈ contextsAll (.token t :: (nested m sub ++ items)) ↔
      p ∈ contextsAll (nested m sub) ∨ p ∈ contextsAll items := by
  rw [contextsAll, contexts, List.nil_append, contextsAll_append, List.mem_append]

/-! ## Contexts and how they end -/

theorem Item.closedBy?_cons {c : List Char} {i j : Item} {is : List Item} :
    closedBy? c (i :: j :: is) = closedBy? c (j :: is) := by
  simp only [closedBy?, List.getLast?_cons_cons]

theorem Item.closedBy?_push {c : List Char} {t : Token} {k : Mode} {sub items : List Item}
    (hne : items ≠ []) :
    closedBy? c (.token t :: (nested k sub ++ items)) = closedBy? c items := by
  cases items with
  | nil => exact absurd rfl hne
  | cons i is =>
    cases sub with
    | nil => exact closedBy?_cons
    | cons j js =>
      rw [nested, List.singleton_append, closedBy?_cons, closedBy?_cons]
      exact nofun

/-- In mode `m`, the character `c` leaves the context. -/
def Mode.LeavesAt (m : Mode) (c : Char) : Prop :=
  ∀ rest, ∃ n r, Rule.first? m.rules (c :: rest) = some (n, r) ∧ r.move = .pop

theorem not_text_of_first? {m : Mode} {c : Char} {s rest : List Char} {n : Nat} {r : Rule}
    (hc : m.LeavesAt c) (h : Rule.first? m.rules (s ++ rest) = some (n, r))
    (hr : r.move ≠ .pop) : s ≠ [c] := by
  rintro rfl
  obtain ⟨n', r', h', hr'⟩ := hc rest
  rw [List.singleton_append, h'] at h
  cases h
  exact hr hr'

/-- A context that the end of the text left does not end in a closing token. -/
theorem Formed.not_closed {m : Mode} {c : Char} {items : List Item} {left : Bool}
    (h : Formed m items left) (hleft : left = false) (hc : m.LeavesAt c) :
    Item.closedBy? [c] items = none := by
  induction h with
  | stop => rfl
  | @stray m t rest items left hs hfirst hf ih =>
    cases items with
    | nil =>
      have hne : t.text ≠ [c] := by
        rintro he
        obtain ⟨n, r, h', -⟩ := hc rest
        rw [he, List.singleton_append, h'] at hfirst
        cases hfirst
      simp [Item.closedBy?, hne]
    | cons i is => rw [Item.closedBy?_cons]; exact ih hleft hc
  | @stay m r t items left hmove hmakes hf ih =>
    cases items with
    | nil =>
      obtain ⟨rest, hfirst⟩ := hmakes.first
      have hne := not_text_of_first? hc hfirst (by rw [hmove]; exact nofun)
      simp [Item.closedBy?, hne]
    | cons i is => rw [Item.closedBy?_cons]; exact ih hleft hc
  | close => cases hleft
  | leave => cases hleft
  | @push m inner r t c' back sub items subLeft left hmove hmakes _ hsub hrest hf _ ih =>
    cases items with
    | nil =>
      obtain ⟨rest, hfirst⟩ := hmakes.first
      have hne := not_text_of_first? hc hfirst (by rw [hmove]; exact nofun)
      cases sub with
      | nil => simp [Item.nested, Item.closedBy?, hne]
      | cons j js => simp [Item.nested, Item.closedBy?]
    | cons i is => rw [Item.closedBy?_push (by simp)]; exact ih hleft hc

/-- A context that a match left ends in the token of that match, or in what is before it. -/
theorem Formed.last_of_left {m : Mode} {items : List Item} {left : Bool} (h : Formed m items left)
    (hleft : left = true) (hm : ∀ r ∈ m.rules, r.move = .pop → r.effect ≠ .skip) :
    ∃ r t before, items = before ++ [.token t] ∧ r.move = .pop ∧ m.Makes r t := by
  induction h with
  | stop => cases hleft
  | stray _ _ _ ih =>
    obtain ⟨r, t, before, rfl, hr⟩ := ih hleft hm
    exact ⟨r, t, _ :: before, rfl, hr⟩
  | stay _ _ _ ih =>
    obtain ⟨r, t, before, rfl, hr⟩ := ih hleft hm
    exact ⟨r, t, _ :: before, rfl, hr⟩
  | close hmove hmakes => exact ⟨_, _, [], rfl, hmove, hmakes⟩
  | leave hr hmove hskip => exact absurd hskip (hm _ hr hmove)
  | @push m inner _ u _ _ sub items _ _ _ _ _ _ _ _ _ ih =>
    obtain ⟨r, t, before, rfl, hr⟩ := ih hleft hm
    refine ⟨r, t, .token u :: (Item.nested inner sub ++ before), ?_, hr⟩
    rw [List.cons_append, List.append_assoc]

theorem Mode.rule_of_brace (m : Mode) : m = .element ∨ m = .component ∨ m = .rawExpression →
    ∀ r ∈ m.rules, r.move = .pop → r = ⟨.closer, .emit .bracket, .pop⟩ := by
  rintro (rfl | rfl | rfl) <;> decide

theorem Mode.leavesAt_brace {m : Mode} (h : m = .element ∨ m = .component ∨ m = .rawExpression) :
    m.LeavesAt '\x7d' := by
  intro rest
  rcases h with rfl | rfl | rfl <;> exact ⟨1, ⟨.closer, .emit .bracket, .pop⟩, rfl, rfl⟩

/-- Bodies and raw expressions end in a closing brace if a match left them. -/
theorem Formed.closed_iff {m : Mode} {items : List Item} {left : Bool} (h : Formed m items left)
    (hm : m = .element ∨ m = .component ∨ m = .rawExpression) :
    (Item.closedBy? ['\x7d'] items).isSome = true ↔ left = true := by
  constructor
  · intro hc
    cases hleft : left with
    | true => rfl
    | false =>
      rw [h.not_closed hleft (Mode.leavesAt_brace hm)] at hc
      cases hc
  · intro hleft
    have hpop := m.rule_of_brace hm
    obtain ⟨r, t, before, rfl, hmove, hmakes⟩ := h.last_of_left hleft fun r hr hmove => by
      rw [hpop r hr hmove]
      exact nofun
    obtain rfl := hpop r hmakes.mem hmove
    obtain ⟨rest, hmatch⟩ := hmakes.matched
    obtain ⟨c, hc, he⟩ := eq_of_one hmatch
    rw [decide_eq_true_eq] at he
    simp [Item.closedBy?, hc, he]

theorem Mode.rule_of_decoration : ∀ r ∈ Mode.decoration.rules, r.move = .pop →
    r = ⟨.decoratorEnd, .emit .decorator, .pop⟩ := by decide

theorem Formed.closed_decoration_iff {items : List Item} {left : Bool}
    (h : Formed .decoration items left) :
    (Item.closedBy? [']'] items).isSome = true ↔ left = true := by
  constructor
  · intro hc
    cases hleft : left with
    | true => rfl
    | false =>
      have hleaves : Mode.decoration.LeavesAt ']' :=
        fun _ => ⟨1, ⟨.decoratorEnd, .emit .decorator, .pop⟩, rfl, rfl⟩
      rw [h.not_closed hleft hleaves] at hc
      cases hc
  · intro hleft
    obtain ⟨r, t, before, rfl, hmove, hmakes⟩ := h.last_of_left hleft fun r hr hmove => by
      rw [Mode.rule_of_decoration r hr hmove]
      exact nofun
    obtain rfl := Mode.rule_of_decoration r hmakes.mem hmove
    obtain ⟨rest, hmatch⟩ := hmakes.matched
    obtain ⟨c, hc, he⟩ := eq_of_one hmatch
    rw [decide_eq_true_eq] at he
    simp [Item.closedBy?, hc, he]

theorem Mode.rule_of_group : ∀ r ∈ Mode.group.rules, r.move = .pop →
    r = ⟨.groupCloser, .emit .bracket, .pop⟩ := by decide

theorem Formed.closed_group_iff {items : List Item} {left : Bool} (h : Formed .group items left) :
    Item.isClosed items = true ↔ left = true := by
  constructor
  · intro hc
    cases hleft : left with
    | true => rfl
    | false =>
      have hleaves : ∀ c, c = ')' ∨ c = ']' ∨ c = '\x7d' → Mode.group.LeavesAt c := by
        rintro c (rfl | rfl | rfl) rest <;>
          exact ⟨1, ⟨.groupCloser, .emit .bracket, .pop⟩, rfl, rfl⟩
      simp [Item.isClosed, h.not_closed hleft (hleaves _ (.inl rfl)),
        h.not_closed hleft (hleaves _ (.inr (.inl rfl))),
        h.not_closed hleft (hleaves _ (.inr (.inr rfl)))] at hc
  · intro hleft
    obtain ⟨r, t, before, rfl, hmove, hmakes⟩ := h.last_of_left hleft fun r hr hmove => by
      rw [Mode.rule_of_group r hr hmove]
      exact nofun
    obtain rfl := Mode.rule_of_group r hmakes.mem hmove
    obtain ⟨rest, hmatch⟩ := hmakes.matched
    obtain ⟨c, hc, he⟩ := eq_of_one hmatch
    simp only [Bool.or_eq_true, decide_eq_true_eq] at he
    rcases he with (rfl | rfl) | rfl <;> simp [Item.isClosed, Item.closedBy?, hc]

end BlockMarkup
