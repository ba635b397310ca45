import BlockMarkup.Proofs.Document.Nodes

/-!
# BlockMarkup.Proofs.Document.Spelled

When the items of an expression have a text. A context of an expression that a match left has one if
and only if its tokens are in order (`Formed.spelled_iff`), and a value is read without a flaw
if, besides, there is more in it than white space and line comments (`flawless_valueNode_iff`).
-/

namespace BlockMarkup

open Text

/-! ## Tokens that open nothing -/

theorem Mode.rule_of_plain (m : Mode) : ∀ r ∈ m.rules, r.move = .stay ∨ r.move = .pop →
    r.effect ≠ .emit .tag ∧ r.effect ≠ .emit .path ∧ r.effect ≠ .emit .name ∧
    r.effect ≠ .emit .operator ∧
    (r.effect = .emit .bracket → r.pattern = .closer ∨ r.pattern = .groupCloser) ∧
    (r.effect = .emit .decorator → r.pattern = .decoratorEnd) := by
  cases m <;> decide

theorem Mode.Makes.closing_of_plain {m : Mode} {r : Rule} {t : Token} (h : m.Makes r t)
    (hmove : r.move = .stay ∨ r.move = .pop) (hc : t.cls = .bracket ∨ t.cls = .decorator) :
    t.text = [')'] ∨ t.text = [']'] ∨ t.text = ['\x7d'] := by
  obtain ⟨-, -, -, -, hbracket, hdecorator⟩ := m.rule_of_plain r h.mem hmove
  obtain ⟨rest, hmatch⟩ := h.matched
  rcases hc with hc | hc
  · rcases hbracket (by rw [h.effect, hc]) with hp | hp
    · rw [hp] at hmatch
      obtain ⟨c, ht, he⟩ := eq_of_one hmatch
      rw [decide_eq_true_eq] at he
      exact .inr (.inr (by rw [ht, he]))
    · rw [hp] at hmatch
      obtain ⟨c, ht, he⟩ := eq_of_one hmatch
      simp only [Bool.or_eq_true, decide_eq_true_eq] at he
      rcases he with (rfl | rfl) | rfl <;> simp [ht]
  · rw [hdecorator (by rw [h.effect, hc])] at hmatch
    obtain ⟨c, ht, he⟩ := eq_of_one hmatch
    rw [decide_eq_true_eq] at he
    exact .inr (.inl (by rw [ht, he]))

/-- A token that opens nothing is in order if a rule of the mode is meant for it. -/
theorem soundToken_plain_iff {m : Mode} {r : Rule} {t : Token} (h : m.Makes r t)
    (hmove : r.move = .stay ∨ r.move = .pop) : SoundToken m t [] ↔ t.cls ≠ .stray := by
  refine ⟨SoundToken.matched, fun hs => ?_⟩
  obtain ⟨htag, hpath, hname, hdots, -, -⟩ := m.rule_of_plain r h.mem hmove
  rw [h.effect] at htag hpath hname hdots
  have hclosing := h.closing_of_plain hmove
  constructor
  case matched => exact hs
  case block =>
    rintro (hc | hc)
    · exact absurd (congrArg _ hc) htag
    · exact absurd (congrArg _ hc) hpath
  case brace =>
    intro _ hc ht
    rcases hclosing (.inl hc) with he | he | he <;> exact absurd (ht.symm.trans he) (by decide)
  case decorator =>
    intro ht hc
    rcases hclosing (.inr hc) with he | he | he <;> rcases ht with ht | ht <;>
      exact absurd (ht.symm.trans he) (by decide)
  case group =>
    intro _ hc ht
    rcases hclosing (.inl hc) with he | he | he <;> rcases ht with ht | ht | ht <;>
      exact absurd (ht.symm.trans he) (by decide)
  case name => exact fun hc => absurd (congrArg _ hc) hname
  case dots => exact fun hc => absurd (congrArg _ hc) hdots

/-! ## Tokens that open something -/

theorem soundToken_group_iff {m : Mode} {t : Token} {sub : List Item} (hm : m.isBody = false)
    (h : Opens m t .group) : SoundToken m t sub ↔ Item.isClosed sub = true := by
  cases h with
  | group _ hc ht =>
    constructor
    · exact fun hs => hs.group hm hc ht
    · intro hclosed
      constructor <;> simp_all

/-! ## Expressions -/

/-- All tokens of a context, with the contexts they open, and all contexts below are in order. -/
def SoundItems (m : Mode) (items : List Item) : Prop :=
  (∀ p ∈ Item.opened items, SoundToken m p.1 p.2) ∧ SoundBelow items

theorem soundItems_nil (m : Mode) : SoundItems m [] := by
  simp [SoundItems, Item.opened, SoundBelow, Item.contextsAll]

theorem soundItems_token {m : Mode} {t : Token} {items : List Item} (h : StartsWithToken items) :
    SoundItems m (.token t :: items) ↔ SoundToken m t [] ∧ SoundItems m items := by
  simp only [SoundItems, opened_token h, soundBelow_token, List.forall_mem_cons, and_assoc]

theorem soundItems_push {m inner : Mode} {t : Token} {sub items : List Item}
    (h : StartsWithToken items) : SoundItems m (.token t :: (Item.nested inner sub ++ items)) ↔
      (SoundToken m t sub ∧ SoundTree inner sub) ∧ SoundItems m items := by
  simp only [SoundItems, opened_push h, soundBelow_push, List.forall_mem_cons, and_assoc]
  exact and_congr_right fun _ => and_left_comm

theorem soundTree_iff_soundItems {m : Mode} {items : List Item} (he : m ≠ .element)
    (hc : m ≠ .component) : SoundTree m items ↔ SoundItems m items := by
  rw [soundTree_iff, SoundItems]
  refine and_congr_left fun _ => ⟨Sound.token, fun h => ⟨h, ?_, ?_⟩⟩
  · exact fun hm => absurd hm he
  · exact fun hm => absurd hm hc

/-- The items of an expression have a text. -/
def Item.Spelled (items : List Item) : Prop := ∃ s, spellingAll items = .ok s

namespace Item

theorem spelled_nil : Spelled [] := ⟨[], rfl⟩

theorem spelled_cons_iff {i : Item} {is : List Item} :
    Spelled (i :: is) ↔ Spelled [i] ∧ Spelled is := by
  unfold Spelled
  simp only [spellingAll]
  cases spelling i <;> cases spellingAll is <;> simp

theorem spelled_append_iff {is js : List Item} :
    Spelled (is ++ js) ↔ Spelled is ∧ Spelled js := by
  induction is with
  | nil => simp [spelled_nil]
  | cons i is ih => rw [List.cons_append, spelled_cons_iff, @spelled_cons_iff i is, ih, and_assoc]

theorem spelled_token_iff {t : Token} : Spelled [.token t] ↔ t.cls ≠ .stray := by
  unfold Spelled
  by_cases hs : t.cls = .stray <;> simp [spellingAll, spelling, hs]

theorem spelled_context_iff {m : Mode} {sub : List Item} :
    Spelled [.context m sub] ↔ Spelled sub ∧ isClosed sub = true := by
  unfold Spelled
  simp only [spellingAll, spelling]
  cases spellingAll sub with
  | error e => simp
  | ok s => cases isClosed sub <;> simp

end Item

/-- A context of an expression that a match left has a text if and only if it is in order. -/
theorem Formed.spelled_iff {m : Mode} {items : List Item} {left : Bool}
    (h : Formed m items left) : m.isBody = false → left = true →
      (Item.Spelled items ↔ SoundItems m items) := by
  induction h with
  | stop => exact fun _ => nofun
  | leave => exact fun _ _ => iff_of_true Item.spelled_nil (soundItems_nil _)
  | stray hs _ hf ih =>
    intro _ _
    rw [Item.spelled_cons_iff, Item.spelled_token_iff, soundItems_token hf.startsWithToken]
    exact iff_of_false (fun h => h.1 hs) (fun h => h.1.matched hs)
  | stay hmove hmakes hf ih =>
    intro hm hleft
    rw [Item.spelled_cons_iff, Item.spelled_token_iff, soundItems_token hf.startsWithToken,
      soundToken_plain_iff hmakes (.inl hmove), ih hm hleft]
  | close hmove hmakes =>
    intro _ _
    rw [Item.spelled_token_iff, soundItems_token startsWithToken_nil, soundToken_plain_iff hmakes (.inr hmove)]
    exact (and_iff_left (soundItems_nil _)).symm
  | @push m inner r t c back sub items subLeft left hmove hmakes _ hsub hrest hf ihsub ih =>
    intro hm hleft
    have hopens := opens_of_makes hmove hmakes
    have hsubLeft : subLeft = true := by
      cases hb : subLeft with
      | true => rfl
      | false => rw [(hrest hb).2] at hleft; cases hleft
    obtain ⟨rfl, hcls⟩ : inner = .group ∧ t.cls = .bracket := by
      cases hopens with
      | group _ hc _ => exact ⟨rfl, hc⟩
      | name hm' _ _ _ => rcases hm' with rfl | rfl <;> cases hm
      | _ => simp_all [Mode.isBody]
    have hclosed := hsub.closed_group_iff.mpr hsubLeft
    have hnested : Item.Spelled (Item.nested .group sub) ↔ Item.Spelled sub := by
      cases sub with
      | nil => rfl
      | cons i is =>
        show Item.Spelled [.context .group (i :: is)] ↔ _
        rw [Item.spelled_context_iff, and_iff_left hclosed]
    rw [Item.spelled_cons_iff, Item.spelled_append_iff, Item.spelled_token_iff, hnested,
      ihsub rfl hsubLeft, ih hm hleft, soundItems_push hf.startsWithToken,
      soundToken_group_iff hm hopens, soundTree_iff_soundItems (m := .group) (by decide) (by decide)]
    simp [hclosed, hcls]

/-! ## Expressions with a text that is not white space -/

theorem Mode.pattern_of_stray (m : Mode) : ∀ r ∈ m.rules, r.effect = .emit .stray →
    r.pattern = .quote := by
  cases m <;> decide

theorem Mode.rule_of_blank (m : Mode) : ∀ r ∈ m.rules, r.pattern = .blanks ∨ r.pattern = .spaces →
    r.effect = .skip ∨ r.effect = .emit .blank := by
  cases m <;> decide

theorem Mode.Makes.exists_not_blank {m : Mode} {r : Rule} {t : Token} (h : m.Makes r t)
    (hc : t.cls ≠ .blank) : ∃ c ∈ t.text, isBlank c = false := by
  have hpattern : r.pattern ≠ .blanks ∧ r.pattern ≠ .spaces := by
    constructor
    · intro hp
      rcases m.rule_of_blank r h.mem (.inl hp) with he | he <;> rw [h.effect] at he
      · cases he
      · exact hc (Effect.emit.inj he)
    · intro hp
      rcases m.rule_of_blank r h.mem (.inr hp) with he | he <;> rw [h.effect] at he
      · cases he
      · exact hc (Effect.emit.inj he)
  obtain ⟨rest, hmatch⟩ := h.matched
  have hahead := m.looksAhead_of_emits r h.mem (by rw [h.effect]; exact nofun)
  obtain ⟨c, u, hs, hb⟩ := Pattern.head_not_blank hpattern.1 hpattern.2 hahead hmatch
  cases ht : t.text with
  | nil => exact absurd ht h.nonempty
  | cons d v =>
    rw [ht] at hs
    cases hs
    exact ⟨c, List.mem_cons_self, hb⟩

/-- In an expression, every token but white space and stray text has a character to show. -/
def Item.Visible (items : List Item) : Prop :=
  ∀ t, Item.token t ∈ items → t.cls ≠ .blank → t.cls ≠ .stray →
    ∃ c ∈ t.text, Text.isBlank c = false

theorem Formed.visible {m : Mode} {items : List Item} {left : Bool} (h : Formed m items left) :
    Item.Visible items := by
  intro t ht hc hs
  rcases h.origin t ht with ⟨hs', -⟩ | ⟨r, hmakes⟩
  · exact absurd hs' hs
  · exact hmakes.exists_not_blank hc

namespace Item

theorem isTrailing_cls {t : Token} (h : isTrailing (.token t) = true) :
    t.cls = .blank ∨ t.cls = .comment := by
  simp only [isTrailing, Bool.or_eq_true, Bool.and_eq_true, decide_eq_true_eq] at h
  exact h.imp_right And.left

theorem spelled_of_trailing {items : List Item} (h : ∀ i ∈ items, i.isTrailing = true) :
    Spelled items := by
  induction items with
  | nil => exact spelled_nil
  | cons i is ih =>
    rw [spelled_cons_iff]
    refine ⟨?_, ih fun j hj => h j (List.mem_cons_of_mem _ hj)⟩
    cases i with
    | token t =>
      rw [spelled_token_iff]
      rcases isTrailing_cls (h _ List.mem_cons_self) with hc | hc <;> rw [hc] <;> decide
    | context m sub => cases h _ List.mem_cons_self

/-- White space around one token does not keep items from having a text. -/
theorem spelled_of_filter {items : List Item} {t : Token}
    (h : items.filter (fun i => !isBlank i) = [.token t]) (ht : t.cls ≠ .stray) :
    Spelled items := by
  have hitem : ∀ i ∈ items, Spelled [i] := by
    intro i hi
    cases hb : isBlank i with
    | true =>
      refine spelled_of_trailing fun j hj => ?_
      cases List.mem_singleton.mp hj
      cases i with
      | token u => simp_all [isTrailing, isBlank]
      | context m sub => cases hb
    | false =>
      have hmem : i ∈ items.filter fun i => !isBlank i := List.mem_filter.mpr ⟨hi, by simp [hb]⟩
      rw [h] at hmem
      cases List.mem_singleton.mp hmem
      exact spelled_token_iff.mpr ht
  clear h
  induction items with
  | nil => exact spelled_nil
  | cons i is ih =>
    exact spelled_cons_iff.mpr ⟨hitem i List.mem_cons_self,
      ih fun j hj => hitem j (List.mem_cons_of_mem _ hj)⟩

/-- What is dropped at the end. -/
theorem dropTrailing_append (items : List Item) :
    ∃ tail, items = dropTrailing items ++ tail ∧ ∀ i ∈ tail, i.isTrailing = true := by
  refine ⟨(items.reverse.takeWhile isTrailing).reverse, ?_, ?_⟩
  · rw [dropTrailing, ← List.reverse_append, List.takeWhile_append_dropWhile, List.reverse_reverse]
  · intro i hi
    exact takeWhile_forall _ _ i (List.mem_reverse.mp hi)

theorem spelled_dropTrailing_iff {items : List Item} :
    Spelled (dropTrailing items) ↔ Spelled items := by
  obtain ⟨tail, he, htail⟩ := dropTrailing_append items
  conv => rhs; rw [he]
  rw [spelled_append_iff, and_iff_left (spelled_of_trailing htail)]

theorem dropTrailing_ne_nil_iff {items : List Item} : dropTrailing items ≠ [] ↔ HasValue items := by
  rw [dropTrailing, ne_eq, List.reverse_eq_nil_iff, List.dropWhile_eq_nil_iff]
  simp [HasValue]

theorem mem_of_mem_dropTrailing {items : List Item} {i : Item} (h : i ∈ dropTrailing items) :
    i ∈ items := by
  obtain ⟨tail, he, -⟩ := dropTrailing_append items
  rw [he]
  exact List.mem_append_left _ h

theorem exists_not_trailing {items : List Item} (h : HasValue items) :
    ∃ i ∈ dropTrailing items, i.isTrailing = false := by
  obtain ⟨i, hi, ht⟩ := h
  obtain ⟨tail, he, htail⟩ := dropTrailing_append items
  rw [he] at hi
  rcases List.mem_append.mp hi with hi | hi
  · exact ⟨i, hi, ht⟩
  · exact absurd ((htail i hi).symm.trans ht) nofun

theorem mem_spelling {items : List Item} {i : Item} {s : List Char} (hi : i ∈ items)
    (h : spellingAll items = .ok s) : ∃ u, spelling i = .ok u ∧ ∀ c ∈ u, c ∈ s := by
  induction items generalizing s with
  | nil => cases hi
  | cons j js ih =>
    simp only [spellingAll] at h
    cases hj : spelling j with
    | error e => rw [hj] at h; cases h
    | ok u =>
      cases hjs : spellingAll js with
      | error e => rw [hj, hjs] at h; cases h
      | ok v =>
        rw [hj, hjs] at h
        cases h
        rcases List.mem_cons.mp hi with rfl | hm
        · exact ⟨u, hj, fun c hc => List.mem_append_left _ hc⟩
        · obtain ⟨w, hw, hsub⟩ := ih hm hjs
          exact ⟨w, hw, fun c hc => List.mem_append_right _ (hsub c hc)⟩

theorem exists_closer_of_isClosed {items : List Item} (h : isClosed items = true) :
    ∃ t, .token t ∈ items ∧ (t.text = [')'] ∨ t.text = [']'] ∨ t.text = ['\x7d']) := by
  have hclosed : ∀ c, (closedBy? c items).isSome = true → ∃ t, .token t ∈ items ∧ t.text = c := by
    intro c hc
    unfold closedBy? at hc
    split at hc
    · rename_i t ht
      split at hc
      · rename_i he
        exact ⟨t, List.mem_of_mem_getLast? ht, he⟩
      · cases hc
    · cases hc
  simp only [isClosed, Bool.or_eq_true] at h
  rcases h with (h | h) | h
  · obtain ⟨t, ht, he⟩ := hclosed _ h
    exact ⟨t, ht, .inl he⟩
  · obtain ⟨t, ht, he⟩ := hclosed _ h
    exact ⟨t, ht, .inr (.inl he)⟩
  · obtain ⟨t, ht, he⟩ := hclosed _ h
    exact ⟨t, ht, .inr (.inr he)⟩

/-- A spelled item that counts as a value has a character to show. -/
theorem exists_not_blank_of_spelling {items : List Item} (hv : Visible items) {i : Item}
    {u : List Char} (hi : i ∈ items) (ht : i.isTrailing = false) (hu : spelling i = .ok u) :
    ∃ c ∈ u, Text.isBlank c = false := by
  cases i with
  | token t =>
    simp only [spelling] at hu
    split at hu
    · cases hu
    · rename_i hs
      cases hu
      refine hv t hi (fun hc => ?_) hs
      simp [isTrailing, hc] at ht
  | context m sub =>
    simp only [spelling] at hu
    split at hu
    · cases hu
    · rename_i s hs
      split at hu
      · rename_i hclosed
        cases hu
        obtain ⟨t, ht', he⟩ := exists_closer_of_isClosed hclosed
        obtain ⟨v, hv', hsub⟩ := mem_spelling ht' hs
        simp only [spelling] at hv'
        split at hv'
        · cases hv'
        · cases hv'
          rcases he with he | he | he <;> rw [he] at hsub <;>
            exact ⟨_, hsub _ List.mem_cons_self, by decide⟩
      · cases hu

end Item

/-- An expression is read without a flaw if its items have a text and count as a value. -/
theorem flawless_expressionNode_iff_spelled {items : List Item} {t : Token}
    (hv : Item.Visible items) :
    Flawless [expressionNode items t] ↔ Item.Spelled items ∧ Item.HasValue items := by
  rw [flawless_expressionNode_iff, ← Item.spelled_dropTrailing_iff]
  constructor
  · rintro ⟨h, ⟨s, hs, hstrip, hne⟩, -⟩
    refine ⟨⟨s, hs⟩, Item.dropTrailing_ne_nil_iff.mp fun hnil => ?_⟩
    rw [hnil] at hs
    cases hs
    exact hne hstrip.symm
  · rintro ⟨⟨s, hs⟩, hvalue⟩
    have hne : strip s ≠ [] := by
      obtain ⟨i, hi, ht⟩ := Item.exists_not_trailing hvalue
      obtain ⟨u, hu, hsub⟩ := Item.mem_spelling hi hs
      have hmem := Item.mem_of_mem_dropTrailing hi
      obtain ⟨c, hc, hb⟩ := Item.exists_not_blank_of_spelling hv hmem ht hu
      intro hnil
      rw [strip_eq_nil_iff] at hnil
      exact absurd ((hnil c (hsub c hc)).symm.trans hb) nofun
    refine ⟨strip s, ⟨s, hs, rfl, hne⟩, some ⟨Item.ownTokens (Item.dropTrailing items), []⟩, ?_⟩
    unfold expressionNode
    simp only [hs]

/-! ## Contexts of values -/

theorem Item.append_of_closedBy? {c : List Char} {items : List Item}
    (h : (closedBy? c items).isSome = true) :
    ∃ t, items = items.dropLast ++ [.token t] ∧ t.text = c := by
  unfold closedBy? at h
  split at h
  · rename_i t ht
    split at h
    · rename_i he
      obtain ⟨before, hb⟩ := List.getLast?_eq_some_iff.mp ht
      exact ⟨t, by rw [hb, List.dropLast_concat], he⟩
    · cases h
  · cases h

theorem Item.Visible.of_subset {items items' : List Item} (h : Visible items)
    (hsub : ∀ i ∈ items', i ∈ items) : Visible items' :=
  fun t ht => h t (hsub _ ht)

/-- Without its closing token, a context has a text if and only if it has one with it. -/
theorem Formed.spelled_dropLast_iff {m : Mode} {c : Char} {items : List Item} {left : Bool}
    (h : Formed m items left) (hc : m.LeavesAt c) (hq : c ≠ '"')
    (hclosed : (Item.closedBy? [c] items).isSome = true) :
    Item.Spelled items.dropLast ↔ Item.Spelled items := by
  obtain ⟨t, he, ht⟩ := Item.append_of_closedBy? hclosed
  have hstray : t.cls ≠ .stray := by
    intro hs
    have hmem : Item.token t ∈ items := by rw [he]; simp
    rcases h.origin t hmem with ⟨-, rest, hfirst⟩ | ⟨r, hmakes⟩
    · obtain ⟨n, r, h', -⟩ := hc rest
      rw [ht, List.singleton_append, h'] at hfirst
      cases hfirst
    · obtain ⟨rest, hmatch⟩ := hmakes.matched
      rw [m.pattern_of_stray r hmakes.mem (by rw [hmakes.effect, hs]), ht] at hmatch
      simp only [Pattern.length?] at hmatch
      obtain ⟨-, d, u, hd, hdq⟩ := Pattern.one_eq_some hmatch
      cases hd
      exact hq (of_decide_eq_true hdq)
  conv => rhs; rw [he]
  rw [Item.spelled_append_iff, Item.spelled_token_iff, and_iff_left hstray]

theorem Formed.spelled_valueItems_iff {items : List Item} {left : Bool}
    (h : Formed .attribute items left) :
    Item.Spelled (valueItems items) ↔ Item.Spelled items := by
  unfold valueItems
  split
  · rename_i t ht
    have hleaves : Mode.attribute.LeavesAt ',' :=
      fun _ => ⟨1, ⟨.separator, .emit .separator, .pop⟩, rfl, rfl⟩
    exact h.spelled_dropLast_iff hleaves (by decide) (by rw [ht]; rfl)
  · rfl

/-- A value is read without a flaw if its items have a text and count as a value. -/
theorem flawless_valueNode_iff {items : List Item} {t : Token} (hv : Item.Visible items) :
    Flawless [valueNode items t] ↔ Item.Spelled items ∧ Item.HasValue items := by
  rcases valueNode_eq items t with ⟨u, hu, hc, he⟩ | ⟨-, he⟩
  · rw [he]
    refine iff_of_true (Flawless.singleton_iff.mpr ⟨rfl, .nil⟩) ⟨?_, .token u, ?_, ?_⟩
    · exact Item.spelled_of_filter hu (by rw [hc]; decide)
    · exact (List.mem_filter.mp (by rw [hu]; exact List.mem_singleton_self _)).1
    · simp [Item.isTrailing, hc]
  · rw [he]
    exact flawless_expressionNode_iff_spelled hv

end BlockMarkup
