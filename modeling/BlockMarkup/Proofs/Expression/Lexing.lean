import BlockMarkup.Proofs.Document.Spelled
import BlockMarkup.Proofs.Expression.Readable

/-!
# BlockMarkup.Proofs.Expression.Lexing

From the items of an expression back to its lexemes. Where the items are in order and there is no
loose opening mark, the lexemes fit and their brackets match.
-/

namespace BlockMarkup

open Text Lexeme

/-- The lexemes of items, with their nesting left out. -/
def Item.lexemes (items : List Item) : List Lexeme := (tokensAll items).map Token.lexeme

namespace Item

theorem lexemes_append (is js : List Item) : lexemes (is ++ js) = lexemes is ++ lexemes js := by
  rw [lexemes, tokensAll_append, List.map_append]
  rfl

theorem lexemes_token (t : Token) (is : List Item) :
    lexemes (.token t :: is) = t.lexeme :: lexemes is := rfl

theorem lexemes_nested (m : Mode) (sub : List Item) : lexemes (nested m sub) = lexemes sub := by
  cases sub with
  | nil => rfl
  | cons i is =>
    show (tokensAll (i :: is) ++ []).map Token.lexeme = _
    rw [List.append_nil]
    rfl

theorem lexemes_ne_nil {items : List Item} (h : StartsWithToken items) (hne : items ≠ []) :
    lexemes items ≠ [] := by
  cases items with
  | nil => exact absurd rfl hne
  | cons i is =>
    cases i with
    | token t => exact nofun
    | context m sub => exact absurd rfl (h m sub is)

end Item

namespace Lexeme

/-- There is no loose opening mark. -/
def LooseFree : List Lexeme → Prop
  | [] => True
  | l :: ls => isLoose l.text (textOf ls) = false ∧ LooseFree ls

theorem isLoose_nil (u : List Char) : isLoose u [] = false := by simp [isLoose]

theorem isLoose_append_of_ne_nil {u s t : List Char} (hs : s ≠ []) :
    isLoose u (s ++ t) = isLoose u s := by
  rw [isLoose, isLoose, head?_append_of_ne_nil hs]

theorem LooseFree.append_left {ks ls : List Lexeme} (h : LooseFree (ks ++ ls)) : LooseFree ks := by
  induction ks with
  | nil => trivial
  | cons k ks ih =>
    refine ⟨?_, ih h.2⟩
    by_cases hks : textOf ks = []
    · rw [hks, isLoose_nil]
    · rw [← isLoose_append_of_ne_nil hks, ← textOf_append]
      exact h.1

theorem LooseFree.append_right {ks ls : List Lexeme} (h : LooseFree (ks ++ ls)) : LooseFree ls := by
  induction ks with
  | nil => exact h
  | cons k ks ih => exact ih h.2

end Lexeme

/-! ## One match -/

theorem Item.mem_opened {items : List Item} {t : Token} (h : .token t ∈ items) :
    ∃ sub, (t, sub) ∈ opened items := by
  fun_induction opened items with
  | case1 => cases h
  | case2 m sub is ih =>
    rcases List.mem_cons.mp h with h | h
    · cases h
    · exact ih h
  | case3 u =>
    cases List.mem_singleton.mp h
    exact ⟨[], List.mem_cons_self⟩
  | case4 u v is ih =>
    rcases List.mem_cons.mp h with h | h
    · cases h
      exact ⟨[], List.mem_cons_self⟩
    · obtain ⟨sub, hsub⟩ := ih h
      exact ⟨sub, List.mem_cons_of_mem _ hsub⟩
  | case5 u m sub is ih =>
    rcases List.mem_cons.mp h with h | h
    · cases h
      exact ⟨sub, List.mem_cons_self⟩
    · rcases List.mem_cons.mp h with h | h
      · cases h
      · obtain ⟨sub', hsub⟩ := ih h
        exact ⟨sub', List.mem_cons_of_mem _ hsub⟩

theorem SoundItems.not_stray {m : Mode} {items : List Item} (h : SoundItems m items) :
    ∀ t, .token t ∈ items → t.cls ≠ .stray := by
  intro t ht
  obtain ⟨sub, hsub⟩ := Item.mem_opened ht
  exact (h.1 _ hsub).matched

/-- A match that passes nothing over is a token of its own. -/
theorem Mode.Hit.token {m : Mode} {c : Cursor} {h : Mode.Hit} {cls : TokenClass}
    (hs : m.search c.rest = some h) (hemit : h.rule.effect = .emit cls)
    (hstray : ∀ t, .token t ∈ h.items c → t.cls ≠ .stray) :
    ∃ u, u ≠ [] ∧ c.rest = u ++ (h.after c).rest ∧
      Rule.first? m.rules (u ++ (h.after c).rest) = some (u.length, h.rule) ∧
      h.items c = [.token ⟨c.pos, u, cls⟩] := by
  have hsound := Mode.search_sound hs
  have hlt := hsound.skipped_lt
  have hskipped : h.skipped = 0 := by
    by_contra hne
    have htake := c.take_eq .stray (Nat.pos_of_ne_zero hne) hlt.le
    refine hstray ⟨c.pos, c.rest.take h.skipped, .stray⟩ ?_ rfl
    rw [Mode.Hit.items, htake]
    exact List.mem_append_left _ List.mem_cons_self
  have hfirst := hsound.first
  have hle := hsound.le
  rw [hskipped] at hle
  rw [hskipped, List.drop_zero] at hfirst
  have hpos : 0 < h.length := Pattern.length?_pos
    (m.looksAhead_of_emits _ hsound.mem (by rw [hemit]; rintro ⟨⟩)) (Rule.first?_eq_some hfirst).2
  have hlength : (c.rest.take h.length).length = h.length := by
    rw [List.length_take]
    omega
  have hafter : (h.after c).rest = c.rest.drop h.length := by
    rw [Mode.Hit.after_rest, hskipped, Nat.zero_add]
  refine ⟨c.rest.take h.length, ?_, ?_, ?_, ?_⟩
  · exact List.ne_nil_of_length_pos (by rw [hlength]; exact hpos)
  · rw [hafter, List.take_append_drop]
  · rw [hafter, List.take_append_drop, hlength, hfirst]
  · rw [Mode.Hit.items, hskipped, Cursor.take_zero, Cursor.advance_zero, hemit]
    exact c.take_eq cls hpos (by omega)

/-- A match of an expression on its own is one of a group, unless it is a loose closing bracket. -/
theorem takes_of_first?_expression {u t : List Char} {r : Rule} {cls : TokenClass}
    (h : Rule.first? Mode.expression.rules (u ++ t) = some (u.length, r))
    (hemit : r.effect = .emit cls)
    (hclose : ∀ c ∈ [')', ']', '\x7d'], u ≠ [c]) :
    ∃ r' : Rule, r'.Takes u t ∧ r'.effect = .emit cls ∧ r'.move = r.move := by
  have hrules : Mode.expression.rules = ⟨.looseMark, .emit .text, .stay⟩ :: Rule.expression := rfl
  rw [hrules] at h
  cases hmark : Pattern.looseMark.length? (u ++ t) with
  | some n =>
    rw [Rule.first?_cons_some hmark] at h
    simp only [Option.some.injEq, Prod.mk.injEq] at h
    obtain ⟨rfl, rfl⟩ := h
    obtain ⟨c, rfl, hc⟩ := eq_of_one hmark
    simp only [Bool.or_eq_true, decide_eq_true_eq] at hc
    refine ⟨⟨.separator, .emit .text, .stay⟩, ?_, hemit, rfl⟩
    rcases hc with ((rfl | rfl) | rfl) | rfl
    · exact absurd rfl (hclose ')' (by decide))
    · exact absurd rfl (hclose ']' (by decide))
    · exact absurd rfl (hclose '\x7d' (by decide))
    · exact Rule.takes_of_closed (by decide) rfl rfl t
  | none =>
    rw [Rule.first?_cons_none hmark] at h
    refine ⟨r, ?_, hemit, rfl⟩
    have hgroup : Mode.group.rules = [⟨.groupCloser, .emit .bracket, .pop⟩,
      ⟨.separator, .emit .text, .stay⟩] ++ Rule.expression := rfl
    rw [Rule.Takes, hgroup, Rule.first?_append_of_none, h]
    intro q hq
    cases hs : u ++ t with
    | nil =>
      rw [hs] at h
      cases h
    | cons c s =>
      rw [hs] at hmark
      have hc : c ∉ [')', ']', '\x7d', ','] := by
        intro hc
        simp only [List.mem_cons, List.not_mem_nil, or_false] at hc
        rcases hc with rfl | rfl | rfl | rfl <;> cases hmark
      simp only [List.mem_cons, List.not_mem_nil, or_false, not_or] at hq hc
      apply Pattern.length?_eq_none
      rcases hq with rfl | rfl <;> simp [Pattern.opensWith, hc]

theorem Lexeme.Fits.move_eq {r : Rule} {l : Lexeme} {t : List Char} (h : l.Fits t)
    (hr : r.Takes l.text t) : l.move = r.move := by
  obtain ⟨q, -, hq, -, hmove⟩ := h.takes
  cases hq.symm.trans hr
  exact hmove.symm

/-! ## All items -/

/-- The lexeme is that of a token among the items, not of one inside brackets, and the further
lexemes are those of the items behind it. -/
def Item.Own (items : List Item) (l : Lexeme) (ls : List Lexeme) : Prop :=
  ∃ t is, (.token t :: is) <:+ items ∧ t.lexeme = l ∧ lexemes is = ls

theorem Item.Own.mono {is js : List Item} {l : Lexeme} {ls : List Lexeme} (h : Own is l ls)
    (hs : is <:+ js) : Own js l ls := by
  obtain ⟨t, ks, hks, hl, hls⟩ := h
  exact ⟨t, ks, hks.trans hs, hl, hls⟩

/-- The lexemes of the items of a context make up its text, they fit, and brackets match. -/
structure Lexed (m : Mode) (c : Cursor) (items : List Item) (stop : Cursor) : Prop where
  text : c.rest = textOf (Item.lexemes items) ++ stop.rest
  fit : AllFit stop.rest (Item.lexemes items)
  ends : items = [] → stop.rest = []
  nest : m = .expression → Nest (Item.Own items) (Item.lexemes items)
  close : m = .group → Item.isClosed items = true → ∃ inner k,
    Item.lexemes items = inner ++ [k] ∧ k.move = .pop ∧ Nest (fun _ _ => True) inner

/-- Outside of brackets there is no closing bracket. -/
def Item.CloserFree (items : List Item) : Prop :=
  ∀ t, .token t ∈ items → ∀ d ∈ [')', ']', '\x7d'], t.text ≠ [d]

theorem Item.isClosed_append {is js : List Item} (h : js ≠ []) :
    isClosed (is ++ js) = isClosed js := by
  simp only [isClosed, closedBy?, List.getLast?_append_of_ne_nil is h]

theorem isLoose_of_lexed {m : Mode} {c stop : Cursor} {items : List Item} {u : List Char}
    (h : Lexed m c items stop) (hstart : StartsWithToken items)
    (hu : isLoose u (textOf (Item.lexemes items)) = false) : isLoose u c.rest = false := by
  rw [h.text]
  by_cases hitems : items = []
  · subst hitems
    rw [h.ends rfl]
    exact isLoose_nil u
  · have hne := Item.lexemes_ne_nil hstart hitems
    have hfit := h.fit
    cases hl : Item.lexemes items with
    | nil => exact absurd hl hne
    | cons l ls =>
      rw [hl] at hfit hu
      rwa [isLoose_append_of_ne_nil]
      exact List.append_ne_nil_of_left_ne_nil hfit.1.text_ne_nil _

theorem Lexed.cons {m : Mode} {c next stop : Cursor} {items : List Item} {l : Lexeme} {pos : Nat}
    (h : Lexed m next items stop) (hc : c.rest = l.text ++ next.rest) (hl : l.Fits next.rest)
    (hstay : l.move = .stay) : Lexed m c (.token ⟨pos, l.text, l.cls⟩ :: items) stop := by
  have hlexemes : Item.lexemes (.token ⟨pos, l.text, l.cls⟩ :: items) =
      l :: Item.lexemes items := rfl
  refine ⟨?_, ?_, nofun, ?_, ?_⟩
  · rw [hlexemes, textOf_cons, List.append_assoc, ← h.text, hc]
  · rw [hlexemes]
    exact ⟨h.text ▸ hl, h.fit⟩
  · intro hm
    rw [hlexemes]
    exact .token hstay ⟨_, items, List.suffix_rfl, rfl, rfl⟩
      ((h.nest hm).mono fun _ _ hown => hown.mono (List.suffix_cons _ _))
  · intro hm hclosed
    rw [hlexemes]
    cases items with
    | nil =>
      have hmark : ∃ d ∈ [')', ']', '\x7d'], l.text = [d] := by
        obtain ⟨t, ht, htext⟩ := Item.exists_closer_of_isClosed hclosed
        cases List.mem_singleton.mp ht
        simpa using htext
      obtain ⟨d, hd, hld⟩ := hmark
      obtain ⟨r, hr⟩ := hl.shared hstay (by
        rw [hld]
        rintro ⟨⟩
        exact absurd hd (by decide))
      obtain ⟨e, s, he, hmark⟩ := hr.head
      rw [hld] at he
      cases he
      exact absurd (List.mem_cons_of_mem ',' hd) hmark
    | cons i is =>
      have hclosed' : Item.isClosed (i :: is) = true := by
        rwa [← List.singleton_append, Item.isClosed_append (List.cons_ne_nil i is)] at hclosed
      obtain ⟨inner, k, hk, hmove, hnest⟩ := h.close hm hclosed'
      exact ⟨l :: inner, k, by rw [hk]; rfl, hmove, .token hstay trivial hnest⟩

theorem Lexed.group {m : Mode} {c next back stop : Cursor} {sub items : List Item} {o : Lexeme}
    {pos : Nat} (hsub : Lexed .group next sub back) (h : Lexed m back items stop)
    (hclosed : Item.isClosed sub = true) (hc : c.rest = o.text ++ next.rest) (ho : o.Fits next.rest)
    (hopen : o.move = .push .group) :
    Lexed m c (.token ⟨pos, o.text, o.cls⟩ :: (Item.nested .group sub ++ items)) stop := by
  obtain ⟨inner, k, hk, hclose, hinner⟩ := hsub.close rfl hclosed
  have hlexemes : Item.lexemes (.token ⟨pos, o.text, o.cls⟩ :: (Item.nested .group sub ++ items)) =
      o :: (inner ++ k :: Item.lexemes items) := by
    rw [Item.lexemes_token, Item.lexemes_append, Item.lexemes_nested, hk, List.append_assoc]
    rfl
  have hgroup : ∀ {A : Lexeme → List Lexeme → Prop}, ∀ ls, Nest A ls →
      Nest A (o :: (inner ++ k :: ls)) := fun ls hls => .group hopen hclose hinner hls
  have hnext : next.rest = textOf (inner ++ k :: Item.lexemes items) ++ stop.rest := by
    rw [hsub.text, hk, h.text]
    simp [textOf]
  refine ⟨?_, ?_, (by rintro ⟨⟩), ?_, ?_⟩
  · rw [hlexemes, textOf_cons, List.append_assoc, ← hnext, hc]
  · rw [hlexemes]
    refine ⟨hnext ▸ ho, ?_⟩
    have hfit := hsub.fit
    rw [hk, h.text] at hfit
    obtain ⟨hinnerfit, hkfit, -⟩ := allFit_append_iff.mp hfit
    refine allFit_append_iff.mpr ⟨?_, hkfit, h.fit⟩
    simpa [textOf] using hinnerfit
  · intro hm
    rw [hlexemes]
    refine hgroup _ ((h.nest hm).mono fun _ _ hown => hown.mono ?_)
    exact (List.suffix_append _ _).trans (List.suffix_cons _ _)
  · intro hm hclosed'
    rw [hlexemes]
    cases items with
    | nil =>
      cases sub with
      | nil => cases hclosed
      | cons i is => cases hclosed'
    | cons i is =>
      rw [← List.cons_append, Item.isClosed_append (List.cons_ne_nil i is)] at hclosed'
      obtain ⟨inner', k', hk', hclose', hinner'⟩ := h.close hm hclosed'
      refine ⟨o :: (inner ++ k :: inner'), k', ?_, hclose', hgroup _ hinner'⟩
      rw [hk', List.cons_append, List.append_assoc, List.cons_append]

/-- A match in an expression is a token. -/
theorem Mode.Hit.exists_token {m : Mode} {c : Cursor} {h : Mode.Hit}
    (hm : m = .expression ∨ m = .group) (hs : m.search c.rest = some h)
    (hstray : ∀ t, .token t ∈ h.items c → t.cls ≠ .stray) :
    ∃ u cls, u ≠ [] ∧ c.rest = u ++ (h.after c).rest ∧
      Rule.first? m.rules (u ++ (h.after c).rest) = some (u.length, h.rule) ∧
      h.rule.effect = .emit cls ∧ h.items c = [.token ⟨c.pos, u, cls⟩] ∧ cls ≠ .stray := by
  have hmem := (Mode.search_sound hs).mem
  have hskip : ∀ r ∈ m.rules, r.effect ≠ .skip := by rcases hm with rfl | rfl <;> decide
  cases hemit : h.rule.effect with
  | skip => exact absurd hemit (hskip _ hmem)
  | emit cls =>
    obtain ⟨u, hne, hc, hfirst, hitems⟩ := Mode.Hit.token hs hemit hstray
    refine ⟨u, cls, hne, hc, hfirst, rfl, hitems, ?_⟩
    exact hstray _ (by rw [hitems]; exact List.mem_cons_self)

/-- A token of an expression is a lexeme, if it is no stray mark and not loose. -/
theorem fits_of_first? {m : Mode} {u t : List Char} {r : Rule} {cls : TokenClass}
    (hm : m = .expression ∨ m = .group) (hne : u ≠ [])
    (hfirst : Rule.first? m.rules (u ++ t) = some (u.length, r)) (hemit : r.effect = .emit cls)
    (hcls : cls ≠ .stray) (hcloser : m = .expression → ∀ d ∈ [')', ']', '\x7d'], u ≠ [d])
    (hloose : isLoose u t = false) : Fits t ⟨u, cls⟩ ∧ Lexeme.move ⟨u, cls⟩ = r.move := by
  obtain ⟨q, htakes, hemit', hmove⟩ : ∃ q : Rule, q.Takes u t ∧ q.effect = .emit cls ∧
      q.move = r.move := by
    rcases hm with rfl | rfl
    · exact takes_of_first?_expression hfirst hemit (hcloser rfl)
    · exact ⟨r, hfirst, hemit, rfl⟩
  have hfits := fits_of_takes hne htakes hemit' hcls hloose
  exact ⟨hfits, (hfits.move_eq htakes).trans hmove⟩

/-- What the lexer finds in an expression in order, without loose opening marks. -/
theorem Scans.lexed {m : Mode} {c stop : Cursor} {items : List Item} (h : Scans m c items stop) :
    (m = .expression ∨ m = .group) → SoundItems m items →
      (m = .expression → Item.CloserFree items) → LooseFree (Item.lexemes items) →
      Lexed m c items stop := by
  induction h with
  | @stop m c hs =>
    intro hm hsound _ _
    have hnil : c.rest = [] := by
      by_contra hne
      have htake := c.take_eq .stray (List.length_pos_iff.mpr hne) (Nat.le_refl _)
      refine hsound.not_stray ⟨c.pos, c.rest.take c.rest.length, .stray⟩ ?_ rfl
      rw [htake]
      exact List.mem_cons_self
    have hitems : c.take c.rest.length .stray = [] := by
      rw [hnil]
      exact c.take_zero .stray
    have hstop : (c.advance c.rest.length).rest = [] := by simp [Cursor.advance]
    rw [hitems]
    refine ⟨?_, trivial, fun _ => hstop, fun _ => .nil, fun _ => (by rintro ⟨⟩)⟩
    rw [hstop, hnil]
    rfl
  | @stay m c stop h items hs hmove hscan ih =>
    intro hm hsound hcloser hloose
    obtain ⟨left, hformed, -⟩ := hscan.formed
    obtain ⟨u, cls, hne, hc, hfirst, hemit, hitems, hcls⟩ := Mode.Hit.exists_token hm hs
      fun t ht => hsound.not_stray t (List.mem_append_left _ ht)
    rw [hitems, List.singleton_append] at hsound hcloser hloose ⊢
    obtain ⟨-, hrest⟩ := (soundItems_token hformed.startsWithToken).mp hsound
    have hlexed := ih hm hrest (fun he t ht => hcloser he t (List.mem_cons_of_mem _ ht)) hloose.2
    obtain ⟨hfits, hmove'⟩ := fits_of_first? hm hne hfirst hemit hcls
      (fun he => hcloser he _ List.mem_cons_self)
      (isLoose_of_lexed hlexed hformed.startsWithToken hloose.1)
    exact hlexed.cons hc hfits (hmove'.trans hmove)
  | @pop m c h hs hmove =>
    intro hm hsound _ _
    obtain ⟨u, cls, hne, hc, hfirst, hemit, hitems, hcls⟩ := Mode.Hit.exists_token hm hs
      hsound.not_stray
    obtain ⟨hmem, hmatch⟩ := Rule.first?_eq_some hfirst
    rcases hm with rfl | rfl
    · exact absurd hmove (isBottom_expression _ hmem)
    · have hrule : h.rule.pattern.isClosed = true := by
        have hrules : ∀ r ∈ Mode.group.rules, r.move = .pop → r.pattern.isClosed = true := by decide
        exact hrules _ hmem hmove
      have hu := (Pattern.length?_append_iff hrule (Nat.le_refl _)).mp hmatch
      have hfits : Fits (h.after c).rest ⟨u, cls⟩ := .closed hmem hrule hemit hu
      rw [hitems]
      refine ⟨?_, ⟨hfits, trivial⟩, (by rintro ⟨⟩), (by rintro ⟨⟩), fun _ _ => ?_⟩
      · rw [hc]
        simp [Item.lexemes, Item.tokensAll, Item.tokens, textOf, Token.lexeme]
      · exact ⟨[], ⟨u, cls⟩, rfl, (hfits.move_eq hfirst).trans hmove, .nil⟩
  | @push m inner c back stop h sub items hs hmove hscansub hscan ihsub ih =>
    intro hm hsound hcloser hloose
    obtain ⟨left, hformed, -⟩ := hscan.formed
    obtain ⟨subLeft, hsubformed, -⟩ := hscansub.formed
    obtain ⟨u, cls, hne, hc, hfirst, hemit, hitems, hcls⟩ := Mode.Hit.exists_token hm hs
      fun t ht => hsound.not_stray t (List.mem_append_left _ (List.mem_append_left _ ht))
    obtain rfl : inner = .group := by
      have hrules : ∀ r ∈ m.rules, ∀ k ∈ [inner], r.move = .push k → k = .group := by
        rcases hm with rfl | rfl <;> cases inner <;> decide
      exact hrules _ (Rule.first?_eq_some hfirst).1 inner (List.mem_singleton_self _) hmove
    rw [hitems, List.append_assoc, List.singleton_append] at hsound hcloser hloose ⊢
    obtain ⟨⟨htoken, htree⟩, hrest⟩ := (soundItems_push hformed.startsWithToken).mp hsound
    have hsubsound := (soundTree_iff_soundItems (by decide) (by decide)).mp htree
    rw [Item.lexemes_token, Item.lexemes_append, Item.lexemes_nested, ← List.cons_append] at hloose
    have hsubloose := hloose.append_left
    have hsub := ihsub (.inr rfl) hsubsound (by rintro ⟨⟩) hsubloose.2
    have hlexed := ih hm hrest (fun he t ht => hcloser he t
      (List.mem_cons_of_mem _ (List.mem_append_right _ ht))) hloose.append_right
    obtain ⟨hfits, hmove'⟩ := fits_of_first? hm hne hfirst hemit hcls
      (fun he => hcloser he _ List.mem_cons_self)
      (isLoose_of_lexed hsub hsubformed.startsWithToken hsubloose.1)
    have hopen := hmove'.trans hmove
    obtain ⟨hbracket, htext⟩ := hfits.opener hopen
    have hbody : m.isBody = false := by rcases hm with rfl | rfl <;> rfl
    exact hsub.group hlexed (htoken.group hbody hbracket htext) hc hfits hopen

end BlockMarkup
