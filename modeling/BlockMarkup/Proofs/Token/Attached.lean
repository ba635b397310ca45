import BlockMarkup.Proofs.Document.Hosted
import BlockMarkup.Proofs.Expression.Counted
import BlockMarkup.Proofs.Token.Lossless

/-!
# BlockMarkup.Proofs.Token.Attached

Contexts and the tokens that opened them. `Step.Pushes` says that a step makes a token and opens a
context behind it, and what is found there. In the items of a run each context stands directly behind
its token, and what was opened behind a token is nowhere else (`Logged.attached`). No token is made by
two steps (`Tiles.step_unique`), so a token has one context at most.
-/

namespace BlockMarkup

/-- The mode of the context that a token of the class opens in mode `m`, if it opens one. -/
def TokenClass.opens? (m : Mode) : TokenClass → Option Mode
  | .tag => some .element
  | .path => some .component
  | .decorator => some .decoration
  | .name => some .attribute
  | .operator => some .spread
  | .bracket => some (if m.isBody then .rawExpression else .group)
  | _ => none

theorem Opens.opens? {m inner : Mode} {t : Token} (h : Opens m t inner) :
    t.cls.opens? m = some inner := by
  cases h with
  | decorator _ hcls _ => rw [hcls, TokenClass.opens?]
  | brace hm hcls _ => rw [hcls, TokenClass.opens?, if_pos hm]
  | tag _ hcls _ _ => rw [hcls, TokenClass.opens?]
  | path _ hcls _ _ _ => rw [hcls, TokenClass.opens?]
  | name _ hcls _ _ => rw [hcls, TokenClass.opens?]
  | quotedName hcls _ _ => rw [hcls, TokenClass.opens?]
  | dots hcls _ => rw [hcls, TokenClass.opens?]
  | group hm hcls _ => rw [hcls, TokenClass.opens?, if_neg (by simp [hm])]

/-- What a step makes itself are tokens. -/
theorem Cursor.exists_token_of_mem_take {c : Cursor} {n : Nat} {cls : TokenClass} {i : Item}
    (h : i ∈ c.take n cls) : ∃ t, i = .token t := by
  unfold Cursor.take at h
  split at h
  · cases h
  · exact ⟨_, List.mem_singleton.mp h⟩

theorem Mode.Hit.exists_token_of_mem {h : Mode.Hit} {c : Cursor} {i : Item} (hi : i ∈ h.items c) :
    ∃ t, i = .token t := by
  rcases List.mem_append.mp hi with hi | hi
  · exact Cursor.exists_token_of_mem_take hi
  · cases he : h.rule.effect with
    | skip =>
      rw [he] at hi
      cases hi
    | emit cls =>
      rw [he] at hi
      exact Cursor.exists_token_of_mem_take hi

namespace Lexer.Step

variable {s : Step} {h : Mode.Hit} {t t' : Token} {inner inner' : Mode} {sub sub' : List Item}

/-- The tokens that the step makes. -/
def tokens (s : Step) : List Token := s.stretches.filterMap Stretch.token?

/-- The step makes the token `t` and opens a context of mode `inner` behind it, in which lexing finds
`sub`. -/
def Pushes (s : Step) (t : Token) (inner : Mode) (sub : List Item) : Prop :=
  ∃ h back, s.hit? = some h ∧ h.rule.move = .push inner ∧
    h.items s.place = s.place.take h.skipped .stray ++ [.token t] ∧
    Scans inner (h.after s.place) sub back

theorem mem_tokens_of_hit (hs : s.hit? = some h) (ht : .token t ∈ h.items s.place) :
    t ∈ s.tokens := by
  rw [tokens, tokens_of_hit hs]
  exact Item.mem_tokensAll_of_mem ht

namespace Pushes

theorem mem_tokens (hp : s.Pushes t inner sub) : t ∈ s.tokens := by
  obtain ⟨h, back, hs, -, hitems, -⟩ := hp
  refine mem_tokens_of_hit hs ?_
  rw [hitems]
  exact List.mem_append_right _ List.mem_cons_self

theorem opens (hp : s.Pushes t inner sub) : Opens s.mode t inner := by
  obtain ⟨h, back, hs, hmove, hitems, -⟩ := hp
  obtain ⟨u, hu, hmakes, -⟩ := Mode.Hit.items_of_push hs hmove
  rw [hitems] at hu
  cases List.append_cancel_left hu
  exact opens_of_makes hmove hmakes

/-- What a step opens is fixed by the step. -/
theorem unique (hp : s.Pushes t inner sub) (hp' : s.Pushes t' inner' sub') :
    t = t' ∧ inner = inner' ∧ sub = sub' := by
  obtain ⟨h, back, hs, hmove, hitems, hscan⟩ := hp
  obtain ⟨h', back', hs', hmove', hitems', hscan'⟩ := hp'
  cases hs.symm.trans hs'
  cases hmove.symm.trans hmove'
  cases List.append_cancel_left (hitems.symm.trans hitems')
  exact ⟨rfl, rfl, (hscan.deterministic hscan').1⟩

theorem not_stray (hp : s.Pushes t inner sub) : t.cls ≠ .stray := by
  intro hcls
  have hopens := hp.opens.opens?
  rw [hcls] at hopens
  cases hopens

end Pushes

/-- The step makes the token and opens nothing behind it. -/
structure Plain (s : Step) (t : Token) : Prop where
  mem : t ∈ s.tokens
  not_pushes : ∀ inner sub, ¬ s.Pushes t inner sub

theorem plain_of_none (hs : s.hit? = none)
    (ht : .token t ∈ s.place.take s.place.rest.length .stray) : s.Plain t where
  mem := by
    rw [tokens, tokens_of_none hs]
    exact Item.mem_tokensAll_of_mem ht
  not_pushes := by
    rintro inner sub ⟨h, -, hs', -⟩
    cases hs.symm.trans hs'

theorem plain_of_hit (hs : s.hit? = some h) (hmove : ∀ inner, h.rule.move ≠ .push inner)
    (ht : .token t ∈ h.items s.place) : s.Plain t where
  mem := mem_tokens_of_hit hs ht
  not_pushes := by
    rintro inner sub ⟨h', -, hs', hmove', -⟩
    cases hs.symm.trans hs'
    exact hmove inner hmove'

/-- What is passed over in front of a match opens nothing, even if the match does. -/
theorem plain_of_skipped (hs : s.hit? = some h) (ht : .token t ∈ s.place.take h.skipped .stray) :
    s.Plain t where
  mem := mem_tokens_of_hit hs (List.mem_append_left _ ht)
  not_pushes _ _ hp := hp.not_stray (Cursor.mem_take ht)

end Lexer.Step

/-! ## One step for each token -/

theorem Stretch.pos_of_token? {x : Stretch} {t : Token} (h : x.token? = some t) : t.pos = x.pos := by
  unfold Stretch.token? at h
  split at h
  · cases h
  · cases h
    rfl

theorem Tiles.sorted {p : Nat} {ss : List Stretch} {u : List Char} (h : Tiles p ss u) :
    ss.Pairwise fun a b => a.pos < b.pos := by
  induction h with
  | nil => exact .nil
  | @cons s ss rest hne h ih =>
    refine List.pairwise_cons.mpr ⟨fun b hb => Nat.lt_of_lt_of_le ?_ (h.le_pos b hb), ih⟩
    exact Nat.lt_add_of_pos_right (List.length_pos_iff.mpr hne)

/-- No stretch of the one step starts where a stretch of the other does. -/
def Lexer.Step.Apart (s s' : Lexer.Step) : Prop :=
  ∀ x ∈ s.stretches, ∀ y ∈ s'.stretches, x.pos ≠ y.pos

instance : Std.Symm Lexer.Step.Apart := ⟨fun _ _ h x hx y hy => (h y hy x hx).symm⟩

/-- Where the stretches of the steps are a text, no token is made by two steps. -/
theorem Tiles.step_unique {p : Nat} {log : List Lexer.Step} {u : List Char} {s s' : Lexer.Step}
    {t : Token} (h : Tiles p (stretchesOf log) u) (hs : s ∈ log) (hs' : s' ∈ log) (ht : t ∈ s.tokens)
    (ht' : t ∈ s'.tokens) : s = s' := by
  obtain ⟨x, hx, hxt⟩ := List.mem_filterMap.mp ht
  obtain ⟨y, hy, hyt⟩ := List.mem_filterMap.mp ht'
  have hpos : x.pos = y.pos := (Stretch.pos_of_token? hxt).symm.trans (Stretch.pos_of_token? hyt)
  have hsteps : log.Pairwise Lexer.Step.Apart :=
    (List.pairwise_flatMap.mp h.sorted).2.imp fun h x hx y hy => Nat.ne_of_lt (h x hx y hy)
  by_contra hne
  exact hsteps.forall hs hs' hne x hx y hy hpos

/-- Some step that was made in mode `m` pushes a context behind the token. -/
def OpenedBy (log : List Lexer.Step) (m : Mode) (t : Token) (inner : Mode) (sub : List Item) : Prop :=
  ∃ s ∈ log, s.mode = m ∧ s.Pushes t inner sub

namespace OpenedBy

variable {log : List Lexer.Step} {m m' inner inner' : Mode} {t : Token} {sub sub' : List Item}

theorem opens (h : OpenedBy log m t inner sub) : Opens m t inner := by
  obtain ⟨s, -, rfl, hp⟩ := h
  exact hp.opens

/-- A token opens one context only. -/
theorem unique {p : Nat} {u : List Char} (htiles : Tiles p (stretchesOf log) u)
    (h : OpenedBy log m t inner sub) (h' : OpenedBy log m' t inner' sub') :
    m = m' ∧ inner = inner' ∧ sub = sub' := by
  obtain ⟨s, hs, rfl, hp⟩ := h
  obtain ⟨s', hs', rfl, hp'⟩ := h'
  obtain rfl := htiles.step_unique hs hs' hp.mem_tokens hp'.mem_tokens
  exact ⟨rfl, (hp.unique hp').2⟩

end OpenedBy

/-! ## The items of a run -/

/-- The items of a context in mode `m`, by the steps that made them: directly behind each token stands
what was opened there, unless nothing was found in it, and no other context. -/
inductive Attached (log : List Lexer.Step) (m : Mode) : List Item → Prop where
  | nil : Attached log m []
  | token {s : Lexer.Step} {t : Token} {items : List Item} : s ∈ log → s.mode = m → t ∈ s.tokens →
      (∀ inner sub, s.Pushes t inner sub → sub = []) → Attached log m items →
      Attached log m (.token t :: items)
  | context {s : Lexer.Step} {t : Token} {inner : Mode} {sub items : List Item} : s ∈ log →
      s.mode = m → s.Pushes t inner sub → sub ≠ [] → Attached log m items →
      Attached log m (.token t :: .context inner sub :: items)

namespace Attached

variable {log log' : List Lexer.Step} {m : Mode} {s : Lexer.Step} {items : List Item} {t : Token}

theorem mono (hsub : log ⊆ log') (h : Attached log m items) : Attached log' m items := by
  induction h with
  | nil => exact .nil
  | token hs hm ht hnone _ ih => exact .token (hsub hs) hm ht hnone ih
  | context hs hm hp hne _ ih => exact .context (hsub hs) hm hp hne ih

/-- Tokens of a step that opens nothing behind them, in front. -/
theorem plain {own : List Item} (hs : s ∈ log) (hm : s.mode = m)
    (hown : ∀ i ∈ own, ∃ t, i = .token t ∧ s.Plain t) (h : Attached log m items) :
    Attached log m (own ++ items) := by
  induction own with
  | nil => exact h
  | cons i own ih =>
    obtain ⟨⟨t, rfl, ht⟩, hrest⟩ := List.forall_mem_cons.mp hown
    exact .token hs hm ht.mem (fun inner sub hp => absurd hp (ht.not_pushes inner sub)) (ih hrest)

/-- A token with what a step opened behind it, in front. -/
theorem push {inner : Mode} {sub : List Item} (hs : s ∈ log) (hm : s.mode = m)
    (hp : s.Pushes t inner sub) (h : Attached log m items) :
    Attached log m (.token t :: (Item.nested inner sub ++ items)) := by
  cases sub with
  | nil => exact .token hs hm hp.mem_tokens (fun k js hp' => (hp'.unique hp).2.2) h
  | cons i is => exact .context hs hm hp (List.cons_ne_nil i is) h

theorem startsWithToken (h : Attached log m items) : StartsWithToken items := by
  rintro k sub rest rfl
  cases h

/-- Directly in front of a context stands the token that opened it. -/
theorem in_front (h : Attached log m items) {front behind : List Item} {inner : Mode}
    {sub : List Item} (hitems : items = front ++ .context inner sub :: behind) :
    ∃ before t, front = before ++ [.token t] ∧ OpenedBy log m t inner sub := by
  induction h generalizing front with
  | nil => exact absurd hitems.symm (List.append_ne_nil_of_right_ne_nil _ (List.cons_ne_nil _ _))
  | @token s u items _ _ _ _ _ ih =>
    cases front with
    | nil => cases hitems
    | cons i front =>
      obtain ⟨rfl, hrest⟩ := List.cons.inj hitems
      obtain ⟨before, t, rfl, hpushed⟩ := ih hrest
      exact ⟨.token u :: before, t, rfl, hpushed⟩
  | @context s u k js items hs hm hp _ _ ih =>
    rcases front with _ | ⟨i, _ | ⟨j, front⟩⟩
    · cases hitems
    · cases hitems
      exact ⟨[], u, rfl, s, hs, hm, hp⟩
    · obtain ⟨rfl, hrest⟩ := List.cons.inj hitems
      obtain ⟨rfl, hbehind⟩ := List.cons.inj hrest
      obtain ⟨before, t, rfl, hpushed⟩ := ih hbehind
      exact ⟨.token u :: .context k js :: before, t, rfl, hpushed⟩

end Attached

/-- The items of a run, and those of each context in it, are as its steps made them; a context in it is
not empty. -/
theorem Logged.attached {m : Mode} {c stop : Cursor} {items : List Item} {log : List Lexer.Step}
    (h : Logged m c items stop log) : Attached log m items ∧
      ∀ p ∈ Item.contextsAll items, p.2 ≠ [] ∧ Attached log p.1 p.2 := by
  induction h with
  | @stop m c hs =>
    refine ⟨?_, by rw [Cursor.contextsAll_take]; exact nofun⟩
    rw [← List.append_nil (c.take _ _)]
    refine .plain List.mem_cons_self rfl (fun i hi => ?_) .nil
    obtain ⟨t, rfl⟩ := Cursor.exists_token_of_mem_take hi
    exact ⟨t, rfl, Lexer.Step.plain_of_none hs hi⟩
  | @stay m c stop h items log hs hmove _ ih =>
    obtain ⟨hitems, hbelow⟩ := ih
    have hlog : log ⊆ ⟨m, c⟩ :: log := List.subset_cons_self _ _
    rw [Item.contextsAll_append, Mode.Hit.contextsAll_items, List.nil_append]
    refine ⟨.plain List.mem_cons_self rfl (fun i hi => ?_) (hitems.mono hlog),
      fun p hp => (hbelow p hp).imp_right (.mono hlog)⟩
    obtain ⟨t, rfl⟩ := Mode.Hit.exists_token_of_mem hi
    exact ⟨t, rfl, Lexer.Step.plain_of_hit hs (by rw [hmove]; exact nofun) hi⟩
  | @pop m c h hs hmove =>
    refine ⟨?_, by rw [Mode.Hit.contextsAll_items]; exact nofun⟩
    rw [← List.append_nil (h.items c)]
    refine .plain List.mem_cons_self rfl (fun i hi => ?_) .nil
    obtain ⟨t, rfl⟩ := Mode.Hit.exists_token_of_mem hi
    exact ⟨t, rfl, Lexer.Step.plain_of_hit hs (by rw [hmove]; exact nofun) hi⟩
  | @push m inner c back stop h sub items inside log hs hmove hsub _ ihsub ih =>
    obtain ⟨hinner, hbelow⟩ := ihsub
    obtain ⟨hitems, hrest⟩ := ih
    have hinside : inside ⊆ ⟨m, c⟩ :: (inside ++ log) := fun s hs =>
      List.mem_cons_of_mem _ (List.mem_append_left _ hs)
    have hlog : log ⊆ ⟨m, c⟩ :: (inside ++ log) := fun s hs =>
      List.mem_cons_of_mem _ (List.mem_append_right _ hs)
    obtain ⟨t, ht, -⟩ := Mode.Hit.items_of_push hs hmove
    constructor
    · rw [ht, List.append_assoc, List.append_assoc]
      refine .plain List.mem_cons_self rfl (fun i hi => ?_)
        (.push List.mem_cons_self rfl ⟨h, back, hs, hmove, ht, hsub.scans⟩ (hitems.mono hlog))
      obtain ⟨u, rfl⟩ := Cursor.exists_token_of_mem_take hi
      exact ⟨u, rfl, Lexer.Step.plain_of_skipped hs hi⟩
    · intro p hp
      rw [Item.contextsAll_append, Item.contextsAll_append, Mode.Hit.contextsAll_items,
        List.nil_append, List.mem_append, Item.mem_contextsAll_nested] at hp
      rcases hp with (⟨hne, rfl⟩ | hp) | hp
      · exact ⟨hne, hinner.mono hinside⟩
      · exact (hbelow p hp).imp_right (.mono hinside)
      · exact (hrest p hp).imp_right (.mono hlog)

end BlockMarkup
