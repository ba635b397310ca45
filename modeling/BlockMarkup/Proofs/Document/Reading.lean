import BlockMarkup.Proofs.Document.Nodes
import BlockMarkup.Proofs.Token.First

/-!
# BlockMarkup.Proofs.Document.Reading

Reading what stands on lines of its own. `Reading m text ns` says that in a body of mode `m`,
wherever `text` comes behind white space, it is read as the nodes `ns`. Such texts can be put one
behind the other (`Reading.append`).
-/

namespace BlockMarkup

open Text

/-- What comes next does not make a name of a string literal in front of it. -/
def Follows (text : List Char) : Prop := ∀ c ∈ (stripStart text).head?, c ≠ ':'

theorem follows_nil : Follows [] := nofun

/-- In a body of mode `m`, the items are the nodes `ns`, whatever comes behind them. -/
structure Yields (m : Mode) (items : List Item) (ns : List Node) : Prop where
  token : ∀ more, StartsWithToken more → StartsWithToken (items ++ more)
  nodes : ∀ more, StartsWithToken more → (bodyNodes m (items ++ more)).map Node.forgetOrigin =
    ns ++ (bodyNodes m more).map Node.forgetOrigin

namespace Yields

variable {m : Mode} {items items' : List Item} {ns ns' : List Node}

theorem nil : Yields m [] [] := ⟨fun _ h => h, fun _ _ => rfl⟩

theorem append (h : Yields m items ns) (h' : Yields m items' ns') :
    Yields m (items ++ items') (ns ++ ns') := by
  constructor
  · intro more hmore
    rw [List.append_assoc]
    exact h.token _ (h'.token _ hmore)
  · intro more hmore
    rw [List.append_assoc, h.nodes _ (h'.token _ hmore), h'.nodes _ hmore, List.append_assoc]

theorem startsWithToken_token (t : Token) (items : List Item) :
    StartsWithToken (.token t :: items) := by
  intro k sub rest h
  cases h

/-- A token and the context it opens are one node. -/
theorem push {inner : Mode} {t : Token} {sub : List Item} {n : Node}
    (hclose : closesBlock m t = false)
    (hn : nodeOf? m t sub (innerNodes t.cls (.context inner sub)) = some n) :
    Yields m (.token t :: Item.nested inner sub) [n.forgetOrigin] := by
  constructor
  · exact fun _ _ => startsWithToken_token _ _
  · intro more hmore
    rw [List.cons_append, bodyNodes_push hmore hclose, hn, List.map_append]
    rfl

theorem of_opens {inner : Mode} {t : Token} {sub : List Item} {n : Node} (hm : m.isBody = true)
    (h : Opens m t inner)
    (hn : openedNode m inner t sub (innerNodes t.cls (.context inner sub)) = some n) :
    Yields m (.token t :: Item.nested inner sub) [n.forgetOrigin] :=
  push (closesBlock_of_opens h hm) ((nodeOf?_of_opens hm h sub _).trans hn)

theorem token' {t : Token} {n : Node} (hclose : closesBlock m t = false)
    (hn : nodeOf? m t [] [] = some n) : Yields m [.token t] [n.forgetOrigin] := by
  constructor
  · exact fun _ _ => startsWithToken_token _ _
  · intro more hmore
    rw [List.singleton_append, bodyNodes_token hmore hclose, hn, List.map_append]
    rfl

end Yields

/-- White space in a body is passed over. -/
theorem reads_blanks_to {m : Mode} (hm : m.isBody = true) {c : Cursor} {w t : List Char}
    (h : c.rest = w ++ t) (hw : ∀ x ∈ w, isBlank x = true)
    (ht : ∀ x ∈ t.head?, isBlank x = false) : Reads m c [] ⟨c.pos + w.length, t⟩ := by
  by_cases hne : w = []
  · subst hne
    obtain ⟨pos, rest⟩ := c
    obtain rfl : rest = t := h
    exact .refl
  · exact Reads.skip_text h hne (Mode.first?_blanks hm hw hne ht) rfl rfl

theorem reads_blanks {m : Mode} (hm : m.isBody = true) {c : Cursor} {w t : List Char}
    (h : c.rest = w ++ t) (hw : ∀ x ∈ w, isBlank x = true)
    (ht : ∀ x ∈ t.head?, isBlank x = false) : ∃ c', c'.rest = t ∧ Reads m c [] c' :=
  ⟨_, rfl, reads_blanks_to hm h hw ht⟩

/-- Behind white space, the text is read as the nodes `ns`. -/
structure Reading (m : Mode) (text : List Char) (ns : List Node) : Prop where
  reads : ∀ (c : Cursor) (w more : List Char), c.rest = w ++ (text ++ more) →
    (∀ x ∈ w, isBlank x = true) → Follows more → ∃ w' items c', c'.rest = w' ++ more ∧
      (∀ x ∈ w', isBlank x = true) ∧ Reads m c items c' ∧ Yields m items ns
  follows : ∀ more, Follows more → Follows (text ++ more)

namespace Reading

variable {m : Mode} {s t : List Char} {ns ns' : List Node}

theorem nil : Reading m [] [] where
  reads c w _ h hw _ := ⟨w, [], c, h, hw, .refl, .nil⟩
  follows _ h := h

theorem append (h : Reading m s ns) (h' : Reading m t ns') : Reading m (s ++ t) (ns ++ ns') where
  reads := by
    intro c w more hc hw hmore
    rw [List.append_assoc] at hc
    obtain ⟨w₁, items₁, c₁, hc₁, hw₁, hreads₁, hyields₁⟩ := h.reads c w _ hc hw (h'.follows _ hmore)
    obtain ⟨w₂, items₂, c₂, hc₂, hw₂, hreads₂, hyields₂⟩ := h'.reads c₁ w₁ more hc₁ hw₁ hmore
    exact ⟨w₂, items₁ ++ items₂, c₂, hc₂, hw₂, hreads₁.trans hreads₂, hyields₁.append hyields₂⟩
  follows := by
    intro more hmore
    rw [List.append_assoc]
    exact h.follows _ (h'.follows _ hmore)

/-- A text on lines of its own, behind a margin. -/
theorem line (hm : m.isBody = true) {margin core : List Char}
    (hmargin : ∀ x ∈ margin, isBlank x = true) (hne : core ≠ [])
    (hhead : ∀ x ∈ core.head?, isBlank x = false ∧ x ≠ ':')
    (hcore : ∀ (c : Cursor) (more : List Char), c.rest = core ++ '\n' :: more → Follows more →
      ∃ items c', c'.rest = '\n' :: more ∧ Reads m c items c' ∧ Yields m items ns) :
    Reading m (margin ++ (core ++ ['\n'])) ns where
  reads := by
    intro c w more hc hw hmore
    have hsplit : c.rest = (w ++ margin) ++ (core ++ '\n' :: more) := by
      rw [hc]
      simp
    have hblanks : ∀ x ∈ w ++ margin, isBlank x = true :=
      List.forall_mem_append.mpr ⟨hw, hmargin⟩
    have hstop : ∀ x ∈ (core ++ '\n' :: more).head?, isBlank x = false := by
      intro x hx
      cases core with
      | nil => exact absurd rfl hne
      | cons d core => exact (hhead x hx).1
    obtain ⟨c₁, hc₁, hreads₁⟩ := reads_blanks hm hsplit hblanks hstop
    obtain ⟨items, c₂, hc₂, hreads₂, hyields⟩ := hcore c₁ more hc₁ hmore
    refine ⟨['\n'], items, c₂, hc₂, ?_, hreads₁.trans hreads₂, hyields⟩
    intro x hx
    cases List.mem_singleton.mp hx
    decide
  follows := by
    intro _ _ x hx
    cases core with
    | nil => exact absurd rfl hne
    | cons d core =>
      have hd := hhead d rfl
      rw [List.append_assoc, stripStart_append hmargin,
        stripStart_of_head (by rintro y ⟨⟩; exact hd.1)] at hx
      cases hx
      exact hd.2

end Reading

/-- A text whose lines are read as nodes is read as these nodes. -/
theorem Reading.lex {text : List Char} {ns : List Node} (h : Reading .root text ns) :
    (bodyNodes .root (lex .root text)).map Node.forgetOrigin = ns := by
  obtain ⟨w, items, c, hc, hw, hreads, hyields⟩ := h.reads (Cursor.start text) [] []
    (by simp [Cursor.start]) (List.forall_mem_nil _) follows_nil
  obtain ⟨c', hc', hblanks⟩ := reads_blanks (m := .root) rfl hc hw (by simp)
  obtain ⟨pos, rest⟩ := c'
  obtain rfl : rest = [] := hc'
  have hstop : Scans .root ⟨pos, []⟩ [] ⟨pos, []⟩ := Scans.stop (c := ⟨pos, []⟩) rfl
  have hscans := (hreads.trans hblanks) _ _ hstop
  rw [List.append_nil, List.append_nil] at hscans
  rw [lex_eq_of_scans isBottom_root hscans]
  have := hyields.nodes [] startsWithToken_nil
  rwa [List.append_nil, bodyNodes, List.map_nil, List.append_nil] at this

end BlockMarkup
