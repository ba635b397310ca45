import BlockMarkup.Proofs.Document.Factory
import BlockMarkup.Proofs.Document.Spans
import BlockMarkup.Proofs.Format
import BlockMarkup.Proofs.Layout.Alike

/-!
# BlockMarkup.Proofs.Document.Origins

What keeping tokens changes: nothing but where nodes stand. A text is read with and without them to
equal documents, which are written alike, or to the same failure (`read_alike`).
-/

namespace BlockMarkup

/-- The flaw that is reported does not depend on origins. -/
theorem firstInvalid?_forgetOrigin (n : Node) :
    firstInvalid? n.forgetOrigin = (firstInvalid? n).map Node.withoutOrigin := by
  rw [firstInvalid?, children_forgetOrigin, Tree.preorderAll_mapAll, List.find?_map]
  rfl

theorem check_forgetOrigin (n : Node) :
    check n.forgetOrigin = (check n).map Node.forgetOrigin := by
  rw [check, check, firstInvalid?_forgetOrigin]
  cases firstInvalid? n <;> rfl

/-- Without tokens the same texts are read, to the same documents without origins. -/
theorem read_false_eq (text : List Char) :
    read false text = (read true text).map Node.forgetOrigin := check_forgetOrigin (transcribe text)

namespace Node

/-- Nobody can tell where the nodes of a tree stand. -/
def Placeless (d : Node) : Prop := ∀ n : Node, n ∈ d.subtrees → n.start? = none ∧ n.stop? = .ok none

/-- The nodes have the same text, or neither has a written form. -/
def WrittenAlike (f : Formatter) (a b : Node) : Prop :=
  (∃ s, a.write f = .ok s ∧ b.write f = .ok s) ∨
    ∃ u v, a.write f = .error (.unsupported u) ∧ b.write f = .error (.unsupported v)

theorem start?_forgetOrigin (n : Node) : n.forgetOrigin.start? = none := by
  rw [start?, forgetOrigin, Tree.preorder_map, List.findSome?_eq_none_iff]
  intro l hl
  obtain ⟨k, -, rfl⟩ := List.mem_map.mp hl
  rfl

/-- Only an entity has an end. -/
theorem isA_entity_of_stop? {n : Node} {o : Option Nat} (h : n.stop? = .ok o) :
    n.isA .entity = true := by
  obtain ⟨l, cs⟩ := n
  rw [stop?] at h
  split at h
  · assumption
  · cases h

mutual

theorem stop?_forgetOrigin : (n : Node) → (∀ m : Node, m ∈ n.subtrees → m.isA .entity = true) →
    n.forgetOrigin.stop? = .ok none
  | .mk l cs, h => by
    rw [Tree.subtrees, List.forall_mem_cons] at h
    have hl : (withoutOrigin l).isA .entity = true := h.1
    rw [forgetOrigin_mk, stop?, if_pos hl, stopOfLast_forgetOrigin cs h.2]
    rfl

theorem stopOfLast_forgetOrigin : (ns : List Node) →
    (∀ m : Node, m ∈ Tree.subtreesAll ns → m.isA .entity = true) →
    stopOfLast (ns.map forgetOrigin) = .ok none
  | [], _ => rfl
  | n :: ns, h => by
    rw [Tree.subtreesAll, List.forall_mem_append] at h
    rw [List.map_cons, stopOfLast, stopOfLast_forgetOrigin ns h.2]
    exact stop?_forgetOrigin n h.1

end

theorem placeless_forgetOrigin {d : Node} (h : ∀ n : Node, n ∈ d.subtrees → n.isA .entity = true) :
    d.forgetOrigin.Placeless := by
  intro n hn
  rw [forgetOrigin, Tree.subtrees_map] at hn
  obtain ⟨m, hm, rfl⟩ := List.mem_map.mp hn
  exact ⟨start?_forgetOrigin m, stop?_forgetOrigin m fun k hk => h k (Tree.subtrees_trans hk d hm)⟩

end Node

/-- All nodes of a document that was read are entities. -/
theorem isA_entity_of_read {text : List Char} {d : Node} (h : read true text = .ok d) :
    ∀ n : Node, n ∈ d.subtrees → n.isA .entity = true := by
  have hnested := wellNested_of_read h
  obtain rfl : d = .bare .document (bodyNodes .root (lex .root text)) := read_eq_ok h
  rw [Node.bare, Tree.subtrees, List.forall_mem_cons]
  refine ⟨rfl, fun n hn => ?_⟩
  obtain ⟨p, q, -, -, hstands, -⟩ := hnested.nodes n hn
  exact Node.isA_entity_of_stop? hstands.stop

/-- A text is read through the factory that keeps tokens and through the one that does not. Either
both readings fail, with the same words and position, or both give a document. The documents are
equal, and written alike for every width and indent; the one without tokens has no positions. -/
theorem read_alike (text : List Char) :
    (∀ origin, read origin text = check ((Factory.of origin).document text)) ∧
    ((∃ e, read true text = .error e ∧ read false text = .error e) ∨
      ∃ d d', read true text = .ok d ∧ read false text = .ok d' ∧ d.equals d' = true ∧
        (∀ width start, d.WrittenAlike ⟨width, start, .tidy⟩ d') ∧ d'.Placeless) := by
  refine ⟨fun origin => by rw [read, transcribeWith_eq_document], ?_⟩
  cases h : read true text with
  | error e => exact .inl ⟨e, rfl, by rw [read_false_eq, h]; rfl⟩
  | ok d =>
    have hfalse : read false text = .ok d.forgetOrigin := by rw [read_false_eq, h]; rfl
    have hsame := d.same_forgetOrigin
    refine .inr ⟨d, d.forgetOrigin, rfl, hfalse, hsame, fun width start => ?_,
      Node.placeless_forgetOrigin (isA_entity_of_read h)⟩
    rcases hsame.write_alike (f := ⟨width, start, .tidy⟩) (Renderer.ofHead_respects _) with
      hwrites | ⟨f, g, hf, hg, hfg⟩
    · exact .inl hwrites
    · rcases write_of_read width start hfalse with ⟨⟨s, hs⟩, -⟩ | ⟨⟨v, hv⟩, -⟩
      · rw [hg] at hs
        cases hs
      · rw [hg] at hv
        cases hv
        cases hfg with
        | same _ => exact .inr ⟨v, v, hf, hg⟩
        | unsupported _ => exact .inr ⟨_, v, hf, hg⟩

end BlockMarkup
