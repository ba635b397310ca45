import BlockMarkup.Format
import BlockMarkup.Proofs.Layout.Outcome

/-!
# BlockMarkup.Proofs.Format

How formatting a text can end: with a text, with a parse failure where the text is rejected, or for
want of a written form, which is so exactly where an attribute has a quoted name.
-/

namespace BlockMarkup

theorem IsString.forgetOrigin {v : Node} (h : IsString v) : IsString v.forgetOrigin := by
  obtain ⟨b, hc, hb, hleaf, hq⟩ := h
  exact ⟨b, v.cls_forgetOrigin.trans hc, v.head_forgetOrigin.trans hb,
    Node.children_forgetOrigin_eq_nil hleaf, hq⟩

theorem IsExpression.forgetOrigin {P : List Char → Prop} {v : Node} (h : IsExpression P v) :
    IsExpression P v.forgetOrigin := by
  obtain ⟨s, hc, hs, hleaf, hP⟩ := h
  exact ⟨s, v.cls_forgetOrigin.trans hc, v.head_forgetOrigin.trans hs,
    Node.children_forgetOrigin_eq_nil hleaf, hP⟩

/-- Placed nodes stay placed without their origins. -/
theorem Placed.forgetOrigin {X : Heads} {m : Mode} {n : Node} (h : Placed X m n) :
    Placed X m n.forgetOrigin := by
  induction h with
  | text hc hb hq => exact .text hc hb hq
  | decoration hc hs hX => exact .decoration hc hs hX
  | rawExpression hc he => rw [Node.forgetOrigin_mk]; exact .rawExpression hc he.forgetOrigin
  | element hc hp htag _ hkeys ih =>
    rw [Node.forgetOrigin_mk]
    refine .element hc hp htag ?_ (by rw [length_filter_kind_forgetOrigin]; exact hkeys)
    intro c hm
    obtain ⟨d, hd, rfl⟩ := List.mem_map.mp hm
    exact ih d hd
  | component hc hp hpath htag _ hspreads ih =>
    rw [Node.forgetOrigin_mk]
    refine .component hc hp hpath htag ?_ (by rw [length_filter_kind_forgetOrigin]; exact hspreads)
    intro c hm
    obtain ⟨d, hd, rfl⟩ := List.mem_map.mp hm
    exact ih d hd
  | key hc hb hq => exact .key hc hb hq
  | @attr l p v hp hname hc hv =>
    rw [Node.forgetOrigin_mk]
    refine .attr hp hname ?_ (hv.imp (And.imp_left IsString.forgetOrigin) IsExpression.forgetOrigin)
    rw [Node.kind_forgetOrigin]
    exact hc
  | @field l p v hp hname hc hv =>
    rw [Node.forgetOrigin_mk]
    refine .field hp hname ?_ (hv.imp IsString.forgetOrigin IsExpression.forgetOrigin)
    rw [Node.kind_forgetOrigin]
    exact hc
  | spread hc he => rw [Node.forgetOrigin_mk]; exact .spread hc he.forgetOrigin

/-- Nothing is said about heads. -/
def Heads.any : Heads := ⟨fun _ => True, fun _ => True, fun _ => True, fun _ => True⟩

theorem Heads.any_hold (items : List Item) : Heads.any.Hold items :=
  ⟨fun _ _ _ => trivial, fun _ _ => trivial, fun _ _ => trivial, fun _ _ _ _ => trivial⟩

/-- The root nodes of a text that is read without a flaw are placed. -/
theorem placed_of_read {X : Heads} {text : List Char} {d : Node} (hX : X.Hold (lex .root text))
    (h : read false text = .ok d) : d.cls = .of .document ∧ ∀ n ∈ d.children, Placed X .root n := by
  have hflawless := isOk_read_iff.mp ⟨_, h⟩
  obtain ⟨left, hf⟩ := formed_lex isBottom_root text
  refine ⟨read_eq_ok h ▸ rfl, fun n hn => ?_⟩
  rw [children_of_read h] at hn
  obtain ⟨r, hr, rfl⟩ := List.mem_map.mp hn
  exact (placed_bodyNodes hf hX rfl hflawless r hr).forgetOrigin

/-- What was read is written, unless there is a quoted name in it. -/
theorem write_of_read {text : List Char} {d : Node} (w start : Int) (h : read false text = .ok d) :
    ((∃ s, d.write ⟨w, start, .tidy⟩ = .ok s) ∧ ¬ d.HasQuotedName) ∨
    ((∃ u, d.write ⟨w, start, .tidy⟩ = .error (.unsupported u)) ∧ d.HasQuotedName) := by
  obtain ⟨hc, hplaced⟩ := placed_of_read (Heads.any_hold _) h
  obtain ⟨l, cs⟩ := d
  have hscript : (Formatter.nodes ⟨w, start, .tidy⟩ cs).FailsIff
      (∃ c : Node, c ∈ cs ∧ c.HasQuotedName) :=
    .concat_map fun c hc => (hplaced c hc).failsIff rfl (hplaced c hc).isA_bodyNode start
  have hdocument : l.cls = .of .document := hc
  rw [Node.write_document _ hc]
  refine (hscript.congr ?_).result_cases
  rw [Node.hasQuotedName_mk_iff, Label.isQuotedName, Label.isA, Label.isA, hdocument]
  constructor
  · exact .inr
  · rintro (hq | hq)
    · exact absurd hq (by decide)
    · exact hq

/-- An accepted text is formatted as its root nodes are written. -/
theorem format_of_read {text : List Char} {d : Node} (h : read false text = .ok d) (w : Int) :
    format text w = (Formatter.nodes ⟨w, 0, .tidy⟩ d.children).result := by
  have hc : d.cls = .of .document := by
    rw [read_eq_ok h]
    rfl
  rw [format, h]
  exact Node.write_document _ hc

/-- A formatted text is what is written of the nodes that were read. -/
theorem writes_of_format {text out : List Char} {w : Int} (h : format text w = .ok out) :
    ∃ d, read false text = .ok d ∧ (Formatter.nodes ⟨w, 0, .tidy⟩ d.children).Writes out := by
  cases hread : read false text with
  | error e =>
    rw [format, hread] at h
    cases h
  | ok d =>
    rw [format_of_read hread] at h
    exact ⟨d, rfl, .of_result h⟩

end BlockMarkup
