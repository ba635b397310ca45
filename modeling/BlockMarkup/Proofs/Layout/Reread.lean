import BlockMarkup.Proofs.Layout.Settled

/-!
# BlockMarkup.Proofs.Layout.Reread

Whole documents, written and read back. Nothing in a settled node is invalid, so the text of placed
root nodes is accepted, and it is read as the root nodes, settled (`Placed.reread`).
-/

namespace BlockMarkup

namespace Flawless

variable {ns : List Node}

theorem iff_forall : Flawless ns ↔ ∀ n ∈ ns, Flawless [n] := by
  induction ns with
  | nil => exact iff_of_true .nil nofun
  | cons n ns ih =>
    obtain ⟨l, cs⟩ := n
    rw [cons_iff, ih, List.forall_mem_cons, singleton_iff, and_assoc]

theorem of_cls {l : Label} {cs : List Node} {k : Kind} (hc : l.cls = .of k)
    (hk : k.isA .invalid = false) (hcs : Flawless cs) : Flawless [.mk l cs] := by
  rw [singleton_iff, Label.isA, hc]
  exact ⟨hk, hcs⟩

theorem of_value {P : List Char → Prop} {v : Node} (h : IsString v ∨ IsExpression P v) :
    Flawless [v] := by
  obtain ⟨l, cs⟩ := v
  rcases h with ⟨b, hc, -, hleaf, -⟩ | ⟨s, hc, -, hleaf, -⟩
  · obtain rfl : cs = [] := hleaf
    exact of_cls hc rfl .nil
  · obtain rfl : cs = [] := hleaf
    exact of_cls hc rfl .nil

end Flawless

/-- There is nothing invalid in a placed node. -/
theorem Placed.flawless {X : Heads} {m : Mode} {n : Node} (h : Placed X m n) : Flawless [n] := by
  induction h with
  | text hc _ _ => exact .of_cls hc rfl .nil
  | decoration hc _ _ => exact .of_cls hc rfl .nil
  | rawExpression hc he => exact .of_cls hc rfl (.of_value (.inr he))
  | element hc _ _ _ _ ih => exact .of_cls hc rfl (Flawless.iff_forall.mpr ih)
  | component hc _ _ _ _ _ ih => exact .of_cls hc rfl (Flawless.iff_forall.mpr ih)
  | key hc _ _ => exact .of_cls hc rfl .nil
  | @attr l p v _ _ hc hv =>
    refine .of_cls hc ?_ (.of_value (hv.imp_left And.left))
    rcases attributeKind_cases p (v.kind = .string) with hk | hk | hk | hk | hk <;> rw [hk] <;> rfl
  | @field l p v _ _ hc hv =>
    refine .of_cls hc ?_ (.of_value hv)
    rcases fieldKind_cases p (v.kind = .string) with hk | hk | hk <;> rw [hk] <;> rfl
  | spread hc he => exact .of_cls hc rfl (.of_value (.inr he))

namespace Node

theorem mem_of_mem_arranged {n : Node} {ns : List Node} (h : n ∈ arranged ns) : n ∈ ns := by
  obtain ⟨k, -, hn⟩ := List.mem_flatMap.mp h
  exact (List.mem_filter.mp hn).1

mutual

/-- Settling makes nothing invalid. -/
theorem flawless_settle (f : Formatter) (depth : Int) :
    (n : Node) → Flawless [n] → Flawless [n.settle f depth]
  | .mk l cs => fun h => by
    obtain ⟨hl, hcs⟩ := Flawless.singleton_iff.mp h
    have hall := Flawless.iff_forall.mp (flawless_settleAll f (depth + 1) cs hcs)
    rw [settle, Flawless.singleton_iff]
    exact ⟨hl, Flawless.iff_forall.mpr fun n hn => hall n (mem_of_mem_arranged hn)⟩

theorem flawless_settleAll (f : Formatter) (depth : Int) :
    (ns : List Node) → Flawless ns → Flawless (settleAll f depth ns)
  | [], _ => .nil
  | .mk l cs :: ns, h => by
    obtain ⟨hl, hcs, hns⟩ := Flawless.cons_iff.mp h
    have hn := flawless_settle f depth (.mk l cs) (Flawless.singleton_iff.mpr ⟨hl, hcs⟩)
    rw [settleAll, ← List.singleton_append, Flawless.append_iff]
    exact ⟨hn, flawless_settleAll f depth ns hns⟩

end

theorem forgetOrigin_forgetOrigin (n : Node) : n.forgetOrigin.forgetOrigin = n.forgetOrigin := by
  induction n using Tree.rec (motive_2 := fun ns => (ns.map forgetOrigin).map forgetOrigin =
    ns.map forgetOrigin) with
  | mk l cs ih => rw [forgetOrigin_mk, forgetOrigin_mk, ih]; rfl
  | nil => rfl
  | cons n ns ihn ihns => rw [List.map_cons, List.map_cons, ihn, ihns]

/-- The root nodes of a document that was written with a formatter and read back. -/
def settledRoots (f : Formatter) (ns : List Node) : List Node :=
  (ns.filter isWritten).map (settle f f.startIndent)

end Node

/-- A text whose lines are read as flawless nodes is accepted, and read as these. -/
theorem Reading.read {text : List Char} {ns : List Node} (h : Reading .root text ns)
    (hns : Flawless ns) (origin : Bool) : ∃ d, read origin text = .ok d ∧
      d.cls = .of .document ∧ d.children.map Node.forgetOrigin = ns := by
  have hlex := h.lex
  have hflawless : Flawless (bodyNodes .root (BlockMarkup.lex .root text)) := by
    have hmap : (bodyNodes .root (BlockMarkup.lex .root text)).map Node.forgetOrigin =
        Tree.mapAll _ _ := (Tree.mapAll_eq_map _ _).symm
    rw [← hlex, hmap] at hns
    exact flawless_forgetOrigin.mp hns
  obtain ⟨d, hd⟩ : ∃ d, BlockMarkup.read origin text = .ok d := isOk_read_iff.mpr hflawless
  refine ⟨d, hd, ?_⟩
  cases origin with
  | true =>
    obtain rfl := read_eq_ok hd
    exact ⟨rfl, hlex⟩
  | false =>
    refine ⟨read_eq_ok hd ▸ rfl, ?_⟩
    rw [children_of_read hd, List.map_map, ← hlex]
    exact List.map_congr_left fun n _ => n.forgetOrigin_forgetOrigin

/-- Placed root nodes without quoted names can be written, and what is written is accepted and read
as the root nodes, settled. -/
theorem Placed.reread {X : Heads} {f : Formatter} {ns : List Node} (hX : X.Readable f)
    (hr : f.renderer = .tidy) (hns : ∀ n : Node, n ∈ ns → Placed X .root n)
    (hquoted : ∀ n : Node, n ∈ ns → ¬ n.HasQuotedName) :
    ∃ t, (f.nodes ns).Writes t ∧ ∀ origin, ∃ d, read origin t = .ok d ∧
      d.cls = .of .document ∧ d.children.map Node.forgetOrigin = Node.settledRoots f ns := by
  obtain ⟨t, hwrites, hreading⟩ := concat_settles (m := .root) (g := f.node f.startIndent)
    (h := Node.settled f f.startIndent) fun n hn =>
      let ⟨t, ht, hread⟩ := (hns n hn).settles hX hr (hns n hn).isA_bodyNode (hquoted n hn) _
      ⟨t, ht, hread .root rfl⟩
  rw [flatMap_settled] at hreading
  refine ⟨t, hwrites, hreading.read (Flawless.iff_forall.mpr fun n hn => ?_)⟩
  obtain ⟨m, hm, rfl⟩ := List.mem_map.mp hn
  exact m.flawless_settle f _ (hns m (List.mem_filter.mp hm).1).flawless

end BlockMarkup
