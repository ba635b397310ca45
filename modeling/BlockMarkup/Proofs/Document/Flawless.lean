import BlockMarkup.Document.Read

/-!
# BlockMarkup.Proofs.Document.Flawless

Documents without flaws: `Flawless` holds of nodes when none of them, at any depth, is invalid, and
`read` accepts a text if and only if its transcript is flawless.
-/

namespace BlockMarkup

/-- No node is invalid, at any depth. -/
def Flawless (ns : List Node) : Prop := ∀ l ∈ Tree.preorderAll ns, l.isA .invalid = false

namespace Flawless

variable {l : Label} {ts ns ms : List Node}

theorem nil : Flawless [] := nofun

theorem cons_iff : Flawless (.mk l ts :: ns) ↔ l.isA .invalid = false ∧ Flawless ts ∧ Flawless ns := by
  constructor
  · intro h
    refine ⟨h l ?_, fun k hk => h k ?_, fun k hk => h k ?_⟩
    · simp [Tree.preorderAll, Tree.preorder]
    · simp [Tree.preorderAll, Tree.preorder, hk]
    · simp [Tree.preorderAll, hk]
  · rintro ⟨hl, hts, hns⟩ k hk
    simp only [Tree.preorderAll, Tree.preorder, List.cons_append, List.mem_cons,
      List.mem_append] at hk
    rcases hk with rfl | hk | hk
    · exact hl
    · exact hts k hk
    · exact hns k hk

theorem append_iff : Flawless (ns ++ ms) ↔ Flawless ns ∧ Flawless ms := by
  induction ns with
  | nil => simp [nil]
  | cons n ns ih =>
    obtain ⟨l, ts⟩ := n
    rw [List.cons_append, cons_iff, cons_iff, ih, and_assoc, and_assoc]

theorem singleton_iff : Flawless [.mk l ts] ↔ l.isA .invalid = false ∧ Flawless ts := by
  rw [cons_iff, and_iff_left nil]

theorem not_invalid (f : Flaw) (p : Option Nat) : ¬ Flawless (.invalid f p :: ns) := by
  intro h
  have hkind : Kind.isA .invalid .invalid = false := (cons_iff.mp h).1
  exact absurd hkind (by decide)

end Flawless

theorem isOk_check_iff {n : Node} : (∃ d, check n = .ok d) ↔ Flawless n.children := by
  unfold check firstInvalid?
  constructor
  · rintro ⟨d, hd⟩
    split at hd
    · cases hd
    · rename_i hnone
      intro l hl
      have := List.find?_eq_none.mp hnone l hl
      simpa using this
  · intro h
    have hnone : (Tree.preorderAll n.children).find? (fun (l : Label) => l.isA .invalid) = none := by
      rw [List.find?_eq_none]
      intro l hl
      simp [h l hl]
    rw [hnone]
    exact ⟨n, rfl⟩

theorem eq_of_check {n d : Node} (h : check n = .ok d) : d = n := by
  unfold check at h
  split at h
  · cases h
  · cases h; rfl

/-- Dropping origins neither makes nor removes flaws. -/
theorem flawless_forgetOrigin {ns : List Node} :
    Flawless (Tree.mapAll (fun l => { l with origin := none }) ns) ↔ Flawless ns := by
  simp only [Flawless, Tree.preorderAll_mapAll, List.mem_map, forall_exists_index, and_imp,
    forall_apply_eq_imp_iff₂]
  rfl

theorem Tree.mapAll_eq_map {α β : Type} (f : α → β) (ts : List (Tree α)) :
    Tree.mapAll f ts = ts.map (Tree.map f) := by
  induction ts with
  | nil => rfl
  | cons t ts ih => rw [Tree.mapAll, ih, List.map_cons]

theorem Tree.mem_preorderAll {α : Type} {a : α} {ts : List (Tree α)} :
    a ∈ Tree.preorderAll ts ↔ ∃ t ∈ ts, a ∈ t.preorder := by
  induction ts with
  | nil => simp [Tree.preorderAll]
  | cons t ts ih => simp [Tree.preorderAll, ih]

theorem Tree.mem_subtreesAll {α : Type} {t : Tree α} {ts : List (Tree α)} :
    t ∈ Tree.subtreesAll ts ↔ ∃ u ∈ ts, t ∈ u.subtrees := by
  induction ts with
  | nil => simp [Tree.subtreesAll]
  | cons u ts ih => simp [Tree.subtreesAll, ih]

namespace Tree

theorem mem_subtrees_self {α : Type} (t : Tree α) : t ∈ t.subtrees := by
  cases t
  exact List.mem_cons_self

theorem mem_subtrees_of_mem_children {α : Type} {t u : Tree α} (h : t ∈ u.children) :
    t ∈ u.subtrees := by
  obtain ⟨a, ts⟩ := u
  obtain ⟨b, us⟩ := t
  exact List.mem_cons_of_mem _ (mem_subtreesAll.mpr ⟨_, h, List.mem_cons_self⟩)

variable {α β : Type}

mutual

theorem subtrees_map (f : α → β) : (t : Tree α) → (t.map f).subtrees = t.subtrees.map (map f)
  | mk a ts => by rw [map, subtrees, subtrees, subtreesAll_mapAll f ts, List.map_cons, map]

theorem subtreesAll_mapAll (f : α → β) :
    (ts : List (Tree α)) → subtreesAll (mapAll f ts) = (subtreesAll ts).map (map f)
  | [] => rfl
  | t :: ts => by
    rw [mapAll, subtreesAll, subtreesAll, List.map_append, subtrees_map f t, subtreesAll_mapAll f ts]

end

mutual

theorem preorder_of_mem_subtrees {t : Tree α} {a : α} (ha : a ∈ t.preorder) :
    (u : Tree α) → t ∈ u.subtrees → a ∈ u.preorder
  | mk b us, h => by
    rcases List.mem_cons.mp h with rfl | h
    · exact ha
    · exact List.mem_cons_of_mem _ (preorder_of_mem_subtreesAll ha us h)

theorem preorder_of_mem_subtreesAll {t : Tree α} {a : α} (ha : a ∈ t.preorder) :
    (us : List (Tree α)) → t ∈ subtreesAll us → a ∈ preorderAll us
  | [], h => nomatch h
  | u :: us, h => (List.mem_append.mp h).elim
    (fun h => List.mem_append_left _ (preorder_of_mem_subtrees ha u h))
    (fun h => List.mem_append_right _ (preorder_of_mem_subtreesAll ha us h))

end

mutual

theorem subtrees_trans {s t : Tree α} (hs : s ∈ t.subtrees) :
    (u : Tree α) → t ∈ u.subtrees → s ∈ u.subtrees
  | mk b us, h => by
    rcases List.mem_cons.mp h with rfl | h
    · exact hs
    · exact List.mem_cons_of_mem _ (subtreesAll_trans hs us h)

theorem subtreesAll_trans {s t : Tree α} (hs : s ∈ t.subtrees) :
    (us : List (Tree α)) → t ∈ subtreesAll us → s ∈ subtreesAll us
  | [], h => nomatch h
  | u :: us, h => (List.mem_append.mp h).elim
    (fun h => List.mem_append_left _ (subtrees_trans hs u h))
    (fun h => List.mem_append_right _ (subtreesAll_trans hs us h))

end

end Tree

/-- The nodes below flawless ones are flawless. -/
theorem Flawless.of_mem_subtrees {ns : List Node} {n : Node} (h : Flawless ns)
    (hn : n ∈ Tree.subtreesAll ns) : Flawless [n] := by
  intro l hl
  rw [Tree.preorderAll, Tree.preorderAll, List.append_nil] at hl
  exact h l (Tree.preorder_of_mem_subtreesAll hl ns hn)

namespace Node

/-- A label without its origin. -/
def withoutOrigin (l : Label) : Label := { l with origin := none }

theorem forgetOrigin_mk (l : Label) (cs : List Node) :
    forgetOrigin (.mk l cs) = .mk (withoutOrigin l) (cs.map forgetOrigin) := by
  rw [forgetOrigin, Tree.map, Tree.mapAll_eq_map]
  rfl

theorem cls_forgetOrigin (n : Node) : n.forgetOrigin.cls = n.cls := by
  cases n
  rfl

theorem head_forgetOrigin (n : Node) : n.forgetOrigin.head = n.head := by
  cases n
  rfl

theorem kind_forgetOrigin (n : Node) : n.forgetOrigin.kind = n.kind :=
  congrArg NodeClass.kind n.cls_forgetOrigin

theorem children_forgetOrigin_eq_nil {n : Node} (h : n.children = []) :
    n.forgetOrigin.children = [] := by
  obtain ⟨l, cs⟩ := n
  obtain rfl : cs = [] := h
  rfl

end Node

theorem length_filter_kind_forgetOrigin (k : Kind) (cs : List Node) :
    ((cs.map Node.forgetOrigin).filter fun (c : Node) => c.kind = k).length =
      (cs.filter fun (c : Node) => c.kind = k).length := by
  rw [List.filter_map, List.length_map]
  refine congrArg List.length (List.filter_congr fun c _ => ?_)
  exact congrArg (fun j => decide (j = k)) c.kind_forgetOrigin

theorem children_transcribe (text : List Char) :
    (transcribe text).children = bodyNodes .root (lex .root text) := rfl

theorem children_forgetOrigin (n : Node) :
    n.forgetOrigin.children = Tree.mapAll (fun l => { l with origin := none }) n.children := by
  cases n
  rfl

/-- A text is accepted if and only if its transcript has no flaws. -/
theorem isOk_read_iff {origin : Bool} {text : List Char} :
    (∃ d, read origin text = .ok d) ↔ Flawless (bodyNodes .root (lex .root text)) := by
  rw [read, isOk_check_iff, transcribeWith]
  cases origin with
  | true => rfl
  | false =>
    rw [if_neg (by simp), children_forgetOrigin, flawless_forgetOrigin, children_transcribe]

theorem read_eq_ok {origin : Bool} {text : List Char} {d : Node} (h : read origin text = .ok d) :
    d = transcribeWith origin text := eq_of_check h

theorem children_of_read {text : List Char} {d : Node} (h : read false text = .ok d) :
    d.children = (bodyNodes .root (lex .root text)).map Node.forgetOrigin := by
  rw [read_eq_ok h]
  exact Tree.mapAll_eq_map _ _

/-! ## Nodes that may stand only once -/

section

variable {k : Kind} {f : Flaw} {ns : List Node}

theorem map_invalid_eq_self (h : ∀ n : Node, n ∈ ns → n.kind ≠ k) :
    (ns.map fun (n : Node) => if n.kind = k then .invalid f n.label.ownStart? else n) = ns := by
  conv => rhs; rw [← List.map_id ns]
  exact List.map_congr_left fun n hn => if_neg (h n hn)

/-- At most one node of a kind is left alone. -/
theorem onlyFirst_eq_self (h : (ns.filter fun (n : Node) => n.kind = k).length ≤ 1) :
    onlyFirst k f ns = ns := by
  induction ns with
  | nil => rfl
  | cons n ns ih =>
    simp only [onlyFirst]
    split
    · rename_i hk
      rw [List.filter_cons_of_pos (by simp [hk]), List.length_cons] at h
      have hnil : (ns.filter fun (n : Node) => n.kind = k) = [] :=
        List.length_eq_zero_iff.mp (by omega)
      rw [List.filter_eq_nil_iff] at hnil
      rw [map_invalid_eq_self fun m hm => by simpa using hnil m hm]
    · rename_i hk
      rw [List.filter_cons_of_neg (by simp [hk])] at h
      rw [ih h]

theorem Flawless.length_le_of_onlyFirst (h : Flawless (onlyFirst k f ns)) :
    (ns.filter fun (n : Node) => n.kind = k).length ≤ 1 := by
  induction ns with
  | nil => simp
  | cons n ns ih =>
    obtain ⟨l, ts⟩ := n
    simp only [onlyFirst] at h
    split at h
    · rename_i hk
      have hrest := (cons_iff.mp h).2.2
      have hother : ∀ m ∈ ns, ¬ Node.kind m = k := by
        intro m hm hmk
        have hinv : (.invalid f m.label.ownStart? : Node) ∈
            ns.map fun (m : Node) => if m.kind = k then .invalid f m.label.ownStart? else m :=
          List.mem_map.mpr ⟨m, hm, by simp [hmk]⟩
        obtain ⟨as, bs, hsplit⟩ := List.append_of_mem hinv
        rw [hsplit] at hrest
        exact not_invalid _ _ (append_iff.mp hrest).2
      have hfilter : (ns.filter fun (m : Node) => m.kind = k) = [] := by
        rw [List.filter_eq_nil_iff]
        intro m hm
        simp [hother m hm]
      rw [List.filter_cons_of_pos (by simp [hk]), hfilter]
      exact Nat.le_refl 1
    · rename_i hk
      rw [List.filter_cons_of_neg (by simp [hk])]
      exact ih (cons_iff.mp h).2.2

/-- Where further nodes of a kind are flaws, there is at most one. -/
theorem flawless_onlyFirst_iff : Flawless (onlyFirst k f ns) ↔
    Flawless ns ∧ (ns.filter fun (n : Node) => n.kind = k).length ≤ 1 := by
  constructor
  · intro h
    have hlen := h.length_le_of_onlyFirst
    exact ⟨onlyFirst_eq_self hlen ▸ h, hlen⟩
  · rintro ⟨h, hlen⟩
    rwa [onlyFirst_eq_self hlen]

end
end BlockMarkup
