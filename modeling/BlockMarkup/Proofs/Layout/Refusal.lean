import BlockMarkup.Proofs.Layout.Outcome

/-!
# BlockMarkup.Proofs.Layout.Refusal

Formatting runs on a sink that refuses a text. `Sink.logged` is a sink that also keeps all texts it is
asked to take. The run of a script is that of its parts in turn (`Script.play_append`), and a refusal
is the end of it: in front of the refused text nothing changes, and behind it the sink is not asked
again (`Script.trial_some`). Nodes with heads give scripts that only fail for want of a written form
(`Formatter.nodes_failsForForm`), so these two ends are all there are (`Formatter.trial_nodes`).
-/

namespace BlockMarkup

namespace Sink

variable {σ : Type}

/-- A sink that keeps a list of all texts it is asked to take, the refused ones included. -/
def logged (sink : Sink σ) : Sink (σ × List (List Char)) where
  write s text := (((sink.write s.1 text).1, s.2 ++ [text]), (sink.write s.1 text).2)

theorem writeAll_append (sink : Sink σ) (s : σ) (cs ds : List (List Char)) :
    sink.writeAll s (cs ++ ds) =
      match sink.writeAll s cs with
      | (t, none) => sink.writeAll t ds
      | (t, some f) => (t, some f) := by
  induction cs generalizing s with
  | nil => rfl
  | cons c cs ih =>
    rw [List.cons_append, writeAll, writeAll]
    cases h : sink.write s c with
    | mk t r =>
      cases r with
      | none => exact ih t
      | some f => rfl

/-- The list of texts changes nothing for the sink itself. -/
theorem writeAll_logged (sink : Sink σ) (s : σ) (log cs : List (List Char)) :
    ((sink.logged.writeAll (s, log) cs).1.1, (sink.logged.writeAll (s, log) cs).2) =
      sink.writeAll s cs := by
  induction cs generalizing s log with
  | nil => rfl
  | cons c cs ih =>
    cases h : sink.write s c with
    | mk t r =>
      have hstep : sink.logged.write (s, log) c = ((t, log ++ [c]), r) := by simp [logged, h]
      rw [writeAll, writeAll, hstep, h]
      cases r with
      | none => exact ih t (log ++ [c])
      | some f => rfl

end Sink

namespace Script

variable {a b s : Script}

/-- One script after the other is written so: the second starts where the first has left the sink, and
not at all after a failure or a refusal. -/
theorem play_append {σ : Type} (sink : Sink σ) (start : σ) :
    (a ++ b).play sink start =
      match a.play sink start with
      | (stop, none) => b.play sink stop
      | (stop, some f) => (stop, some f) := by
  have happ : a ++ b = Script.append a b := rfl
  rw [happ]
  cases ha : a.failure with
  | none =>
    have hjoined : Script.append a b = ⟨a.chunks ++ b.chunks, b.failure⟩ := by
      rw [Script.append, ha]
    rw [hjoined, play, play, Sink.writeAll_append, ha]
    cases hw : sink.writeAll start a.chunks with
    | mk stop r =>
      cases r with
      | none => rfl
      | some f => rfl
  | some f =>
    have hleft : Script.append a b = a := by rw [Script.append, ha]
    rw [hleft, play, ha]
    cases hw : sink.writeAll start a.chunks with
    | mk stop r =>
      cases r with
      | none => rfl
      | some f => rfl

/-- The run of a script on a recorder that refuses the text with number `failAt`: the texts that are
recorded, all texts that the recorder is asked to take, and the failure at the end, if any. -/
def trial (s : Script) (failAt : Option Nat) (fault : SinkFault) :
    (List (List Char) × List (List Char)) × Option Failure :=
  s.play (Sink.recorder failAt fault).logged ([], [])

theorem play_recorder (s : Script) (failAt : Option Nat) (fault : SinkFault) :
    s.play (Sink.recorder failAt fault) [] =
      ((s.trial failAt fault).1.1, (s.trial failAt fault).2) := by
  rw [trial, play, play, ← Sink.writeAll_logged _ [] [] s.chunks]
  cases hw : (Sink.recorder failAt fault).logged.writeAll ([], []) s.chunks with
  | mk stop r =>
    cases r with
    | none => rfl
    | some f => rfl

/-- The script fails, if it does, for want of a written form. -/
def FailsForForm (s : Script) : Prop := ∀ f, s.failure = some f → ∃ u, f = .unsupported u

namespace FailsForForm

theorem empty : Script.empty.FailsForForm := nofun

theorem write (text : List Char) : (Script.write text).FailsForForm := nofun

theorem unsupported (u : Unsupported) : (Script.unsupported u).FailsForForm := by
  rintro f ⟨⟩
  exact ⟨u, rfl⟩

theorem append (ha : a.FailsForForm) (hb : b.FailsForForm) : (a ++ b).FailsForForm := by
  intro f hf
  have happ : a ++ b = Script.append a b := rfl
  rw [happ, Script.append] at hf
  split at hf
  · exact ha f hf
  · exact hb f hf

theorem concat_map {α : Type} {g : α → Script} {xs : List α} (h : ∀ x ∈ xs, (g x).FailsForForm) :
    (concat (xs.map g)).FailsForForm := of_concat_map empty append h

end FailsForForm
end Script

/-! ## Nodes with heads -/

namespace Node

/-- Every textual node of the tree has its head. -/
def HasHeads (n : Node) : Prop := ∀ l ∈ n.preorder, l.isA .textual = true → l.head.isSome = true

theorem hasHeads_mk_iff {l : Label} {cs : List Node} : HasHeads (.mk l cs) ↔
    (l.isA .textual = true → l.head.isSome = true) ∧ ∀ c : Node, c ∈ cs → c.HasHeads := by
  simp only [HasHeads, Tree.preorder, List.mem_cons, Tree.mem_preorderAll]
  constructor
  · intro h
    exact ⟨h l (.inl rfl), fun c hc k hk => h k (.inr ⟨c, hc, hk⟩)⟩
  · rintro ⟨hl, hcs⟩ k (rfl | ⟨c, hc, hk⟩)
    · exact hl
    · exact hcs c hc k hk

/-- A node that was made by hand has its head, if its children have theirs. -/
theorem hasHeads_of_make {s : NodeSpec} {cs : List Node} {n : Node}
    (hcs : ∀ c : Node, c ∈ cs → c.HasHeads) (h : make s cs = .ok n) : n.HasHeads := by
  unfold make at h
  split at h
  · split at h
    · cases h
      exact hasHeads_mk_iff.mpr ⟨fun _ => rfl, hcs⟩
    · cases h
    · cases h
    · cases h
  · rename_i hs
    split at h
    · cases h
      exact hasHeads_mk_iff.mpr ⟨fun hl => absurd hl hs, hcs⟩
    · cases h

mutual

/-- Nodes that were made by hand have their heads. -/
theorem hasHeads_of_build : (t : Tree NodeSpec) → (n : Node) → build t = .ok n → n.HasHeads
  | .mk s ts, n, h => by
    rw [build] at h
    cases hts : buildAll ts with
    | error e => rw [hts] at h; cases h
    | ok cs =>
      rw [hts] at h
      exact hasHeads_of_make (hasHeads_of_buildAll ts cs hts) h

theorem hasHeads_of_buildAll : (ts : List (Tree NodeSpec)) → (ns : List Node) →
    buildAll ts = .ok ns → ∀ n : Node, n ∈ ns → n.HasHeads
  | [], ns, h => by
    cases h
    exact nofun
  | t :: ts, ns, h => by
    rw [buildAll] at h
    cases ht : build t with
    | error e => rw [ht] at h; cases h
    | ok m =>
      cases hts : buildAll ts with
      | error e => rw [ht, hts] at h; cases h
      | ok ms =>
        rw [ht, hts] at h
        cases h
        exact List.forall_mem_cons.mpr
          ⟨hasHeads_of_build t m ht, hasHeads_of_buildAll ts ms hts⟩

end

theorem HasHeads.head {n : Node} (h : n.HasHeads) (hn : n.isA .textual = true) :
    ∃ s, n.head = some s := by
  obtain ⟨l, cs⟩ := n
  exact Option.isSome_iff_exists.mp ((hasHeads_mk_iff.mp h).1 hn)

theorem HasHeads.head_of_cls {n : Node} (h : n.HasHeads) {k : Kind} (hc : n.cls = .of k)
    (hk : k.isA .textual = true) : ∃ s, n.head = some s := h.head (by rw [isA_of_cls hc, hk])

theorem HasHeads.child {n c : Node} (h : n.HasHeads) (hc : c ∈ n.children) : c.HasHeads := by
  obtain ⟨l, cs⟩ := n
  exact (hasHeads_mk_iff.mp h).2 c hc

end Node

namespace Formatter

open Script

variable (f : Formatter) (depth : Int)

theorem tabs_failsForForm : (f.tabs depth).FailsForForm := .write _

theorem line_failsForForm (text : List Char) : (f.line depth text).FailsForForm :=
  (f.tabs_failsForForm depth).append (.write _)

theorem furtherLines_failsForForm (literal : List Nat) (ls : List (List Char)) :
    ∀ i, (f.furtherLines depth literal i ls).FailsForForm := by
  induction ls with
  | nil => exact fun _ => .empty
  | cons l ls ih =>
    intro i
    have hmargin : (if literal.contains i then Script.empty else f.tabs depth).FailsForForm := by
      split
      · exact .empty
      · exact f.tabs_failsForForm depth
    exact (((FailsForForm.write _).append hmargin).append (.write l)).append (ih (i + 1))

theorem valueLines_failsForForm (lead tail : List Char) (ls : List (List Char)) :
    (f.valueLines depth lead tail ls).FailsForForm := by
  cases ls with
  | nil => exact .empty
  | cons first rest =>
    exact (((f.tabs_failsForForm depth).append (.write _)).append
      (f.furtherLines_failsForForm depth _ _ _)).append (.write _)

/-- A value with its head can be written, and a value that is not there has no written form. -/
theorem value_failsForForm (hr : f.renderer = .tidy) (lead tail : List Char) {v : Option Node}
    (hv : ∀ n : Node, v = some n → ∃ s, n.head = some s) :
    (f.value depth lead tail v).FailsForForm := by
  cases v with
  | none => exact .unsupported _
  | some n =>
    obtain ⟨s, hs⟩ := hv n rfl
    have hlines : f.renderer.lines n = .ok (Text.lines (tidy s)) := by
      simp [hr, Renderer.lines, Renderer.tidy, Renderer.ofHead, hs]
    unfold value
    simp only [hlines]
    split
    · exact f.valueLines_failsForForm depth _ _ _
    · exact f.valueLines_failsForForm depth _ _ _

/-- Values have their heads. -/
theorem head_of_child? {n v : Node} {ks : List Kind} (hn : n.HasHeads)
    (hks : ∀ k ∈ ks, k = .string ∨ k = .expression) (h : n.child? ks = some v) :
    ∃ s, v.head = some s :=
  (hn.child (List.mem_of_find?_eq_some h)).head (isA_textual_of_child? hks h)

theorem nameValue_failsForForm (hr : f.renderer = .tidy) {n : Node} (hn : n.HasHeads)
    (hname : ∃ s, n.head = some s) : (f.nameValue depth n).FailsForForm := by
  obtain ⟨name, hname⟩ := hname
  rw [nameValue, hname]
  exact f.value_failsForForm depth hr _ _ fun v hv => head_of_child? hn (by simp) hv

theorem keyLine_failsForForm (hasAttributes : Bool) (n : Node) :
    (f.keyLine depth hasAttributes n).FailsForForm :=
  ((f.tabs_failsForForm depth).append (.write _)).append (.write _)

theorem attributeLines_failsForForm (hr : f.renderer = .tidy) {n : Node} (hn : n.HasHeads) :
    (f.attributeLines depth n).FailsForForm := by
  unfold attributeLines
  split
  · rename_i hc
    exact f.nameValue_failsForForm depth hr hn (hn.head_of_cls hc rfl)
  · rename_i hc
    exact f.nameValue_failsForForm depth hr hn (hn.head_of_cls hc rfl)
  · rename_i hc
    exact f.nameValue_failsForForm depth hr hn (hn.head_of_cls hc rfl)
  · exact .unsupported _
  · exact .unsupported _
  · exact .empty
  · exact .unsupported _

theorem fieldLines_failsForForm (hr : f.renderer = .tidy) {n : Node} (hn : n.HasHeads) :
    (f.fieldLines depth n).FailsForForm := by
  unfold fieldLines
  split
  · rename_i hc
    exact f.nameValue_failsForForm depth hr hn (hn.head_of_cls hc rfl)
  · rename_i hc
    exact f.nameValue_failsForForm depth hr hn (hn.head_of_cls hc rfl)
  · rename_i hc
    exact f.nameValue_failsForForm depth hr hn (hn.head_of_cls hc rfl)
  · exact .unsupported _

theorem spreadLines_failsForForm (hr : f.renderer = .tidy) {n : Node} (hn : n.HasHeads) :
    (f.spreadLines depth n).FailsForForm :=
  f.value_failsForForm depth hr _ _ fun _ hv => head_of_child? hn (by simp) hv

theorem checkChildren_failsForForm (n : Node) (kinds : List Kind) :
    (checkChildren n kinds).FailsForForm := by
  unfold checkChildren
  split
  · exact .unsupported _
  · exact .empty

theorem checkKeys_failsForForm (n : Node) : (checkKeys n).FailsForForm := by
  unfold checkKeys
  split
  · exact .unsupported _
  · exact .empty

theorem childrenOf_failsForForm {n : Node} {k : Kind} {g : Node → Script} (hn : n.HasHeads)
    (h : ∀ c : Node, c.HasHeads → (g c).FailsForForm) :
    (Script.concat ((n.childrenOf k).map g)).FailsForForm :=
  .concat_map fun c hc => h c (hn.child (Node.mem_childrenOf.mp hc).1)

theorem headLine_failsForForm {n : Node} (hname : ∃ s, n.head = some s) (tail : List Char) :
    (f.headLine depth n.head tail).FailsForForm := by
  obtain ⟨s, hs⟩ := hname
  rw [hs]
  exact f.line_failsForForm depth _

mutual

/-- A node with its heads only fails for want of a written form. -/
theorem node_failsForForm (hr : f.renderer = .tidy) (depth : Int) :
    (n : Node) → n.HasHeads → (f.node depth n).FailsForForm
  | .mk l cs, hn => by
    have hbody := body_failsForForm hr (depth + 1) cs (Node.hasHeads_mk_iff.mp hn).2
    unfold node
    simp only
    split
    · rename_i hc
      have hhead : (f.elementHead depth (.mk l cs)).FailsForForm :=
        ((f.headLine_failsForForm depth (hn.head_of_cls hc rfl) _).append
          (childrenOf_failsForForm hn fun c _ => f.keyLine_failsForForm _ _ c)).append
          (childrenOf_failsForForm hn fun c h => f.attributeLines_failsForForm _ hr h)
      exact ((((checkChildren_failsForForm _ _).append (checkKeys_failsForForm _)).append
        hhead).append hbody).append (f.line_failsForForm depth _)
    · rename_i hc
      have hhead : (f.componentHead depth (.mk l cs)).FailsForForm :=
        ((f.headLine_failsForForm depth (hn.head_of_cls hc rfl) _).append
          (childrenOf_failsForForm hn fun c h => f.fieldLines_failsForForm _ hr h)).append
          (childrenOf_failsForForm hn fun c h => f.spreadLines_failsForForm _ hr h)
      exact (((checkChildren_failsForForm _ _).append hhead).append hbody).append
        (f.line_failsForForm depth _)
    · exact f.line_failsForForm depth _
    · exact .empty
    · rename_i hc
      exact f.headLine_failsForForm depth (hn.head_of_cls hc rfl) _
    · exact .unsupported _

theorem body_failsForForm (hr : f.renderer = .tidy) (depth : Int) :
    (ns : List Node) → (∀ n : Node, n ∈ ns → n.HasHeads) → (f.body depth ns).FailsForForm
  | [], _ => .empty
  | .mk l cs :: ns, hns => by
    obtain ⟨hn, hns⟩ := List.forall_mem_cons.mp hns
    rw [body]
    split
    · exact (node_failsForForm hr depth (.mk l cs) hn).append (body_failsForForm hr depth ns hns)
    · exact body_failsForForm hr depth ns hns

end

end Formatter

end BlockMarkup
