import BlockMarkup.Forest.Edit
import Mathlib.Data.List.Nodup

/-!
# BlockMarkup.Proofs.Forest.Children

What a change does to the list of children. `Edit.replaced` are the children whose place is given
to an added node. Nothing is in the new list that was not in the old one or added
(`Edit.mem_of_children`), and where the added nodes differ from each other and from the children that
stay, no node is in it twice (`Edit.nodup_children`).
-/

namespace BlockMarkup

/-- No element stands at two places. -/
theorem nodup_iff_getElem? {α : Type} {xs : List α} :
    xs.Nodup ↔ ∀ (i j : Nat) (a : α), xs[i]? = some a → xs[j]? = some a → i = j := by
  constructor
  · intro h i j a hi hj
    exact (List.getElem?_inj (List.getElem?_eq_some_iff.mp hi).1 h).mp (hi.trans hj.symm)
  · intro h
    rw [List.nodup_iff_getElem?_ne_getElem?]
    intro i j hij hj heq
    have hsome := List.getElem?_eq_getElem hj
    exact absurd (h i j _ (heq.trans hsome) hsome) (Nat.ne_of_lt hij)

namespace Slice

variable {α : Type} {n : Nat} {step : Int} {s : Slice}

/-- The elements that are selected; no selection has steps of zero. -/
def selected (s : Slice) (xs : List α) : List α :=
  if s.step.getD 1 = 0 then [] else (s.places xs.length (s.step.getD 1)).filterMap fun p : Nat => xs[p]?

/-- What stands at a place after a replacement: a new element, or the old one where the place is not
given away. -/
theorem getElem?_putAll {xs ys : List α} {ps : List Nat} {i : Nat} {a : α}
    (hlength : ps.length = ys.length) (h : (putAll xs ps ys)[i]? = some a) :
    (∃ k : Nat, ps[k]? = some i ∧ ys[k]? = some a) ∨ (i ∉ ps ∧ xs[i]? = some a) := by
  induction ps generalizing xs ys with
  | nil => exact .inr ⟨List.not_mem_nil, by rwa [putAll.eq_2 _ _ _ nofun] at h⟩
  | cons p ps ih =>
    cases ys with
    | nil => cases hlength
    | cons y ys =>
      rcases ih (Nat.succ.inj hlength) h with ⟨k, hk, ha⟩ | ⟨hi, ha⟩
      · exact .inl ⟨k + 1, hk, ha⟩
      · by_cases hp : p = i
        · subst hp
          obtain ⟨hlt, rfl⟩ := List.getElem?_eq_some_iff.mp ha
          exact .inl ⟨0, rfl, by simp⟩
        · rw [List.getElem?_set_ne hp] at ha
          exact .inr ⟨fun hmem => (List.mem_cons.mp hmem).elim (fun he => hp he.symm) hi, ha⟩

theorem mem_of_mem_putAll {xs ys : List α} {ps : List Nat} {a : α} (hlength : ps.length = ys.length)
    (h : a ∈ putAll xs ps ys) : a ∈ xs ∨ a ∈ ys := by
  obtain ⟨i, hi⟩ := List.mem_iff_getElem?.mp h
  rcases getElem?_putAll hlength hi with ⟨k, -, ha⟩ | ⟨-, ha⟩
  · exact .inr (List.mem_of_getElem? ha)
  · exact .inl (List.mem_of_getElem? ha)

/-- Where new elements are old ones only at places that are given away, all stay different. -/
theorem nodup_putAll {xs ys : List α} {ps : List Nat} (hlength : ps.length = ys.length)
    (hxs : xs.Nodup) (hys : ys.Nodup) (hold : ∀ y ∈ ys, ∀ i, xs[i]? = some y → i ∈ ps) :
    (putAll xs ps ys).Nodup := by
  rw [nodup_iff_getElem?] at hxs hys ⊢
  intro i j a hi hj
  rcases getElem?_putAll hlength hi with ⟨k, hk, ha⟩ | ⟨hk, ha⟩ <;>
    rcases getElem?_putAll hlength hj with ⟨l, hl, hb⟩ | ⟨hl, hb⟩
  · obtain rfl := hys k l a ha hb
    exact Option.some.inj (hk.symm.trans hl)
  · exact absurd (hold a (List.mem_of_getElem? ha) j hb) hl
  · exact absurd (hold a (List.mem_of_getElem? hb) i ha) hk
  · exact hxs i j a ha hb

theorem bound_nonneg {n : Nat} {absent : Int} (h : 0 ≤ absent) (i : Option Int) :
    0 ≤ bound n 0 n absent i := by
  cases i with
  | none => exact h
  | some i =>
    unfold bound
    split <;> omega

/-- The places of a slice with steps of one are a stretch of the list. -/
theorem mem_places_one {s : Slice} {n p : Nat} (hp : p ∈ s.places n 1) :
    (bound n 0 n 0 s.start).toNat ≤ p ∧ p < (bound n 0 n n s.stop).toNat := by
  obtain ⟨k, hk, rfl⟩ := List.mem_map.mp hp
  have hk := List.mem_range.mp hk
  have hfirst := bound_nonneg (n := n) (Int.le_refl 0) s.start
  simp only [Int.reduceLT, if_false, Int.ediv_one, Int.one_mul] at hk ⊢
  split at hk <;> omega

theorem mem_places_of_selected {s : Slice} {xs : List α} {i : Nat} {a : α} (hxs : xs.Nodup)
    (ha : a ∈ s.selected xs) (hi : xs[i]? = some a) : i ∈ s.places xs.length (s.step.getD 1) := by
  unfold selected at ha
  split at ha
  · cases ha
  · obtain ⟨p, hp, hsome⟩ := List.mem_filterMap.mp ha
    obtain rfl := nodup_iff_getElem?.mp hxs p i a hsome hi
    exact hp

/-- A stretch can be given to new elements. -/
theorem nodup_stretch {xs new : List α} {first last : Nat} (hle : first ≤ last) (hxs : xs.Nodup)
    (hnew : new.Nodup) (hold : ∀ a ∈ new, ∀ i : Nat, xs[i]? = some a → first ≤ i ∧ i < last) :
    (xs.take first ++ new ++ xs.drop last).Nodup := by
  have hfront : ∀ a ∈ xs.take first, ∃ i < first, xs[i]? = some a := by
    intro a ha
    obtain ⟨i, hi⟩ := List.mem_iff_getElem?.mp ha
    rw [List.getElem?_take] at hi
    split at hi
    · exact ⟨i, ‹_›, hi⟩
    · cases hi
  have hback : ∀ a ∈ xs.drop last, ∃ i, last ≤ i ∧ xs[i]? = some a := by
    intro a ha
    obtain ⟨i, hi⟩ := List.mem_iff_getElem?.mp ha
    rw [List.getElem?_drop] at hi
    exact ⟨last + i, Nat.le_add_right _ _, hi⟩
  refine List.nodup_append.mpr ⟨List.nodup_append.mpr
    ⟨hxs.sublist (List.take_sublist _ _), hnew, fun a ha b hb heq => ?_⟩,
    hxs.sublist (List.drop_sublist _ _), fun a ha b hb heq => ?_⟩
  · obtain ⟨i, hi, hsome⟩ := hfront a ha
    have := hold b hb i (heq ▸ hsome)
    omega
  · obtain ⟨j, hj, hsome⟩ := hback b hb
    rcases List.mem_append.mp ha with ha | ha
    · obtain ⟨i, hi, hsome'⟩ := hfront a ha
      have := nodup_iff_getElem?.mp hxs i j b (heq ▸ hsome') hsome
      omega
    · have := hold a ha j (heq ▸ hsome)
      omega

theorem mem_of_replace? {s : Slice} {new xs zs : List α} {a : α} (h : s.replace? new xs = some zs)
    (ha : a ∈ zs) : a ∈ xs ∨ a ∈ new := by
  simp only [replace?] at h
  split at h
  · cases h
    rcases List.mem_append.mp ha with ha | ha
    · rcases List.mem_append.mp ha with ha | ha
      · exact .inl (List.mem_of_mem_take ha)
      · exact .inr ha
    · exact .inl (List.mem_of_mem_drop ha)
  · split at h
    · cases h
    · split at h
      · rename_i hlength
        cases h
        exact mem_of_mem_putAll hlength ha
      · cases h

/-- Where new elements are old ones only if they are replaced, all stay different. -/
theorem nodup_replace? {s : Slice} {new xs zs : List α} (h : s.replace? new xs = some zs)
    (hxs : xs.Nodup) (hnew : new.Nodup) (hold : ∀ a ∈ new, a ∈ xs → a ∈ s.selected xs) :
    zs.Nodup := by
  have hplaces : ∀ a ∈ new, ∀ i : Nat, xs[i]? = some a →
      i ∈ s.places xs.length (s.step.getD 1) := fun a ha i hi =>
    mem_places_of_selected hxs (hold a ha (List.mem_of_getElem? hi)) hi
  simp only [replace?] at h
  split at h
  · rename_i hone
    cases h
    rw [hone] at hplaces
    refine nodup_stretch (Nat.le_max_left _ _) hxs hnew fun a ha i hi => ?_
    obtain ⟨hfirst, hlast⟩ := mem_places_one (hplaces a ha i hi)
    exact ⟨hfirst, Nat.lt_of_lt_of_le hlast (Nat.le_max_right _ _)⟩
  · split at h
    · cases h
    · split at h
      · rename_i hlength
        cases h
        exact nodup_putAll hlength hxs hnew hplaces
      · cases h

end Slice

namespace Edit

variable {cs cs' : List NodeId} {e : Edit}

/-- The children whose places an assignment gives to the nodes that it adds. -/
def replaced (cs : List NodeId) : Edit → List NodeId
  | .set i _ =>
    match place? cs.length i with
    | some p => cs[p]?.toList
    | none => []
  | .setSlice s _ => s.selected cs
  | _ => []

theorem perm_insert (cs : List NodeId) (i : Int) (n : NodeId) :
    (cs.insertIdx (gap cs.length i) n).Perm (n :: cs) :=
  List.perm_insertIdx n cs (Nat.min_le_right _ _)

/-- A change makes no children but those there were and those that it adds. -/
theorem mem_of_children (h : e.children cs = .ok cs') {c : NodeId} (hc : c ∈ cs') :
    c ∈ cs ∨ c ∈ e.added := by
  cases e with
  | append n =>
    cases h
    exact List.mem_append.mp hc
  | extend ns =>
    cases h
    exact List.mem_append.mp hc
  | insert i n =>
    cases h
    exact ((perm_insert cs i n).mem_iff.trans List.mem_cons).mp hc |>.symm.imp_right
      List.mem_singleton.mpr
  | set i n =>
    simp only [children] at h
    split at h
    · cases h
      exact (List.mem_or_eq_of_mem_set hc).imp_right List.mem_singleton.mpr
    · cases h
  | setSlice s ns =>
    simp only [children] at h
    split at h
    · rename_i hreplace
      cases h
      exact Slice.mem_of_replace? hreplace hc
    · cases h
  | delete i =>
    simp only [children] at h
    split at h
    · cases h
      exact .inl (List.mem_of_mem_eraseIdx hc)
    · cases h
  | remove n =>
    simp only [children] at h
    split at h
    · cases h
      exact .inl (List.mem_of_mem_erase hc)
    · cases h
  | reverse =>
    cases h
    exact .inl (List.mem_reverse.mp hc)
  | clear =>
    cases h
    cases hc

/-- Where the added nodes are different, and are children only if they are replaced, no node is a
child twice. -/
theorem nodup_children (h : e.children cs = .ok cs') (hcs : cs.Nodup) (hadded : e.added.Nodup)
    (hold : ∀ n ∈ e.added, n ∈ cs → n ∈ e.replaced cs) : cs'.Nodup := by
  cases e with
  | append n =>
    cases h
    exact List.nodup_append.mpr ⟨hcs, hadded, fun a ha b hb heq => by
      subst heq
      exact List.not_mem_nil (hold a hb ha)⟩
  | extend ns =>
    cases h
    exact List.nodup_append.mpr ⟨hcs, hadded, fun a ha b hb heq => by
      subst heq
      exact List.not_mem_nil (hold a hb ha)⟩
  | insert i n =>
    cases h
    exact (perm_insert cs i n).nodup_iff.mpr (List.nodup_cons.mpr
      ⟨fun hn => List.not_mem_nil (hold n List.mem_cons_self hn), hcs⟩)
  | set i n =>
    simp only [children] at h
    split at h
    · rename_i p hp
      cases h
      show (Slice.putAll cs [p] [n]).Nodup
      refine Slice.nodup_putAll rfl hcs hadded fun a ha j hj => ?_
      have hmem := hold a ha (List.mem_of_getElem? hj)
      simp only [replaced, hp, Option.mem_toList] at hmem
      exact List.mem_singleton.mpr (nodup_iff_getElem?.mp hcs j p a hj hmem)
    · cases h
  | setSlice s ns =>
    simp only [children] at h
    split at h
    · rename_i hreplace
      cases h
      exact Slice.nodup_replace? hreplace hcs hadded hold
    · cases h
  | delete i =>
    simp only [children] at h
    split at h
    · cases h
      exact hcs.sublist (List.eraseIdx_sublist _ _)
    · cases h
  | remove n =>
    simp only [children] at h
    split at h
    · cases h
      exact hcs.sublist List.erase_sublist
    · cases h
  | reverse =>
    cases h
    exact List.nodup_reverse.mpr hcs
  | clear =>
    cases h
    exact .nil

end Edit
end BlockMarkup
