import BlockMarkup.Forest.Walk
import Mathlib.Data.List.Nodup
import Mathlib.Data.List.Perm.Subperm
import Mathlib.Logic.Relation

/-!
# BlockMarkup.Proofs.Forest.Ascent

The way up from a node. `Rises i ps` says that the parents above `i` are `ps` and that there are no
more of them; `ancestors?` computes it (`ancestors?_eq_some_iff`), so its fuel is enough for every
walk that ends. No walk that ends meets a node twice (`Rises.not_return`).
-/

namespace BlockMarkup
namespace Forest

variable {f g : Forest} {i j p : NodeId} {ps qs : List NodeId}

/-- The parent of `i` is `p`. -/
def Up (f : Forest) (i p : NodeId) : Prop := f.parentOf i = some p

theorem lt_of_parentOf (h : f.parentOf i = some p) : i < f.cells.length := by
  by_contra hlt
  rw [parentOf, cell?, List.getElem?_eq_none (Nat.not_lt.mp hlt)] at h
  cases h

theorem lt_of_mem_childrenOf (h : j ∈ f.childrenOf i) : i < f.cells.length := by
  by_contra hlt
  rw [childrenOf, cell?, List.getElem?_eq_none (Nat.not_lt.mp hlt)] at h
  cases h

/-- The nodes above `i`, up to one that has no parent. -/
inductive Rises (f : Forest) : NodeId → List NodeId → Prop where
  | top {i : NodeId} : f.parentOf i = none → Rises f i []
  | step {i p : NodeId} {ps : List NodeId} : f.Up i p → Rises f p ps → Rises f i (p :: ps)

namespace Rises

theorem unique (h : f.Rises i ps) (h' : f.Rises i qs) : ps = qs := by
  induction h generalizing qs with
  | top hnone =>
    cases h' with
    | top _ => rfl
    | step hup _ =>
      rw [Up, hnone] at hup
      cases hup
  | step hup _ ih =>
    cases h' with
    | top hnone =>
      rw [Up, hnone] at hup
      cases hup
    | step hup' h' =>
      obtain rfl := Option.some.inj (hup.symm.trans hup')
      rw [ih h']

/-- Further up there is less to go. -/
theorem of_transGen (h : f.Rises i ps) (hup : Relation.TransGen f.Up i j) :
    ∃ qs, f.Rises j qs ∧ qs.length < ps.length := by
  have hstep : ∀ {i j : NodeId} {ps : List NodeId}, f.Rises i ps → f.Up i j →
      ∃ qs, f.Rises j qs ∧ qs.length < ps.length := by
    intro i j ps h hup
    cases h with
    | top hnone =>
      rw [Up, hnone] at hup
      cases hup
    | @step _ p ps hup' h =>
      obtain rfl := Option.some.inj (hup.symm.trans hup')
      exact ⟨ps, h, Nat.lt_succ_self _⟩
  induction hup with
  | single hup => exact hstep h hup
  | tail _ hup ih =>
    obtain ⟨qs, hqs, hlt⟩ := ih
    obtain ⟨rs, hrs, hlt'⟩ := hstep hqs hup
    exact ⟨rs, hrs, Nat.lt_trans hlt' hlt⟩

/-- A way up that ends does not come back. -/
theorem not_return (h : f.Rises i ps) : ¬ Relation.TransGen f.Up i i := by
  intro hup
  obtain ⟨qs, hqs, hlt⟩ := h.of_transGen hup
  rw [h.unique hqs] at hlt
  exact Nat.lt_irrefl _ hlt

/-- What stands on the way up is what is above. -/
theorem mem_iff (h : f.Rises i ps) : j ∈ ps ↔ Relation.TransGen f.Up i j := by
  induction h with
  | top hnone =>
    refine ⟨nofun, fun hup => ?_⟩
    obtain ⟨k, hk, -⟩ := Relation.TransGen.head'_iff.mp hup
    rw [Up, hnone] at hk
    cases hk
  | @step i p ps hup _ ih =>
    rw [List.mem_cons, ih, ← Relation.reflTransGen_iff_eq_or_transGen, Relation.TransGen.head'_iff]
    refine ⟨fun hj => ⟨p, hup, hj⟩, fun hj => ?_⟩
    obtain ⟨k, hk, hj⟩ := hj
    obtain rfl := Option.some.inj (hup.symm.trans hk)
    exact hj

/-- The nodes on a way up that ends are all different. -/
theorem nodup (h : f.Rises i ps) : (i :: ps).Nodup := by
  induction h with
  | top _ => exact List.nodup_singleton _
  | step hup h ih =>
    have hrises := Rises.step hup h
    exact List.nodup_cons.mpr ⟨fun hmem => hrises.not_return (hrises.mem_iff.mp hmem), ih⟩

theorem lt_of_mem_dropLast (h : f.Rises i ps) : ∀ j ∈ (i :: ps).dropLast, j < f.cells.length := by
  induction h with
  | top _ => exact nofun
  | step hup _ ih =>
    rw [List.dropLast_cons_cons]
    exact List.forall_mem_cons.mpr ⟨lt_of_parentOf hup, ih⟩

/-- So no way up that ends is longer than there are nodes. -/
theorem length_le (h : f.Rises i ps) : ps.length ≤ f.cells.length := by
  have hnodup := h.nodup.sublist (List.dropLast_sublist _)
  have hsubset : (i :: ps).dropLast ⊆ List.range f.cells.length := fun j hj =>
    List.mem_range.mpr (h.lt_of_mem_dropLast j hj)
  have hle := (hnodup.subperm hsubset).length_le
  rwa [List.length_dropLast, List.length_range] at hle

end Rises

/-! ## Climbing -/

theorem rises_of_climb {fuel : Nat} (h : f.climb fuel i = some ps) : f.Rises i ps := by
  induction fuel generalizing i ps with
  | zero =>
    rw [climb] at h
    split at h
    · rename_i hnone
      cases h
      exact .top hnone
    · cases h
  | succ fuel ih =>
    rw [climb] at h
    split at h
    · rename_i hnone
      cases h
      exact .top hnone
    · rename_i p hup
      obtain ⟨qs, hqs, rfl⟩ := Option.map_eq_some_iff.mp h
      exact .step hup (ih hqs)

theorem Rises.climb {fuel : Nat} (h : f.Rises i ps) (hfuel : ps.length ≤ fuel) :
    f.climb fuel i = some ps := by
  induction h generalizing fuel with
  | top hnone => cases fuel <;> rw [Forest.climb, hnone]
  | step hup _ ih =>
    cases fuel with
    | zero => exact absurd hfuel (Nat.not_succ_le_zero _)
    | succ fuel =>
      rw [Forest.climb, hup]
      show (f.climb fuel _).map _ = _
      rw [ih (Nat.le_of_succ_le_succ hfuel)]
      rfl

/-- The ancestors of a node are found exactly where the way up ends. -/
theorem ancestors?_eq_some_iff : f.ancestors? i = some ps ↔ f.Rises i ps :=
  ⟨rises_of_climb, fun h => h.climb h.length_le⟩

end Forest
end BlockMarkup
