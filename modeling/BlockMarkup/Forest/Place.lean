/-!
# BlockMarkup.Forest.Place

Places in a list, counted from its end where they are negative: `place?` for a single element,
`gap` for an insertion, and `Slice.replace?` for a stretch or an evenly spaced selection.
-/

namespace BlockMarkup

/-- The place `i` of a list of length `n`, if it has one. -/
def place? (n : Nat) (i : Int) : Option Nat :=
  let j := if i < 0 then i + n else i
  if 0 ≤ j ∧ j < n then some j.toNat else none

/-- The place in front of which an insertion at `i` happens; places beyond the ends are moved to
them. -/
def gap (n : Nat) (i : Int) : Nat :=
  let j := if i < 0 then i + n else i
  min j.toNat n

/-- A selection of places: from `start` up to `stop`, which is left out, in steps. -/
structure Slice where
  start : Option Int := none
  stop : Option Int := none
  step : Option Int := none
deriving DecidableEq, Repr

namespace Slice

/-- A bound of a slice, moved between `low` and `high`. -/
def bound (n : Nat) (low high : Int) (absent : Int) : Option Int → Int
  | none => absent
  | some i => if i < 0 then max (i + n) low else min i high

/-- The places of a slice with the given step. -/
def places (n : Nat) (step : Int) (s : Slice) : List Nat :=
  let low : Int := if step < 0 then -1 else 0
  let high : Int := if step < 0 then n - 1 else n
  let first := bound n low high (if step < 0 then high else low) s.start
  let last := bound n low high (if step < 0 then low else high) s.stop
  let count : Int :=
    if step < 0 then (if last < first then (first - last - 1) / (-step) + 1 else 0)
    else (if first < last then (last - first - 1) / step + 1 else 0)
  (List.range count.toNat).map fun (k : Nat) => (first + step * k).toNat

/-- The list with each of the places given its new element. -/
def putAll {α : Type} (xs : List α) : List Nat → List α → List α
  | p :: ps, y :: ys => putAll (xs.set p y) ps ys
  | _, _ => xs

/-- The list with the selected elements replaced. With steps of one any number of elements takes
their place, else it has to be the same number. -/
def replace? {α : Type} (s : Slice) (new xs : List α) : Option (List α) :=
  let step := s.step.getD 1
  if step = 1 then
    let first := (bound xs.length 0 xs.length 0 s.start).toNat
    let last := max first (bound xs.length 0 xs.length xs.length s.stop).toNat
    some (xs.take first ++ new ++ xs.drop last)
  else if step = 0 then none
  else
    let ps := s.places xs.length step
    if ps.length = new.length then some (putAll xs ps new) else none

end Slice
end BlockMarkup
