import BlockMarkup.Failure

/-!
# BlockMarkup.Layout.Script

What a formatting run writes, as a value:

* `Script` is the list of texts that are written one after the other, and the failure that ends it,
  if any. Scripts are joined by `++`, with `empty` as its unit.
* `Sink` is where texts go, and `play` writes a script to a sink.
-/

namespace BlockMarkup

structure Script where
  chunks : List (List Char) := []
  failure : Option Failure := none

namespace Script

def empty : Script := {}

def write (text : List Char) : Script := { chunks := [text] }

def fail (f : Failure) : Script := { failure := some f }

def unsupported (u : Unsupported) : Script := fail (.unsupported u)

/-- One script after the other; a failure of the first is the end. -/
def append (a b : Script) : Script :=
  match a.failure with
  | some _ => a
  | none => ⟨a.chunks ++ b.chunks, b.failure⟩

instance : Append Script := ⟨append⟩

def concat : List Script → Script
  | [] => empty
  | s :: ss => s ++ concat ss

theorem empty_append (s : Script) : empty ++ s = s := rfl

theorem append_empty (s : Script) : s ++ empty = s := by
  show append s empty = s
  unfold append
  split
  · rfl
  · rename_i h
    cases s
    simp_all [empty]

theorem append_assoc (a b c : Script) : a ++ b ++ c = a ++ (b ++ c) := by
  show append (append a b) c = append a (append b c)
  obtain ⟨as, fa⟩ := a
  obtain ⟨bs, fb⟩ := b
  cases fa <;> cases fb <;> simp [append]

theorem concat_append (as bs : List Script) : concat (as ++ bs) = concat as ++ concat bs := by
  induction as with
  | nil => rfl
  | cons a as ih => rw [List.cons_append, concat, concat, ih, append_assoc]

/-- The whole text of a script that does not fail. -/
def result (s : Script) : Except Failure (List Char) :=
  match s.failure with
  | some f => .error f
  | none => .ok s.chunks.flatten

end Script

/-- Where texts are written to: the state after a text, and why the text was refused, if it was. -/
structure Sink (σ : Type) where
  write : σ → List Char → σ × Option SinkFault

namespace Sink

/-- Writes texts one after the other, up to the first that the sink refuses. -/
def writeAll {σ : Type} (sink : Sink σ) : σ → List (List Char) → σ × Option SinkFault
  | s, [] => (s, none)
  | s, c :: cs =>
    match sink.write s c with
    | (s', none) => sink.writeAll s' cs
    | (s', some f) => (s', some f)

/-- A sink that records texts, and refuses the one with number `failAt`. -/
def recorder (failAt : Option Nat) (fault : SinkFault) : Sink (List (List Char)) where
  write recorded text :=
    if failAt = some recorded.length then (recorded, some fault) else (recorded ++ [text], none)

end Sink

/-- Writes a script to a sink; a text that the sink refuses is the end of it. -/
def Script.play {σ : Type} (s : Script) (sink : Sink σ) (start : σ) : σ × Option Failure :=
  match sink.writeAll start s.chunks with
  | (stop, some f) => (stop, some (Failure.ofSink f))
  | (stop, none) => (stop, s.failure)

end BlockMarkup
