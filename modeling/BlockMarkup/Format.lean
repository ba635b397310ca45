import BlockMarkup.Document.Read
import BlockMarkup.Layout.Formatter

/-!
# BlockMarkup.Format

Formatting a text: `format` reads it and writes it back in its canonical layout, and `tryFormat`
gives nothing, but log entries, where that fails.
-/

namespace BlockMarkup

/-- The canonical form of a text. -/
def format (text : List Char) (indentWidth : Int := 4) (renderer : Renderer := .tidy) :
    Except Failure (List Char) :=
  match read false text with
  | .error e => .error (.parse e)
  | .ok d => d.write ⟨indentWidth, 0, renderer⟩

/-- The part of the library that a log entry comes from. -/
inductive Channel where
  | reading
  | formatting
deriving DecidableEq, Repr

structure LogEntry where
  channel : Channel
  words : List Char
deriving DecidableEq, Repr

namespace LogEntry

/-- A text could not be read. -/
def parse (e : ParseFailure) : LogEntry where
  channel := .reading
  words :=
    "parse failure at ".toList ++ shownHead (e.pos.map Text.decimal) ++ [':', ' '] ++
      shownHead e.head

/-- A text could not be formatted. -/
def format (message : List Char) : LogEntry where
  channel := .formatting
  words := "can't format block: ".toList ++ message

end LogEntry

/-- The canonical form of a text, or log entries that say why there is none. Failures that are not
about formatting stay failures. -/
def tryFormat (text : List Char) (indentWidth : Int := 4) (renderer : Renderer := .tidy) :
    Except Failure (Option (List Char) × List LogEntry) :=
  match format text indentWidth renderer with
  | .ok s => .ok (some s, [])
  | .error e =>
    match e, e.message? with
    | .parse p, _ => .ok (none, [.parse p, .format p.message])
    | _, some m => .ok (none, [.format m])
    | _, none => .error e

end BlockMarkup
