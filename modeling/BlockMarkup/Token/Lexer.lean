import BlockMarkup.Token.Rule

/-!
# BlockMarkup.Token.Lexer

From text to nested tokens. `scan` reads one context, up to the match that leaves it or the end of
the text, and reads the contexts that are pushed on the way; `lex` reads a whole text with a mode
that is never left.
-/

namespace BlockMarkup

/-- A place in a text, and the text from there on. -/
structure Cursor where
  pos : Nat
  rest : List Char
deriving DecidableEq, Repr

namespace Cursor

def start (text : List Char) : Cursor := ⟨0, text⟩

def advance (c : Cursor) (n : Nat) : Cursor := ⟨c.pos + n, c.rest.drop n⟩

/-- The token of the next `n` characters; no characters make no token. -/
def take (c : Cursor) (n : Nat) (cls : TokenClass) : List Item :=
  match c.rest.take n with
  | [] => []
  | text => [.token ⟨c.pos, text, cls⟩]

/-- What a match of `n` characters leaves behind. -/
def emit (c : Cursor) (n : Nat) : Effect → List Item
  | .skip => []
  | .emit cls => c.take n cls

end Cursor

/-- A context that found nothing is not there. -/
def Item.nested (m : Mode) : List Item → List Item
  | [] => []
  | items => [.context m items]

namespace Lexer

/-- The items of one context from `c` on, and the place after it. Every step takes a character or
leaves the context, so fuel beyond the length of the text is enough. -/
def scan : Nat → Mode → Cursor → List Item × Cursor
  | 0, _, c => ([], c)
  | fuel + 1, m, c =>
    match m.search c.rest with
    | none => (c.take c.rest.length .stray, c.advance c.rest.length)
    | some h =>
      let found := c.advance h.skipped
      let own := c.take h.skipped .stray ++ found.emit h.length h.rule.effect
      let next := found.advance h.length
      match h.rule.move with
      | .stay =>
        let (items, stop) := scan fuel m next
        (own ++ items, stop)
      | .pop => (own, next)
      | .push inner =>
        let (sub, back) := scan fuel inner next
        let (items, stop) := scan fuel m back
        (own ++ Item.nested inner sub ++ items, stop)

/-- The items from `c` on when `m` is at the bottom: a match that would leave it starts anew. Where
that would not move on, one character is dropped. -/
def resume : Nat → Mode → Cursor → List Item
  | 0, _, _ => []
  | fuel + 1, m, c =>
    match c.rest with
    | [] => []
    | _ :: _ =>
      let (items, stop) := scan (c.rest.length + 1) m c
      if stop.rest.length < c.rest.length then items ++ resume fuel m stop
      else resume fuel m (c.advance 1)

end Lexer

/-- The items of a text that is read with the rules of `m` throughout. -/
def lex (m : Mode) (text : List Char) : List Item :=
  Lexer.resume (text.length + 1) m (Cursor.start text)

end BlockMarkup
