import BlockMarkup.Text.Blank
import BlockMarkup.Text.Word
import BlockMarkup.Token.Basic

/-!
# BlockMarkup.Token.Pattern

The shapes of text that lexer rules look for. `Pattern.length? p s` is the number of characters
that `p` takes at the front of `s`, and `none` where it does not match; a pattern that only looks
ahead takes none.
-/

namespace BlockMarkup

/-- The characters up to and including the first `c`. -/
def through (c : Char) : List Char → Option Nat
  | [] => none
  | d :: s => if d = c then some 1 else (through c s).map (· + 1)

/-- The characters up to and including the first `a` that is followed by `b`, and that `b`. -/
def throughPair (a b : Char) : List Char → Option Nat
  | [] => none
  | c :: s =>
    match s with
    | [] => none
    | d :: _ => if c = a ∧ d = b then some 2 else (throughPair a b s).map (· + 1)

/-- The rest of a string literal after its opening quote. A backslash takes the next character
with it, which cannot be a line feed. -/
def stringTail : List Char → Option Nat
  | [] => none
  | '"' :: _ => some 1
  | ['\\'] => none
  | '\\' :: c :: s => if c = '\n' then none else (stringTail s).map (· + 2)
  | _ :: s => (stringTail s).map (· + 1)

/-- Like `through`, but on one line. -/
def throughOnLine (c : Char) : List Char → Option Nat
  | [] => none
  | d :: s =>
    if d = c then some 1
    else if d = '\n' then none
    else (throughOnLine c s).map (· + 1)

/-- What follows the first character of a path: word characters, and `::` before a name. -/
def pathTail : List Char → Nat
  | [] => 0
  | ':' :: ':' :: c :: s => if Text.startsName c then pathTail s + 3 else 0
  | c :: s => if Text.isWord c then pathTail s + 1 else 0

inductive Pattern where
  | blanks
  | spaces
  | lineComment
  | blockComment
  | separator
  | decorator
  | string
  | opener
  | closer
  | decoratorEnd
  | tag
  | path
  | name
  | quotedName
  | dots
  | closerAhead
  | spreadEnd
  | lastString
  | hashString
  | rawString
  | quote
  | char
  | groupOpener
  | groupCloser
  | looseMark
  | run
deriving DecidableEq, Repr

namespace Pattern

/-- One character that satisfies `p`. -/
def one (p : Char → Bool) : List Char → Option Nat
  | [] => none
  | c :: _ => if p c then some 1 else none

/-- At least one character that satisfies `p`, and as many as there are. -/
def many (p : Char → Bool) (s : List Char) : Option Nat :=
  match (s.takeWhile p).length with
  | 0 => none
  | n + 1 => some (n + 1)

/-- Nothing, in front of a character that satisfies `p`. -/
def ahead (p : Char → Bool) : List Char → Option Nat
  | [] => none
  | c :: _ => if p c then some 0 else none

def stringLength? : List Char → Option Nat
  | '"' :: s => (stringTail s).map (· + 1)
  | _ => none

def nameLength? : List Char → Option Nat
  | [] => none
  | c :: s => if Text.startsName c then some ((s.takeWhile Text.isWord).length + 1) else none

def pathLength? : List Char → Option Nat
  | [] => none
  | c :: s => if Text.startsName c then some (pathTail s + 1) else none

def tagLength? : List Char → Option Nat
  | [] => none
  | c :: s => if Text.isLower c then some ((s.takeWhile Text.continuesTag).length + 1) else none

/-- The first `n` characters with the white space and the opening brace after them. -/
def withBrace (s : List Char) (n : Nat) : Option Nat :=
  let k := Text.leading (s.drop n)
  match s.drop (n + k) with
  | '\x7b' :: _ => some (n + k + 1)
  | _ => none

/-- The first `n` characters with the white space and the single colon after them. -/
def withColon (s : List Char) (n : Nat) : Option Nat :=
  let k := Text.leading (s.drop n)
  match s.drop (n + k) with
  | ':' :: ':' :: _ => none
  | ':' :: _ => some (n + k + 1)
  | _ => none

def isSpace (c : Char) : Bool := c = ' ' || c = '\t'

/-- The first `n` characters, if the line holds nothing more than a line comment and does end. -/
def atLineEnd (s : List Char) (n : Nat) : Option Nat :=
  match (s.drop n).dropWhile isSpace with
  | '\n' :: _ => some n
  | '/' :: '/' :: t => if t.contains '\n' then some n else none
  | _ => none

/-- A character that ends a run of other text in an expression. -/
def endsRun (c : Char) : Bool :=
  Text.isBlank c || ['(', ')', '[', ']', '\x7b', '\x7d', ',', '"', '\'', '/'].contains c

def charTail : List Char → Option Nat
  | '\\' :: s => (throughOnLine '\'' s).map (· + 1)
  | c :: '\'' :: _ => if c = '\'' ∨ c = '\n' then none else some 2
  | _ => none

def length? (p : Pattern) (s : List Char) : Option Nat :=
  match p with
  | .blanks => many Text.isBlank s
  | .spaces => many isSpace s
  | .lineComment =>
    match s with
    | '/' :: '/' :: t => some ((t.takeWhile (· ≠ '\n')).length + 2)
    | _ => none
  | .blockComment =>
    match s with
    | '/' :: '*' :: t => (throughPair '*' '/' t).map (· + 2)
    | _ => none
  | .separator => one (· = ',') s
  | .decorator =>
    match s with
    | '#' :: '[' :: _ => some 2
    | '#' :: '!' :: '[' :: _ => some 3
    | _ => none
  | .string => stringLength? s
  | .opener => one (· = '\x7b') s
  | .closer => one (· = '\x7d') s
  | .decoratorEnd => one (· = ']') s
  | .tag => (tagLength? s).bind (withBrace s)
  | .path => (pathLength? s).bind (withBrace s)
  | .name => (nameLength? s).bind (withColon s)
  | .quotedName => (stringLength? s).bind (withColon s)
  | .dots =>
    match s with
    | '.' :: '.' :: _ => some 2
    | _ => none
  | .closerAhead => ahead (· = '\x7d') s
  | .spreadEnd => ahead (fun c => c = ',' || c = '\x7d' || c = '\n') s
  | .lastString => (stringLength? s).bind (atLineEnd s)
  | .hashString =>
    match s with
    | 'r' :: '#' :: '"' :: t => (throughPair '"' '#' t).map (· + 3)
    | _ => none
  | .rawString =>
    match s with
    | 'r' :: '"' :: t => (through '"' t).map (· + 2)
    | _ => none
  | .quote => one (· = '"') s
  | .char =>
    match s with
    | '\'' :: t => (charTail t).map (· + 1)
    | _ => none
  | .groupOpener => one (fun c => c = '(' || c = '[' || c = '\x7b') s
  | .groupCloser => one (fun c => c = ')' || c = ']' || c = '\x7d') s
  | .looseMark => one (fun c => c = ')' || c = ']' || c = '\x7d' || c = ',') s
  | .run =>
    match many (fun c => !endsRun c) s with
    | some n => some n
    | none => one (fun c => c = '/' || c = '\'') s

end Pattern
end BlockMarkup
