import BlockMarkup.Expression.Tidy
import BlockMarkup.Failure

/-!
# BlockMarkup.Expression.Renderer

Renderers give an expression its text; the formatter only decides where the lines of it start.
-/

namespace BlockMarkup

structure Renderer where
  render : Node → Except RenderFault (List Char)

namespace Renderer

/-- The renderer that gives each head its text by `f`. -/
def ofHead (f : List Char → List Char) : Renderer where
  render n :=
    match n.head with
    | some s => .ok (f s)
    | none => .error .noHead

/-- The default renderer. -/
def tidy : Renderer := ofHead BlockMarkup.tidy

/-- Every expression as it stands. -/
def verbatim : Renderer := ofHead id

/-- The same text for every expression. -/
def fixed (text : List Char) : Renderer := ⟨fun _ => .ok text⟩

/-- A renderer that renders nothing. -/
def unimplemented : Renderer := ⟨fun _ => .error .notImplemented⟩

/-- Stands where there is no renderer. -/
def absent : Renderer := ⟨fun _ => .error .noRenderer⟩

def lines (r : Renderer) (n : Node) : Except RenderFault (List (List Char)) :=
  match r.render n with
  | .error e => .error e
  | .ok s => .ok (Text.lines s)

end Renderer
end BlockMarkup
