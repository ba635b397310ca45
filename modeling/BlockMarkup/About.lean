/-!
# BlockMarkup.About

What the library says about itself.
-/

namespace BlockMarkup

structure About where
  name : String
  version : Nat × Nat × Nat
  description : String
  longDescription : String
  maintainer : String
  license : String
  /-- The names that are exported. -/
  exports : List String

namespace About

def versionText (a : About) : String :=
  toString a.version.1 ++ "." ++ toString a.version.2.1 ++ "." ++ toString a.version.2.2

end About

def about : About where
  name := "rsxfmt"
  version := (0, 1, 0)
  description := "Read and pretty-print rsx markup blocks"
  longDescription :=
    "The rsxfmt package reads rsx markup blocks (elements, components, attributes, text and " ++
    "embedded expressions) and writes them in a canonical, stably indented form."
  maintainer := "The rsxfmt authors"
  license := "GPL v3"
  exports := ["format_block", "fmt_block", "version", "version_string"]

end BlockMarkup
