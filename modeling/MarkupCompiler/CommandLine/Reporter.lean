import MarkupCompiler.Diagnostic
import MarkupCompiler.Tree.Basic

/-!
Reports of diagnostics to the user.
-/

namespace MarkupCompiler.CommandLine

/-- A diagnostic in the form in which it is rendered: a message, and a label on a range of bytes of
the template. -/
structure Report where
  /-- What the template is called. -/
  name : Text
  source : Text
  message : String
  range : Nat × Nat
  label : String

/-- How trees and reports are written. -/
structure Presentation where
  /-- The document of a tree. -/
  document : Element → Text
  /-- The lines of a report, none if it cannot be rendered. -/
  render : Report → List String

/-- Shows the diagnostics of one template and counts them. -/
structure Reporter where
  /-- What the template is called. -/
  name : Text
  source : Text
  count : Nat := 0
  /-- The lines shown, oldest first. -/
  lines : List String := []

namespace Reporter

def describe (r : Reporter) (d : Diagnostic) : Report where
  name := r.name
  source := r.source
  message := d.cause.name
  range := d.location.range
  label := d.message

/-- A diagnostic counts even if it cannot be rendered. -/
def report (p : Presentation) (r : Reporter) (d : Diagnostic) : Reporter :=
  { r with count := r.count + 1, lines := r.lines ++ p.render (r.describe d) }

end Reporter

end MarkupCompiler.CommandLine
