import MarkupCompiler.CommandLine.Reporter
import MarkupCompiler.Event
import MarkupCompiler.Yaml.Tree

/-!
What the command writes to a console.
-/

namespace MarkupCompiler.CommandLine

/-- The message of a report and the place where its range begins. -/
def Report.consoleLines (r : Report) : List String :=
  match r.source.cut r.range.1 with
  | .error _ => []
  | .ok (before, _) =>
    let start : Position := ({} : Position).advance before
    ["error: " ++ r.message, String.ofList r.name ++ ":" ++ start.place]

def console : Presentation where
  document := Element.yamlDocument
  render := Report.consoleLines

end MarkupCompiler.CommandLine
