import MarkupCompiler.Tree.Parser.Progress

/-!
Trees from template texts.
-/

namespace MarkupCompiler.Parser

/-- The tree of a template. -/
def parse (g : Grammar) (source : Text) : Traced Element := do
  let root ← Traced.loop (·.cursor.rest.length) (step g) (step_shrinks g)
    { cursor := { rest := source } }
  Traced.emit (.parsed root.tagName root.children.length)
  return root

end MarkupCompiler.Parser
