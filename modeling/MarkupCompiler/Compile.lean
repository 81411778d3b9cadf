import MarkupCompiler.Code.Render
import MarkupCompiler.Tree.Normalize
import MarkupCompiler.Tree.Parser

/-!
From template to module. A compilation fails with the flaw that stopped the parse, else with the
first one that was reported, else with the one that stopped a later stage.
-/

namespace MarkupCompiler

/-- The first reported flaw gives up the compilation. -/
def rejectReported : List Diagnostic → Traced Unit
  | [] => return ()
  | d :: _ => do
    Traced.emit (.rejected d)
    Traced.fail d

def normalize (o : Options) (root : Element) : Element × Traced Unit :=
  let (root, run, _) := { viewModel := o.target.viewModel : Normalizer }.run root
  (root, run)

def generate (o : Options) (root : Element) : Traced Text :=
  (({} : Writer).generate o.target root).1

def compile (o : Options) (source : Text) : Traced Text := do
  let parsed := Parser.parse o.grammar source
  let root ← parsed
  rejectReported parsed.reports
  let (root, run) := normalize o root
  run
  generate o root

end MarkupCompiler
