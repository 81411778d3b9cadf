import MarkupCompiler.Compile
import MarkupCompiler.Tree.Outline

/-!
A workbench keeps one of each tool, and the tree they are used on.
-/

namespace MarkupCompiler

structure Workbench where
  options : Options := {}
  normalizer : Normalizer := { viewModel := options.target.viewModel }
  writer : Writer := {}
  collector : Collector := {}
  root : Option Element := none

namespace Workbench

/-- New tools for new options; the tree and the collected diagnostics stay. -/
def configure (b : Workbench) (options : Options) : Workbench :=
  { options, collector := b.collector, root := b.root }

def load (b : Workbench) (root : Element) : Workbench :=
  { b with root := some root }

/-- A parse that stops leaves the tree as it is. -/
def parse (b : Workbench) (source : Text) : Except Stop Element × Workbench :=
  let parsed := Parser.parse b.options.grammar source
  let collector := parsed.reports.foldl Collector.report b.collector
  match parsed.outcome with
  | .ok root => (.ok root, { b with collector, root := some root })
  | .error stop => (.error stop, { b with collector })

def takeErrors (b : Workbench) : List Diagnostic × Workbench :=
  let (errors, collector) := b.collector.take
  (errors, { b with collector })

/-- Normalizes a tree in place. -/
def normalize (b : Workbench) (root : Element) : Element × Traced Unit × Workbench :=
  let (root, run, normalizer) := b.normalizer.run root
  (root, run, { b with normalizer, root := some root })

def generate (b : Workbench) (e : Element) : Traced Text × Workbench :=
  let (code, writer) := b.writer.generate b.options.target e
  (code, { b with writer })

def generateCall (b : Workbench) (e : Element) : Except Stop Text × Workbench :=
  let (code, writer) := b.writer.generateCall b.options.target e
  (code, { b with writer })

end Workbench

end MarkupCompiler
