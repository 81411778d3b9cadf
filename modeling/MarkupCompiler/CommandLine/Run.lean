import MarkupCompiler.CommandLine.Arguments
import MarkupCompiler.CommandLine.Failure
import MarkupCompiler.CommandLine.Path
import MarkupCompiler.CommandLine.Reporter
import MarkupCompiler.Compile
import MarkupCompiler.Tree.Outline

/-!
A run of the command, over any way to read its input and to present what it shows.
-/

namespace MarkupCompiler.CommandLine

/-- What is shown besides the code. -/
structure Display where
  outline : Bool := false
  parsed : Bool := false
  normalized : Bool := false

/-- What has been written so far, and the reports made. -/
structure Session where
  output : Text := []
  reporter : Reporter

namespace Session

def print (s : Session) (cs : Text) : Session :=
  { s with output := s.output ++ cs }

def printIf (s : Session) (wanted : Bool) (cs : Text) : Session :=
  if wanted then s.print cs else s

def report (p : Presentation) (s : Session) (d : Diagnostic) : Session :=
  { s with reporter := s.reporter.report p d }

/-- A flaw that stops a stage is reported like any other. -/
def fail (p : Presentation) (s : Session) : Stop → Session × Except Failure Unit
  | .problem d => (s.report p d, .error (.compilation s.reporter.name d.cause))
  | .fault f => (s, .error (.internal f))

end Session

def parsedBlock (p : Presentation) (root : Element) : Text :=
  "=============== AST ==============\n".toList ++ p.document root ++
    "=========== End of AST ===========\n".toList

def normalizedBlock (p : Presentation) (root : Element) : Text :=
  "======= Transformed =========\n".toList ++ p.document root ++
    "======== End of Transform ========\n".toList

/-- Compiles a template, showing its stages as they are done. -/
def compileShowing (p : Presentation) (o : Options) (d : Display) (name source : Text) :
    Session × Except Failure Unit :=
  let parsed := Parser.parse o.grammar source
  let s := parsed.reports.foldl (Session.report p) { reporter := { name, source } }
  match parsed.outcome with
  | .error stop => s.fail p stop
  | .ok root =>
    if s.reporter.count > 0 then (s, .error (.reported s.reporter.count name))
    else
      let s := s.printIf d.outline (root.outline 0 ++ ['\n'])
      let s := s.printIf d.parsed (parsedBlock p root)
      let (root, run) := normalize o root
      match run.outcome with
      | .error stop => s.fail p stop
      | .ok () =>
        let s := s.printIf d.normalized (normalizedBlock p root)
        match (generate o root).outcome with
        | .error stop => s.fail p stop
        | .ok code => (s.print code, .ok ())

/-- The template compiled for demonstration. -/
def demoTemplate : Text :=
  ("<template>\n" ++
    "  <div id=\"app\" className=\"flex\">\n" ++
    "    <span :className=\"position\">\x7b\x7b add \x7d\x7d</span>\n" ++
    "    <span>\n" ++
    "      number:\x7b\x7b count \x7d\x7d\n" ++
    "    </span>\n" ++
    "    <img src=\"asdsad.png\" />\n" ++
    "  </div>\n" ++
    "</template>\n").toList

def versionLine : Text :=
  "vdom-template-compiler-cli 0.1.0\n".toList

/-- How a run reads what is outside of it. -/
structure World (m : Type → Type) where
  workingDirectory : m Text
  /-- The content of a file, unless it cannot be read. -/
  content? : Text → m (Option ByteArray)
  /-- All of the standard input. -/
  input : m ByteArray

def decode? (bytes : ByteArray) : Option Text :=
  (String.fromUTF8? bytes).map String.toList

/-- The name and the text of the template. -/
def readTemplate {m : Type → Type} [Monad m] (w : World m) (g : Given) :
    m (Except Failure (Text × Text)) := do
  if g.flags.contains .demo then
    return .ok ("demo.html".toList, demoTemplate)
  match g.file with
  | some name =>
    let path := Path.absolute (← w.workingDirectory) name
    match (← w.content? path).bind decode? with
    | some source => return .ok (name, source)
    | none => return .error (.cannotRead path)
  | none =>
    match decode? (← w.input) with
    | some source => return .ok ("stdin.html".toList, source)
    | none => return .error .invalidEncoding

/-- The delimiters are checked before the markers. -/
def readOptions (g : Given) : Except Failure Options := do
  let defaults : Options := {}
  let delimiters ←
    readDelimiters (g.value .delimiters "\x7b\x7b \x7d\x7d".toList)
  let markers ← readMarkers (g.value .bindingPrefixes [':'])
  return {
    grammar := { delimiters, markers }
    target :=
      { defaults.target with
        viewModel := g.value .viewModel defaults.target.viewModel
        runtimeModule := g.value .runtimeModule defaults.target.runtimeModule } }

structure Outcome where
  exitCode : Nat := 0
  output : Text := []
  errors : List String := []

def Outcome.ofFailure (f : Failure) : Outcome :=
  { exitCode := 1, errors := ["Error: " ++ f.message] }

def Outcome.ofSession (s : Session) : Except Failure Unit → Outcome
  | .ok () => { output := s.output, errors := s.reporter.lines }
  | .error f =>
    { exitCode := 1, output := s.output, errors := s.reporter.lines ++ ["Error: " ++ f.message] }

def compileGiven (p : Presentation) (g : Given) (name source : Text) : Outcome :=
  match readOptions g with
  | .error f => .ofFailure f
  | .ok o =>
    let display : Display :=
      { outline := g.flags.contains .printAst
        parsed := g.flags.contains .dumpParse
        normalized := g.flags.contains .dumpTransform }
    let (s, result) := compileShowing p o display name source
    .ofSession s result

/-- The input is read before the settings are checked. -/
def run {m : Type → Type} [Monad m] (p : Presentation) (w : World m) (args : List Text) :
    m Outcome := do
  match readArguments {} none args with
  | .refused => return { exitCode := 2 }
  | .version => return { output := versionLine }
  | .help => return {}
  | .run g =>
    match ← readTemplate w g with
    | .error f => return .ofFailure f
    | .ok (name, source) => return compileGiven p g name source

end MarkupCompiler.CommandLine
