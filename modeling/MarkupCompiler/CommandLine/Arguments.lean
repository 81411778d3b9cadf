import MarkupCompiler.Text.Basic

/-!
The grammar of the command's arguments. They are read from left to right, and the first that is
wrong, or asks for the version or for help, settles the run.
-/

namespace MarkupCompiler.CommandLine

inductive Flag where
  | demo
  | dumpParse
  | dumpTransform
  | printAst
  deriving DecidableEq, Repr

/-- What takes a value. -/
inductive Setting where
  | delimiters
  | bindingPrefixes
  | viewModel
  | runtimeModule
  deriving DecidableEq, Repr

inductive Switch where
  | flag (f : Flag)
  | setting (s : Setting)
  | version
  | help
  deriving DecidableEq, Repr

def longSwitches : List (Text × Switch) :=
  [("demo".toList, .flag .demo), ("delimiters".toList, .setting .delimiters),
    ("binding-prefixes".toList, .setting .bindingPrefixes),
    ("view-model".toList, .setting .viewModel),
    ("runtime-module".toList, .setting .runtimeModule), ("dump-parse".toList, .flag .dumpParse),
    ("dump-transform".toList, .flag .dumpTransform), ("print-ast".toList, .flag .printAst),
    ("version".toList, .version), ("help".toList, .help)]

def shortSwitches : List (Char × Switch) :=
  [('d', .setting .delimiters), ('b', .setting .bindingPrefixes), ('V', .version), ('h', .help)]

/-- What the arguments read so far have given. -/
structure Given where
  flags : List Flag := []
  settings : List (Setting × Text) := []
  file : Option Text := none
  deriving DecidableEq, Repr

inductive Request where
  | refused
  | version
  | help
  | run (g : Given)
  deriving DecidableEq, Repr

/-- Where the reading of one argument leads. -/
inductive Reading where
  | settled (r : Request)
  /-- On to the next argument, which may have to be the value of a setting. -/
  | next (g : Given) (pending : Option Setting)

namespace Given

/-- A flag is given at most once. -/
def addFlag (g : Given) (f : Flag) : Reading :=
  if g.flags.contains f then .settled .refused
  else .next { g with flags := f :: g.flags } none

/-- A setting is given at most once. -/
def addSetting (g : Given) (s : Setting) (value : Text) : Reading :=
  if (g.settings.lookup s).isSome then .settled .refused
  else .next { g with settings := (s, value) :: g.settings } none

def addFile (g : Given) (name : Text) : Reading :=
  if g.file.isSome then .settled .refused
  else .next { g with file := some name } none

/-- The demonstration template takes the place of a file. -/
def finish (g : Given) : Request :=
  if g.flags.contains .demo && g.file.isSome then .refused else .run g

def value (g : Given) (s : Setting) (default : Text) : Text :=
  (g.settings.lookup s).getD default

/-- A long switch, with the value that is joined to it by an equals sign. -/
def readLong (g : Given) (name : Text) (joined : Option Text) : Reading :=
  match longSwitches.lookup name, joined with
  | some (.setting s), none => .next g (some s)
  | some (.setting s), some value => g.addSetting s value
  | some (.flag f), none => g.addFlag f
  | some .version, none => .settled .version
  | some .help, none => .settled .help
  | _, _ => .settled .refused

/-- Short switches in a row; a setting takes the rest as its value. -/
def readShort (g : Given) : Text → Reading
  | [] => .next g none
  | c :: cs =>
    match shortSwitches.lookup c with
    | some (.setting s) =>
      match cs with
      | [] => .next g (some s)
      | '=' :: value => g.addSetting s value
      | value => g.addSetting s value
    | some (.flag f) =>
      match g.addFlag f with
      | .next g _ => readShort g cs
      | settled => settled
    | some .version => .settled .version
    | some .help => .settled .help
    | none => .settled .refused

end Given

def readSwitchOrFile (g : Given) : Text → Reading
  | '-' :: '-' :: long =>
    match Text.splitOnce? '=' long with
    | some (name, value) => g.readLong name (some value)
    | none => g.readLong long none
  | '-' :: c :: cs => g.readShort (c :: cs)
  | name => g.addFile name

/-- A value that stands by itself does not look like a switch. -/
def readValue (g : Given) (s : Setting) : Text → Reading
  | '-' :: _ :: _ => .settled .refused
  | value => g.addSetting s value

/-- After two dashes every argument names a file. -/
def readFiles (g : Given) : List Text → Request
  | [] => g.finish
  | name :: names =>
    match g.addFile name with
    | .settled r => r
    | .next g _ => readFiles g names

def readArguments (g : Given) (pending : Option Setting) : List Text → Request
  | [] => if pending.isSome then .refused else g.finish
  | arg :: args =>
    match pending with
    | some s =>
      match readValue g s arg with
      | .settled r => r
      | .next g pending => readArguments g pending args
    | none =>
      if arg = ['-', '-'] then readFiles g args
      else
        match readSwitchOrFile g arg with
        | .settled r => r
        | .next g pending => readArguments g pending args

end MarkupCompiler.CommandLine
