import MarkupCompiler.Text.Basic

/-!
Absolute paths, cleaned by their text alone.
-/

namespace MarkupCompiler.CommandLine.Path

/-- The names between slashes. -/
def names : Text → List Text
  | [] => [[]]
  | c :: cs =>
    if c = '/' then [] :: names cs
    else
      match names cs with
      | [] => [[c]]
      | name :: rest => (c :: name) :: rest

/-- Steps to a name from the directories walked so far, innermost first. -/
def step (walked : List Text) (name : Text) : List Text :=
  if name = [] ∨ name = ['.'] then walked
  else if name = ['.', '.'] then walked.tail
  else name :: walked

def render (walked : List Text) : Text :=
  if walked.isEmpty then ['/'] else walked.reverse.flatMap ('/' :: ·)

/-- The absolute form of a path, relative ones being taken from `directory`. -/
def absolute (directory path : Text) : Text :=
  let start := if path.head? = some '/' then [] else (names directory).foldl step []
  render ((names path).foldl step start)

end MarkupCompiler.CommandLine.Path
