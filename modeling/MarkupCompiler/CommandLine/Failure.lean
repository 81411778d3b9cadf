import MarkupCompiler.Diagnostic
import MarkupCompiler.Options
import MarkupCompiler.Text.Class

/-!
Why a run of the command ends without code, and the settings that are checked before it.
-/

namespace MarkupCompiler.CommandLine

inductive Failure where
  | cannotRead (path : Text)
  | invalidEncoding
  | malformedDelimiters
  | missingMarkers
  | compilation (name : Text) (cause : Cause)
  | reported (count : Nat) (name : Text)
  | internal (fault : Fault)

def Failure.message : Failure → String
  | .cannotRead path => "cannot read " ++ String.ofList path
  | .invalidEncoding => "stream did not contain valid UTF-8"
  | .malformedDelimiters => "The delimiter argument should be split by one whitespace"
  | .missingMarkers => "At least one binding prefix is required"
  | .compilation name cause => "failed to compile " ++ String.ofList name ++ ": " ++ cause.name
  | .reported count name =>
    toString count ++ " error(s) found in " ++ String.ofList name
  | .internal _ => "internal fault"

/-- The opening and the closing delimiter, divided by the first space. -/
def readDelimiters (cs : Text) : Except Failure Delimiters :=
  match Text.splitOnce? ' ' cs with
  | some (opening, closing) =>
    if opening.isEmpty || closing.isEmpty then .error .malformedDelimiters
    else .ok { opening, closing }
  | none => .error .malformedDelimiters

/-- Inserts into an ascending list without repetition. -/
def insertMarker (c : Char) : List Char → List Char
  | [] => [c]
  | d :: ds =>
    if c < d then c :: d :: ds
    else if c = d then d :: ds
    else d :: insertMarker c ds

/-- The characters that are not white space, each once and in ascending order. -/
def readMarkers (cs : Text) : Except Failure (List Char) :=
  match cs.filter (!Text.isSpace ·) with
  | [] => .error .missingMarkers
  | markers => .ok (markers.foldr insertMarker [])

end MarkupCompiler.CommandLine
