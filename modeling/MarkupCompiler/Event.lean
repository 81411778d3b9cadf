import MarkupCompiler.Diagnostic
import MarkupCompiler.Tree.Basic

/-!
What a run notes as it goes, and the wording of its log.
-/

namespace MarkupCompiler

/-- Something worth noting about a run. -/
inductive Event where
  | startTag (name : Text) (kind : ElementKind)
  | attributeRead (raw : Text) (isDynamic : Bool)
  /-- An end tag closed an element of another name. -/
  | mismatch (found expected : Text)
  /-- Content stood outside of the root element and was dropped. -/
  | outsideRoot (place : Position)
  /-- Content stood after the root element and was ignored. -/
  | afterRoot (place : Position)
  | parsed (tagName : Text) (children : Nat)
  | normalized (attributes : Nat)
  | generated (bytes : Nat)
  /-- A flaw of the template was reported and the run went on. -/
  | reported (d : Diagnostic)
  /-- A compilation was given up because of a reported flaw. -/
  | rejected (d : Diagnostic)
  deriving DecidableEq, Repr

inductive Level where
  | trace
  | debug
  | warn
  deriving DecidableEq, Repr

def Level.name : Level → String
  | .trace => "TRACE"
  | .debug => "DEBUG"
  | .warn => "WARN"

def Position.place (p : Position) : String :=
  toString p.line ++ ":" ++ toString p.column

/-- The log entry of an event; reports go to their own channel. -/
def Event.entry? : Event → Option (Level × String)
  | .startTag name kind =>
    some (.trace, "start tag <" ++ String.ofList name ++ "> as " ++ kind.name)
  | .attributeRead raw isDynamic =>
    some (.trace, "attribute `" ++ String.ofList raw ++ "` dynamic: " ++
      if isDynamic then "true" else "false")
  | .mismatch found expected =>
    some (.debug, "</" ++ String.ofList found ++ "> closes <" ++ String.ofList expected ++ ">")
  | .outsideRoot place =>
    some (.warn, "dropping content outside of the root element at " ++ place.place)
  | .afterRoot place =>
    some (.warn, "ignoring content after the root element at " ++ place.place)
  | .parsed tagName children =>
    some (.debug, "parsed root <" ++ String.ofList tagName ++ "> with " ++ toString children ++
      " children")
  | .normalized attributes => some (.debug, "transformed " ++ toString attributes ++ " attributes")
  | .generated bytes => some (.debug, "generated " ++ toString bytes ++ " bytes of render code")
  | .reported _ => none
  | .rejected d => some (.debug, "parse reported: " ++ d.message)

def Event.reported? : Event → Option Diagnostic
  | .reported d => some d
  | _ => none

end MarkupCompiler
