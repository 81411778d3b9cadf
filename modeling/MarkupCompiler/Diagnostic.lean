import MarkupCompiler.Source.Position

/-!
What can be wrong with a template, and the wording of it.
-/

namespace MarkupCompiler

inductive Cause where
  | malformedStartTag
  | malformedEndTag
  | malformedAttribute
  | endInTag
  | missingInterpolationEnd
  | missingEndTag
  | strayEndTag
  | attributeSyntax
  | unrecognizedKind
  deriving DecidableEq, Repr

/-- The short name a report is headed with. -/
def Cause.name : Cause → String
  | .malformedStartTag => "MalformedStartTag"
  | .malformedEndTag => "MalformedEndTag"
  | .malformedAttribute => "MalformedAttribute"
  | .endInTag => "EofInTag"
  | .missingInterpolationEnd => "MissingInterpolationEnd"
  | .missingEndTag => "MissingEndTag"
  | .strayEndTag => "StackUnderflow"
  | .attributeSyntax => "AttributeSyntaxError"
  | .unrecognizedKind => "UnrecognizedNodeKind"

def Cause.summary : Cause → String
  | .malformedStartTag => "Illegal tag name. Use '&lt;' to print '<'."
  | .malformedEndTag => "End tag name was expected."
  | .malformedAttribute => "Attribute name or value cannot be recognized."
  | .endInTag => "Unexpected EOF in tag."
  | .missingInterpolationEnd => "Interpolation end sign was not found."
  | .missingEndTag => "Element is missing end tag."
  | .strayEndTag => "End tag has no matching start tag."
  | .attributeSyntax => "Attribute is missing '=' and value: "
  | .unrecognizedKind => "Node kind cannot be rendered: "

structure Diagnostic where
  cause : Cause
  /-- What the summary is continued with. -/
  detail : Option Text := none
  location : Location := {}
  deriving DecidableEq, Repr

def Diagnostic.message (d : Diagnostic) : String :=
  d.cause.summary ++ String.ofList (d.detail.getD [])

/-- Why a stage ended without a result. -/
inductive Stop where
  /-- The template is to blame. -/
  | problem (d : Diagnostic)
  /-- The program is to blame. -/
  | fault (f : Fault)
  deriving DecidableEq, Repr

/-- Diagnostics kept until they are taken. -/
structure Collector where
  pending : List Diagnostic := []

namespace Collector

def report (c : Collector) (d : Diagnostic) : Collector :=
  { pending := c.pending ++ [d] }

def hasError (c : Collector) : Bool :=
  !c.pending.isEmpty

/-- Hands out what is pending, oldest first, and keeps nothing. -/
def take (c : Collector) : List Diagnostic × Collector :=
  (c.pending, {})

end Collector

end MarkupCompiler
