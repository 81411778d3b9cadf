/-!
Conditions the program keeps by itself, whatever the template.
-/

namespace MarkupCompiler

/-- A broken internal condition, as opposed to a flaw of the template. -/
inductive Fault where
  /-- A text was cut past its end. -/
  | pastEnd
  /-- A text was cut inside a character. -/
  | insideCharacter
  /-- An interpolation was read away from its opening delimiter. -/
  | awayFromDelimiter
  /-- A block was closed that had not been opened, or left open. -/
  | unbalancedBlock
  deriving DecidableEq, Repr

end MarkupCompiler
