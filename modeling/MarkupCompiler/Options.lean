import MarkupCompiler.Text.Basic

/-!
What can be chosen about a compilation.
-/

namespace MarkupCompiler

/-- The signs around an interpolated expression. -/
structure Delimiters where
  opening : Text := ['\x7b', '\x7b']
  closing : Text := ['\x7d', '\x7d']
  deriving DecidableEq, Repr

/-- What parsing depends on. -/
structure Grammar where
  delimiters : Delimiters := {}
  /-- An attribute whose first character is one of these is a binding. -/
  markers : List Char := [':']
  deriving DecidableEq, Repr

/-- What the generated module depends on. -/
structure Target where
  /-- The module that the helper is imported from. -/
  runtimeModule : Text := ['v', 'u', 'e']
  /-- The function that makes a virtual node. -/
  helper : Text := ['h']
  /-- The name that expressions are read from. -/
  viewModel : Text := ['v', 'm']
  deriving DecidableEq, Repr

structure Options where
  grammar : Grammar := {}
  target : Target := {}
  deriving DecidableEq, Repr

/-- Whether an attribute of this name is a binding. -/
def Grammar.isBinding (g : Grammar) (name : Text) : Bool :=
  match name with
  | [] => false
  | c :: _ => g.markers.contains c

theorem Grammar.isBinding_iff {g : Grammar} {name : Text} :
    g.isBinding name = true ↔ ∃ c, name.head? = some c ∧ c ∈ g.markers := by
  cases name with
  | nil => simp [Grammar.isBinding]
  | cons c name => simp [Grammar.isBinding]

end MarkupCompiler
