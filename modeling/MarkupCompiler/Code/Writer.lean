import MarkupCompiler.Diagnostic

/-!
Writing code: pieces of text are collected, and line breaks indent by the depth of open blocks.
-/

namespace MarkupCompiler

structure Writer where
  /-- What has been written, newest first. -/
  pieces : List Text := []
  depth : Nat := 0

/-- All that has been written. -/
def Writer.text (w : Writer) : Text :=
  w.pieces.reverse.flatten

/-- What is written before writing stops stays written. -/
abbrev WriteM := ExceptT Stop (StateM Writer)

namespace WriteM

def write (piece : Text) : WriteM Unit :=
  modify fun w => { w with pieces := piece :: w.pieces }

def newline : WriteM Unit := do
  let w ← get
  write ('\n' :: List.replicate (2 * w.depth) ' ')

def openBlock : WriteM Unit := do
  modify fun w => { w with depth := w.depth + 1 }
  newline

def closeBlock : WriteM Unit := do
  match (← get).depth with
  | 0 => throw (.fault .unbalancedBlock)
  | depth + 1 =>
    modify fun w => { w with depth }
    newline

/-- Every block has been closed. -/
def finish : WriteM Unit := do
  if (← get).depth ≠ 0 then
    throw (.fault .unbalancedBlock)

end WriteM

end MarkupCompiler
