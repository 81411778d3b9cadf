import MarkupCompiler.Text.Quoted
import MarkupCompiler.Traced

/-!
Normalized trees. Every attribute gets the field and value that its raw text spells, and every text
becomes an expression: a binding and an interpolation are read from the view model, plain text is
quoted. The pass stops at the first attribute without a value, and leaves the tree as far as it got.
-/

namespace MarkupCompiler

open Text

/-- The expression read from the view model. -/
def readFrom (viewModel expression : Text) : Text :=
  viewModel ++ '.' :: expression

/-- The text between two quotes of one kind, and any other text as it is. -/
def stripQuotes (cs : Text) : Except Fault Text := do
  match ['\x22', '\x27'].find? fun q => cs.head? = some q && cs.getLast? = some q with
  | none => return cs
  | some _ =>
    if byteSize cs < 2 then
      return cs
    else
      let (_, tail) ← cut 1 cs
      let (inner, _) ← cut (byteSize cs - 2) tail
      return inner

/-- The text after its first character. -/
def dropMarker (cs : Text) : Except Fault Text := do
  match cs with
  | [] => return []
  | c :: _ =>
    let (_, tail) ← cut c.utf8Size cs
    return tail

def orFault {α : Type} (x : Except Fault α) : Except Stop α :=
  x.mapError .fault

/-- The raw text is split at its first equals sign. -/
def Attribute.normalize (viewModel : Text) (a : Attribute) : Except Stop Attribute := do
  match splitOnce? '=' a.raw with
  | none =>
    throw (.problem { cause := .attributeSyntax, detail := some a.raw, location := a.location })
  | some (name, value) =>
    let name := trim name
    let value ← orFault (stripQuotes (trim value))
    if a.isDynamic then
      let field ← orFault (dropMarker name)
      return { a with field, value := readFrom viewModel (trim value) }
    else
      return { a with field := name, value }

def TextRun.normalize (viewModel : Text) (t : TextRun) : TextRun :=
  match t.kind with
  | .interpolation => { t with content := readFrom viewModel t.content }
  | .plain => { t with content := quote t.content }

/-- What a pass over a part of a tree comes to. -/
structure Pass (α : Type) where
  /-- The part as the pass left it. -/
  part : α
  /-- The attributes of the elements whose attributes were all normalized. -/
  counted : Nat := 0
  stop : Option Stop := none

def normalizeAttributes (viewModel : Text) : List Attribute → Pass (List Attribute)
  | [] => { part := [] }
  | a :: as =>
    match a.normalize viewModel with
    | .error stop => { part := a :: as, stop := some stop }
    | .ok a' =>
      let later := normalizeAttributes viewModel as
      { later with part := a' :: later.part }

mutual

def Node.normalize (viewModel : Text) : Node → Pass Node
  | .text run => { part := .text (run.normalize viewModel) }
  | .element head children =>
    let own := normalizeAttributes viewModel head.attributes
    let head' := { head with attributes := own.part }
    match own.stop with
    | some stop => { part := .element head' children, stop := some stop }
    | none =>
      let inner := Node.normalizeList viewModel children
      { part := .element head' inner.part
        counted := head.attributes.length + inner.counted
        stop := inner.stop }

def Node.normalizeList (viewModel : Text) : List Node → Pass (List Node)
  | [] => { part := [] }
  | node :: nodes =>
    let first := node.normalize viewModel
    match first.stop with
    | some stop => { part := first.part :: nodes, counted := first.counted, stop := some stop }
    | none =>
      let later := Node.normalizeList viewModel nodes
      { part := first.part :: later.part
        counted := first.counted + later.counted
        stop := later.stop }

end

def Element.normalize (viewModel : Text) (e : Element) : Pass Element :=
  let own := normalizeAttributes viewModel e.attributes
  let e' := { e with attributes := own.part }
  match own.stop with
  | some stop => { part := e', stop := some stop }
  | none =>
    let inner := Node.normalizeList viewModel e.children
    { part := { e' with children := inner.part }
      counted := e.attributes.length + inner.counted
      stop := inner.stop }

/-- A normalizer can be used for many trees; it counts the attributes of one. -/
structure Normalizer where
  viewModel : Text
  counted : Nat := 0

/-- The tree that a run leaves behind, the run itself, and the normalizer after it. -/
def Normalizer.run (n : Normalizer) (root : Element) : Element × Traced Unit × Normalizer :=
  let fresh := { n with counted := 0 }
  let pass := root.normalize n.viewModel
  let used := { fresh with counted := fresh.counted + pass.counted }
  match pass.stop with
  | some stop => (pass.part, ⟨[], .error stop⟩, used)
  | none => (pass.part, Traced.emit (.normalized used.counted), used)

end MarkupCompiler
