import MarkupCompiler.Code.Writer
import MarkupCompiler.Options
import MarkupCompiler.Text.Quoted
import MarkupCompiler.Traced

/-!
The code of a normalized tree: nested calls that make virtual nodes, wrapped in a module that
exports a render function.
-/

namespace MarkupCompiler

open Text WriteM

def writeKey (key : Text) : WriteM Unit :=
  write (if isSimpleIdentifier key then key else quote key)

def Attribute.write (a : Attribute) : WriteM Unit := do
  writeKey a.field
  WriteM.write [':', ' ']
  WriteM.write (if a.isDynamic then a.value else quote a.value)

/-- Each property after a comma. -/
def writeMoreProperties : List Attribute → WriteM Unit
  | [] => return ()
  | a :: as => do
    write [',', ' ']
    a.write
    writeMoreProperties as

/-- The second argument of a call, left out without attributes. -/
def writeProperties : List Attribute → WriteM Unit
  | [] => return ()
  | a :: as => do
    write [',', ' ', '\x7b', ' ']
    a.write
    writeMoreProperties as
    write [' ', '\x7d']

/-- Only the kinds that are not reserved can be rendered. -/
def requireRenderable (head : Head) : WriteM Unit :=
  if head.kind.isRenderable then return ()
  else throw (.problem
    { cause := .unrecognizedKind, detail := some head.kind.name.toList, location := head.location })

/-- The name of the helper and the first argument. -/
def writeCallee (helper tagName : Text) : WriteM Unit := do
  write helper
  write ['(']
  write (quote tagName)

mutual

def Node.write (helper : Text) : Node → WriteM Unit
  | .text run => WriteM.write run.content
  | .element head children => do
    requireRenderable head
    writeCallee helper head.tagName
    writeProperties head.attributes
    Node.writeChildren helper children
    WriteM.write [')']

/-- The last argument of a call, left out without children. -/
def Node.writeChildren (helper : Text) : List Node → WriteM Unit
  | [] => return ()
  | node :: nodes => do
    WriteM.write [',', ' ', '[']
    node.write helper
    Node.writeMore helper nodes
    WriteM.write [']']

/-- Each node after a comma. -/
def Node.writeMore (helper : Text) : List Node → WriteM Unit
  | [] => return ()
  | node :: nodes => do
    WriteM.write [',', ' ']
    node.write helper
    Node.writeMore helper nodes

end

/-- An empty root renders nothing. -/
def writeModule (t : Target) (root : Element) : WriteM Unit := do
  write ("import \x7b ".toList ++ t.helper ++ " \x7d from ".toList ++ quote t.runtimeModule)
  newline
  write "export function render() \x7b".toList
  openBlock
  write ("const ".toList ++ t.viewModel ++ " = this".toList)
  newline
  write "return ".toList
  if root.isEmptyRoot then write "null".toList else root.toNode.write t.helper
  closeBlock
  write ['\x7d']
  newline
  finish

namespace Writer

/-- Runs `action` and hands out what it wrote; after a stop that stays in the writer. -/
def collect (w : Writer) (action : WriteM Unit) : Except Stop Text × Writer :=
  match action.run w with
  | (.ok (), w') => (.ok w'.text, { w' with pieces := [] })
  | (.error stop, w') => (.error stop, w')

/-- The code of the whole module. -/
def generate (t : Target) (root : Element) (w : Writer) : Traced Text × Writer :=
  match { w with pieces := [], depth := 0 : Writer }.collect (writeModule t root) with
  | (.ok code, w') => (⟨[.generated code.byteSize], .ok code⟩, w')
  | (.error stop, w') => (⟨[], .error stop⟩, w')

/-- The code of one call, without a module around it. -/
def generateCall (t : Target) (e : Element) (w : Writer) : Except Stop Text × Writer :=
  { w with pieces := [] : Writer }.collect (e.toNode.write t.helper)

end Writer

end MarkupCompiler
