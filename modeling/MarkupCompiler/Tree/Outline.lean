import MarkupCompiler.Tree.Basic

/-!
An outline of a tree: one line for each element, attribute and text, two spaces deeper than the
element it belongs to.
-/

namespace MarkupCompiler

def Location.outline (l : Location) : Text :=
  Nat.toDigits 10 l.start.offset ++ ['.', '.'] ++ Nat.toDigits 10 l.stop.offset

def indentation (level : Nat) : Text :=
  List.replicate (2 * level) ' '

/-- The name and value follow once they are known. -/
def Attribute.outline (level : Nat) (a : Attribute) : Text :=
  indentation level ++ (if a.isDynamic then "binding" else "attribute").toList ++
    ' ' :: (a.location.outline ++ [' ', '\x60'] ++ a.raw ++ ['\x60']) ++
    if a.field.isEmpty then [] else [' ', '=', '>', ' '] ++ a.field ++ [':', ' '] ++ a.value

def TextRun.outline (level : Nat) (t : TextRun) : Text :=
  indentation level ++ t.kind.name.toList ++
    ' ' :: (t.location.outline ++ [' ', '\x60'] ++ t.content ++ ['\x60'])

def Head.outline (level : Nat) (h : Head) : Text :=
  indentation level ++ h.kind.name.toList ++
    ' ' :: (h.location.outline ++ [' ', '<'] ++ h.tagName ++ ['>'])

mutual

/-- The outline of a node, put before `tail`. -/
def Node.outlineOnto (level : Nat) (tail : Text) : Node → Text
  | .text run => run.outline level ++ tail
  | .element head children =>
    head.outline level ++ head.attributes.flatMap (fun a => '\n' :: a.outline (level + 1)) ++
      Node.outlinesOnto (level + 1) tail children

/-- Each outline after a line break, all put before `tail`. -/
def Node.outlinesOnto (level : Nat) (tail : Text) : List Node → Text
  | [] => tail
  | node :: nodes => '\n' :: node.outlineOnto level (Node.outlinesOnto level tail nodes)

end

def Element.outline (level : Nat) (e : Element) : Text :=
  e.toNode.outlineOnto level []

end MarkupCompiler
