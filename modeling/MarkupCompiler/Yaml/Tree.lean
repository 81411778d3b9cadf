import MarkupCompiler.Tree.Basic
import MarkupCompiler.Yaml.Value

/-!
Trees as YAML documents.
-/

namespace MarkupCompiler

open Yaml

def Yaml.ofNat (n : Nat) : Value :=
  .word (Nat.toDigits 10 n)

def Position.toYaml (p : Position) : Value :=
  .record none
    [("offset".toList, ofNat p.offset), ("line".toList, ofNat p.line),
      ("column".toList, ofNat p.column)]

def Location.toYaml (l : Location) : Value :=
  .record none [("start".toList, l.start.toYaml), ("end".toList, l.stop.toYaml)]

def Attribute.toYaml (a : Attribute) : Value :=
  .record none
    [("is_dynamic".toList, .word (if a.isDynamic then "true" else "false").toList),
      ("raw".toList, .text a.raw), ("field".toList, .text a.field), ("value".toList, .text a.value),
      ("location".toList, a.location.toYaml)]

def TextRun.yamlFields (t : TextRun) : List (Text × Value) :=
  [("kind".toList, .text t.kind.name.toList), ("content".toList, .text t.content),
    ("location".toList, t.location.toYaml)]

def Head.yamlFields (h : Head) (children : List Value) : List (Text × Value) :=
  [("kind".toList, .text h.kind.name.toList), ("tag_name".toList, .text h.tagName),
    ("attributes".toList, .list (h.attributes.map Attribute.toYaml)),
    ("children".toList, .list children), ("location".toList, h.location.toYaml)]

mutual

def Node.toYaml : Node → Value
  | .text run => .record (some "Text".toList) run.yamlFields
  | .element head children =>
    .record (some "Element".toList) (head.yamlFields (Node.toYamls children))

def Node.toYamls : List Node → List Value
  | [] => []
  | node :: nodes => node.toYaml :: Node.toYamls nodes

end

def Element.yamlDocument (e : Element) : Text :=
  Value.document (e.yamlFields (Node.toYamls e.children))

end MarkupCompiler
