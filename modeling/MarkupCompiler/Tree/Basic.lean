import MarkupCompiler.Source.Position

/-!
Template trees. An element is its head, which says all but its content, and its children.
-/

namespace MarkupCompiler

inductive ElementKind where
  /-- The outermost element. -/
  | root
  | element
  /-- Reserved for conditional content. -/
  | conditional
  /-- Reserved for repeated content. -/
  | repetition
  deriving DecidableEq, Repr

def ElementKind.name : ElementKind → String
  | .root => "Root"
  | .element => "Element"
  | .conditional => "If"
  | .repetition => "For"

/-- The kinds that a call can be generated for. -/
def ElementKind.isRenderable : ElementKind → Bool
  | .root | .element => true
  | .conditional | .repetition => false

inductive TextKind where
  | plain
  | interpolation
  deriving DecidableEq, Repr

def TextKind.name : TextKind → String
  | .plain => "PlainText"
  | .interpolation => "Interpolation"

/-- One attribute of a start tag; `field` and `value` are empty until the tree is normalized. -/
structure Attribute where
  isDynamic : Bool := false
  /-- The attribute as written. -/
  raw : Text := []
  field : Text := []
  value : Text := []
  location : Location := {}
  deriving DecidableEq, Repr

/-- A run of text, or an interpolated expression. -/
structure TextRun where
  kind : TextKind := .plain
  /-- Source text in a parsed tree, an expression in a normalized one. -/
  content : Text := []
  location : Location := {}
  deriving DecidableEq, Repr

structure Head where
  kind : ElementKind := .element
  tagName : Text := []
  attributes : List Attribute := []
  location : Location := {}
  deriving DecidableEq, Repr

inductive Node where
  | element (head : Head) (children : List Node)
  | text (run : TextRun)

structure Element extends Head where
  children : List Node := []

namespace Element

def toNode (e : Element) : Node :=
  .element e.toHead e.children

/-- The root of a template without any element. -/
def emptyRoot : Element :=
  { kind := .root }

def isEmptyRoot (e : Element) : Bool :=
  e.kind = .root && e.tagName.isEmpty

theorem isEmptyRoot_iff {e : Element} : e.isEmptyRoot = true ↔ e.kind = .root ∧ e.tagName = [] := by
  simp [isEmptyRoot]

end Element

namespace Node

def element? : Node → Option Element
  | .element head children => some { head with children }
  | .text _ => none

def text? : Node → Option TextRun
  | .element _ _ => none
  | .text run => some run

def location : Node → Location
  | .element head _ => head.location
  | .text run => run.location

end Node

namespace Element

/-- The element at a path of child indexes. -/
def at? (e : Element) : List Nat → Option Element
  | [] => some e
  | i :: path =>
    match e.children[i]? with
    | some (.element head children) => at? { head with children } path
    | _ => none

/-- The tree with the element at a path of child indexes replaced. -/
def modifyAt? (f : Element → Element) (e : Element) : List Nat → Option Element
  | [] => some (f e)
  | i :: path =>
    match e.children[i]? with
    | some (.element head children) =>
      (modifyAt? f { head with children } path).map fun child =>
        { e with children := e.children.set i child.toNode }
    | _ => none

end Element

end MarkupCompiler
