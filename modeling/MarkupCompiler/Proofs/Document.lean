import MarkupCompiler.Diagnostic
import MarkupCompiler.Tree.Basic

/-!
# Trees in document order

The elements of a tree are listed in the order of their start tags, each before its children, and so
are their attributes. Later stages stop at the first of them that they have no use for.
-/

namespace MarkupCompiler

mutual

/-- The elements of a tree, each before its children. -/
def Node.heads : Node → List Head
  | .text _ => []
  | .element head children => head :: Node.headsList children

def Node.headsList : List Node → List Head
  | [] => []
  | node :: nodes => node.heads ++ Node.headsList nodes

end

/-- The attributes of a tree, those of an element before those of its children. -/
def Node.attributes (node : Node) : List Attribute :=
  node.heads.flatMap Head.attributes

inductive Item where
  | element (head : Head)
  | attribute (a : Attribute)
  | text (run : TextRun)

def Head.items (h : Head) : List Item :=
  .element h :: h.attributes.map .attribute

mutual

/-- All that stands in a tree: an element, its attributes, and then its children. -/
def Node.items : Node → List Item
  | .text run => [.text run]
  | .element head children => head.items ++ Node.itemsList children

def Node.itemsList : List Node → List Item
  | [] => []
  | node :: nodes => node.items ++ Node.itemsList nodes

end

/-- What is said about an attribute without an equals sign. -/
def Attribute.missingValue (a : Attribute) : Diagnostic where
  cause := .attributeSyntax
  detail := some a.raw
  location := a.location

/-- A call can be generated for every element of the tree. -/
def Node.Renderable (node : Node) : Prop :=
  ∀ head ∈ node.heads, head.kind.isRenderable = true

instance (node : Node) : Decidable node.Renderable :=
  inferInstanceAs (Decidable (∀ head ∈ node.heads, _))

/-- What is said about an element of a reserved kind. -/
def Head.unrecognizedKind (h : Head) : Diagnostic where
  cause := .unrecognizedKind
  detail := some h.kind.name.toList
  location := h.location

/-- Nothing is generated for the kinds of conditional and repeated content. -/
def Head.IsReserved (h : Head) : Prop :=
  h.kind = .conditional ∨ h.kind = .repetition

/-- The stop at the first element that cannot be rendered, if there is one. -/
def refusal (heads : List Head) : Option Stop :=
  (heads.find? fun head => !head.kind.isRenderable).map fun head => .problem head.unrecognizedKind

theorem refusal_append (front back : List Head) :
    refusal (front ++ back) = (refusal front).or (refusal back) := by
  rw [refusal, List.find?_append, Option.map_or]
  rfl

theorem refusal_cons (head : Head) (heads : List Head) :
    refusal (head :: heads) = (refusal [head]).or (refusal heads) :=
  refusal_append [head] heads

theorem refusal_eq_none_iff {heads : List Head} :
    refusal heads = none ↔ ∀ head ∈ heads, head.kind.isRenderable = true := by
  simp [refusal]

theorem Head.isReserved_iff {h : Head} : h.IsReserved ↔ h.kind.isRenderable = false := by
  unfold Head.IsReserved
  cases h.kind <;> decide

/-- The element that is to blame is the first one of its kind in document order. -/
theorem exists_of_refusal {heads : List Head} {stop : Stop} (hstop : refusal heads = some stop) :
    ∃ front head back, heads = front ++ head :: back ∧
      (∀ earlier ∈ front, ¬ earlier.IsReserved) ∧ head.IsReserved ∧
      stop = .problem head.unrecognizedKind := by
  obtain ⟨head, hfind, rfl⟩ := Option.map_eq_some_iff.mp hstop
  obtain ⟨hkind, front, back, hsplit, hfront⟩ := List.find?_eq_some_iff_append.mp hfind
  refine ⟨front, head, back, hsplit, ?_, ?_, rfl⟩
  · intro earlier hearlier
    rw [Head.isReserved_iff]
    simpa using hfront earlier hearlier
  · rw [Head.isReserved_iff]
    simpa using hkind

theorem exists_refusal_iff {heads : List Head} :
    (∃ stop, refusal heads = some stop) ↔ ∃ head ∈ heads, head.IsReserved := by
  constructor
  · rintro ⟨stop, hstop⟩
    obtain ⟨front, head, back, rfl, _, hreserved, _⟩ := exists_of_refusal hstop
    exact ⟨head, List.mem_append_right front List.mem_cons_self, hreserved⟩
  · rintro ⟨head, hmem, hreserved⟩
    cases hrefusal : refusal heads with
    | some stop => exact ⟨stop, rfl⟩
    | none =>
      have hkind := refusal_eq_none_iff.mp hrefusal head hmem
      rw [Head.isReserved_iff.mp hreserved] at hkind
      cases hkind

theorem Node.headsList_append (front back : List Node) :
    Node.headsList (front ++ back) = Node.headsList front ++ Node.headsList back := by
  induction front with
  | nil => rfl
  | cons node front ih =>
    rw [List.cons_append, Node.headsList, ih, Node.headsList, List.append_assoc]

theorem Node.itemsList_append (front back : List Node) :
    Node.itemsList (front ++ back) = Node.itemsList front ++ Node.itemsList back := by
  induction front with
  | nil => rfl
  | cons node front ih =>
    rw [List.cons_append, Node.itemsList, ih, Node.itemsList, List.append_assoc]

theorem Node.renderable_element {head : Head} {children : List Node} :
    (Node.element head children).Renderable ↔
      head.kind.isRenderable = true ∧
        ∀ inner ∈ Node.headsList children, inner.kind.isRenderable = true := by
  rw [Node.Renderable, Node.heads, List.forall_mem_cons]

end MarkupCompiler
