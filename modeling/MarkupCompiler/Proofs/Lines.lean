import MarkupCompiler.Proofs.Document
import MarkupCompiler.Proofs.Text
import MarkupCompiler.Tree.Outline

/-!
# The lines of an outline

An outline is made of the lines of all that stands in the tree, in document order, whatever is in
them (`Node.newline_outlineOnto`). Where no item holds a line break of its own, those lines can be
told apart again, and each of them shows by its indentation how deep in the tree its item stands
(`splitOn_outline`).
-/

namespace MarkupCompiler

open Text

namespace Item

/-- The word that begins the line of an item. -/
def label : Item → String
  | .element head => head.kind.name
  | .attribute a => if a.isDynamic then "binding" else "attribute"
  | .text run => run.kind.name

def location : Item → Location
  | .element head => head.location
  | .attribute a => a.location
  | .text run => run.location

/-- What is shown of an item after its place in the source. -/
def detail : Item → Text
  | .element head => '<' :: (head.tagName ++ ['>'])
  | .attribute a =>
    '\x60' :: (a.raw ++ '\x60' ::
      if a.field = [] then [] else [' ', '=', '>', ' '] ++ (a.field ++ ([':', ' '] ++ a.value)))
  | .text run => '\x60' :: (run.content ++ ['\x60'])

/-- The line of an item, without its indentation. -/
def caption (item : Item) : Text :=
  item.label.toList ++ ' ' :: (item.location.outline ++ ' ' :: item.detail)

/-- None of the texts of an item holds a line break. -/
def SingleLine : Item → Prop
  | .element head => '\n' ∉ head.tagName
  | .attribute a => '\n' ∉ a.raw ∧ '\n' ∉ a.field ∧ '\n' ∉ a.value
  | .text run => '\n' ∉ run.content

instance : DecidablePred SingleLine
  | .element head => inferInstanceAs (Decidable ('\n' ∉ head.tagName))
  | .attribute a => inferInstanceAs (Decidable ('\n' ∉ a.raw ∧ '\n' ∉ a.field ∧ '\n' ∉ a.value))
  | .text run => inferInstanceAs (Decidable ('\n' ∉ run.content))

theorem newline_notMem_label (item : Item) : '\n' ∉ item.label.toList := by
  match item with
  | .element head =>
    rw [label]
    cases head.kind <;> decide
  | .attribute a =>
    rw [label]
    cases a.isDynamic <;> decide
  | .text run =>
    rw [label]
    cases run.kind <;> decide

theorem newline_notMem_detail {item : Item} (hitem : item.SingleLine) : '\n' ∉ item.detail := by
  match item, hitem with
  | .element head, hname =>
    have hname : '\n' ∉ head.tagName := hname
    simpa [detail] using hname
  | .attribute a, ⟨hraw, hfield, hvalue⟩ =>
    by_cases hempty : a.field = []
    · simpa [detail, hempty] using hraw
    · simp [detail, hempty, hraw, hfield, hvalue]
  | .text run, hcontent =>
    have hcontent : '\n' ∉ run.content := hcontent
    simpa [detail] using hcontent

end Item

theorem Location.newline_notMem_outline (l : Location) : '\n' ∉ l.outline := by
  have hdigits (n : Nat) : '\n' ∉ Nat.toDigits 10 n := by
    intro hmem
    have hdigit := Nat.isDigit_of_mem_toDigits (by decide) (by decide) hmem
    revert hdigit
    decide
  simp [Location.outline, hdigits]

theorem Item.newline_notMem_caption {item : Item} (hitem : item.SingleLine) :
    '\n' ∉ item.caption := by
  have hlabel := item.newline_notMem_label
  have hlocation := item.location.newline_notMem_outline
  have hdetail := item.newline_notMem_detail hitem
  simp [Item.caption, hlabel, hlocation, hdetail]

/-! ### Depths -/

/-- An item and the number of elements around it, where an attribute stands inside of its element. -/
structure Placed where
  depth : Nat
  item : Item

def Head.placed (depth : Nat) (h : Head) : List Placed :=
  ⟨depth, .element h⟩ :: h.attributes.map fun a => ⟨depth + 1, .attribute a⟩

mutual

/-- All that stands in a tree in document order, the root at the given depth. -/
def Node.placed (depth : Nat) : Node → List Placed
  | .text run => [⟨depth, .text run⟩]
  | .element head children => head.placed depth ++ Node.placedList (depth + 1) children

def Node.placedList (depth : Nat) : List Node → List Placed
  | [] => []
  | node :: nodes => node.placed depth ++ Node.placedList depth nodes

end

/-- The line of an item in an outline that begins at a level. -/
def Placed.line (level : Nat) (p : Placed) : Text :=
  List.replicate (2 * (level + p.depth)) ' ' ++ p.item.caption

/-- A deeper level puts more spaces before the same line. -/
theorem Placed.line_add (level k : Nat) (p : Placed) :
    p.line (level + k) = List.replicate (2 * k) ' ' ++ p.line level := by
  have hspaces : 2 * (level + k + p.depth) = 2 * k + 2 * (level + p.depth) := by omega
  rw [Placed.line, Placed.line, hspaces, List.replicate_add, List.append_assoc]

theorem Placed.newline_notMem_line (level : Nat) {p : Placed} (hp : p.item.SingleLine) :
    '\n' ∉ p.line level := by
  have hcaption := Item.newline_notMem_caption hp
  simp [Placed.line, hcaption]

theorem Head.map_item_placed (depth : Nat) (h : Head) :
    (h.placed depth).map Placed.item = h.items := by
  simp [Head.placed, Head.items]

mutual

theorem Node.map_item_placed (depth : Nat) (node : Node) :
    (node.placed depth).map Placed.item = node.items := by
  cases node with
  | text run => rfl
  | element head children =>
    rw [Node.placed, Node.items, List.map_append, head.map_item_placed,
      Node.map_item_placedList (depth + 1) children]

theorem Node.map_item_placedList (depth : Nat) (nodes : List Node) :
    (Node.placedList depth nodes).map Placed.item = Node.itemsList nodes := by
  cases nodes with
  | nil => rfl
  | cons node nodes =>
    rw [Node.placedList, Node.itemsList, List.map_append, Node.map_item_placed depth node,
      Node.map_item_placedList depth nodes]

end

/-! ### The outline as its lines -/

theorem Head.outline_eq_line (level depth : Nat) (h : Head) :
    h.outline (level + depth) = (⟨depth, .element h⟩ : Placed).line level := by
  simp [Head.outline, Placed.line, indentation, Item.caption, Item.label, Item.location,
    Item.detail]

theorem Attribute.outline_eq_line (level depth : Nat) (a : Attribute) :
    a.outline (level + depth) = (⟨depth, .attribute a⟩ : Placed).line level := by
  simp [Attribute.outline, Placed.line, indentation, Item.caption, Item.label, Item.location,
    Item.detail]

theorem TextRun.outline_eq_line (level depth : Nat) (t : TextRun) :
    t.outline (level + depth) = (⟨depth, .text t⟩ : Placed).line level := by
  simp [TextRun.outline, Placed.line, indentation, Item.caption, Item.label, Item.location,
    Item.detail]

theorem Head.newline_outline (level depth : Nat) (h : Head) :
    '\n' :: (h.outline (level + depth) ++
        h.attributes.flatMap fun a => '\n' :: a.outline (level + depth + 1)) =
      (h.placed depth).flatMap fun p => '\n' :: p.line level := by
  simp only [Head.placed, List.flatMap_cons, List.flatMap_map, Head.outline_eq_line,
    Nat.add_assoc level, Attribute.outline_eq_line, List.cons_append]

mutual

/-- A node adds its lines to the outline, each after a line break, and leaves the rest to what
follows it. -/
theorem Node.newline_outlineOnto (level depth : Nat) (tail : Text) (node : Node) :
    '\n' :: node.outlineOnto (level + depth) tail =
      ((node.placed depth).flatMap fun p => '\n' :: p.line level) ++ tail := by
  cases node with
  | text run => simp [Node.outlineOnto, Node.placed, TextRun.outline_eq_line]
  | element head children =>
    rw [Node.outlineOnto, Nat.add_assoc, Node.outlinesOnto_eq level (depth + 1) tail children,
      Node.placed, List.flatMap_append, ← head.newline_outline, Nat.add_assoc, List.append_assoc,
      List.append_assoc, List.cons_append, List.append_assoc]

theorem Node.outlinesOnto_eq (level depth : Nat) (tail : Text) (nodes : List Node) :
    Node.outlinesOnto (level + depth) tail nodes =
      ((Node.placedList depth nodes).flatMap fun p => '\n' :: p.line level) ++ tail := by
  cases nodes with
  | nil => rfl
  | cons node nodes =>
    rw [Node.outlinesOnto, Node.newline_outlineOnto level depth _ node,
      Node.outlinesOnto_eq level depth tail nodes, Node.placedList, List.flatMap_append,
      List.append_assoc]

end

theorem Element.outline_eq_intercalate (level : Nat) (e : Element) :
    e.outline level = ['\n'].intercalate ((e.toNode.placed 0).map (Placed.line level)) := by
  -- every line stands after a break here, so that the first break is to be taken off
  have hlines := e.toNode.newline_outlineOnto level 0 []
  rw [Element.toNode, Node.placed, Head.placed, List.cons_append, List.flatMap_cons,
    List.append_nil, List.cons_append, List.cons.injEq] at hlines
  rw [Element.toNode, Node.placed, Head.placed, List.cons_append, List.map_cons, intercalate_cons,
    List.flatMap_map]
  exact hlines.2

theorem Element.splitOn_outline_eq {e : Element}
    (hitems : ∀ item ∈ e.toNode.items, item.SingleLine) (level : Nat) :
    (e.outline level).splitOn '\n' = (e.toNode.placed 0).map (Placed.line level) := by
  rw [e.outline_eq_intercalate]
  apply List.splitOn_intercalate
  · intro line hline
    obtain ⟨p, hp, rfl⟩ := List.mem_map.mp hline
    have hitem : p.item ∈ e.toNode.items := by
      rw [← e.toNode.map_item_placed 0]
      exact List.mem_map_of_mem hp
    exact Placed.newline_notMem_line level (hitems p.item hitem)
  · simp [Element.toNode, Node.placed, Head.placed]

/-- **An outline shows the structure of its tree.** If nothing in the tree holds a line break, the
lines of the outline are those of its items in document order, each behind two spaces for every
level and every element around the item. So an outline at a deeper level is the same outline with
more spaces before every line. -/
theorem splitOn_outline {e : Element} (hitems : ∀ item ∈ e.toNode.items, item.SingleLine)
    (level : Nat) :
    (e.toNode.placed 0).map Placed.item = e.toNode.items ∧
      (e.outline level).splitOn '\n' =
        (e.toNode.placed 0).map (fun p =>
          List.replicate (2 * (level + p.depth)) ' ' ++ p.item.caption) ∧
      ∀ k, e.outline (level + k) = ['\n'].intercalate
        (((e.outline level).splitOn '\n').map (List.replicate (2 * k) ' ' ++ ·)) := by
  have hsplit := e.splitOn_outline_eq hitems level
  refine ⟨e.toNode.map_item_placed 0, hsplit, ?_⟩
  intro k
  have hdeeper : (e.toNode.placed 0).map (Placed.line (level + k)) =
      ((e.toNode.placed 0).map (Placed.line level)).map (List.replicate (2 * k) ' ' ++ ·) := by
    rw [List.map_map]
    exact List.map_congr_left fun p _ => p.line_add level k
  rw [e.outline_eq_intercalate, hdeeper, hsplit]

/-- A list with a binding that was normalized, an item with an attribute and a text, and a text after
it, at the second level. -/
theorem splitOn_outline_list :
    let binding : Attribute :=
      { isDynamic := true, raw := ":a=b".toList, field := ['a'], value := "vm.b".toList
        location := { start := { offset := 4 }, stop := { offset := 8 } } }
    let item : Node :=
      .element { tagName := "li".toList, attributes := [{ raw := ['c'] }] }
        [.text { kind := .interpolation, content := ['d'] }]
    let e : Element :=
      { kind := .root, tagName := "ul".toList, attributes := [binding]
        children := [item, .text { content := "e f".toList }] }
    (∀ item ∈ e.toNode.items, item.SingleLine) ∧
      (e.outline 1).splitOn '\n' =
        ["  Root 0..0 <ul>", "    binding 4..8 \x60:a=b\x60 => a: vm.b", "    Element 0..0 <li>",
          "      attribute 0..0 \x60c\x60", "      Interpolation 0..0 \x60d\x60",
          "    PlainText 0..0 \x60e f\x60"].map String.toList ∧
      e.outline (1 + 2) = ['\n'].intercalate
        (((e.outline 1).splitOn '\n').map (List.replicate (2 * 2) ' ' ++ ·)) := by
  intro binding item e
  have hitems : ∀ item ∈ e.toNode.items, item.SingleLine := by decide
  obtain ⟨_, hsplit, hdeeper⟩ := splitOn_outline hitems 1
  refine ⟨hitems, hsplit.trans ?_, hdeeper 2⟩
  decide +kernel

end MarkupCompiler
