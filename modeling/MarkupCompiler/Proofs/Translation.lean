import MarkupCompiler.Proofs.Normalization
import MarkupCompiler.Proofs.Writing

/-!
# Templates as expressions

The code of a template can be read off the parsed tree at once: every element is a call, its
attributes are a record and its children an array. Normalizing the tree and then writing it piece by
piece comes to the same text (`generate_eq_translation`).
-/

namespace MarkupCompiler

open Text

/-! ### Expressions -/

def commaSeparated (parts : List Text) : Text :=
  [',', ' '].intercalate parts

def recordCode (pairs : List Text) : Text :=
  ['\x7b', ' '] ++ (commaSeparated pairs ++ [' ', '\x7d'])

def arrayCode (elements : List Text) : Text :=
  '[' :: (commaSeparated elements ++ [']'])

def callCode (helper : Text) (arguments : List Text) : Text :=
  helper ++ '(' :: (commaSeparated arguments ++ [')'])

/-- One argument made of the parts, or none without any. -/
def optionalArgument (write : List Text → Text) (parts : List Text) : List Text :=
  if parts.isEmpty then [] else [write parts]

/-- A binding is read from the view model, without its marker; any other value is quoted. -/
def Attribute.translation (t : Target) (a : Attribute) : Text :=
  if a.isDynamic then
    keyCode a.name.tail ++ [':', ' '] ++ (t.viewModel ++ '.' :: trim a.assigned)
  else
    keyCode a.name ++ [':', ' '] ++ quote a.assigned

def TextRun.translation (t : Target) (run : TextRun) : Text :=
  match run.kind with
  | .plain => quote run.content
  | .interpolation => t.viewModel ++ '.' :: run.content

mutual

/-- The expression of a node that is not normalized. -/
def Node.translation (t : Target) : Node → Text
  | .text run => run.translation t
  | .element head children =>
    callCode t.helper
      (quote head.tagName ::
        (optionalArgument recordCode (head.attributes.map (Attribute.translation t)) ++
          optionalArgument arrayCode (Node.translations t children)))

def Node.translations (t : Target) : List Node → List Text
  | [] => []
  | node :: nodes => node.translation t :: Node.translations t nodes

end

/-- A template without any element has no expression. -/
def Element.translation (t : Target) (root : Element) : Text :=
  if root.kind = .root ∧ root.tagName = [] then "null".toList else root.toNode.translation t

/-! ### The code of a node as an expression -/

theorem commaSeparated_cons (part : Text) (parts : List Text) :
    commaSeparated (part :: parts) = part ++ parts.flatMap ([',', ' '] ++ ·) :=
  intercalate_cons [',', ' '] part parts

theorem flatMap_optionalArgument (write : List Text → Text) (parts : List Text) :
    (optionalArgument write parts).flatMap ([',', ' '] ++ ·) =
      if parts.isEmpty then [] else [',', ' '] ++ write parts := by
  rw [optionalArgument]
  split <;> simp

theorem propertiesCode_eq (attributes : List Attribute) :
    propertiesCode attributes =
      (optionalArgument recordCode (attributes.map Attribute.code)).flatMap ([',', ' '] ++ ·) := by
  rw [flatMap_optionalArgument]
  cases attributes with
  | nil => rfl
  | cons a attributes =>
    simp [propertiesCode, recordCode, commaSeparated_cons, List.flatMap_map]

theorem Node.moreCode_eq (helper : Text) (nodes : List Node) :
    Node.moreCode helper nodes = (nodes.map (Node.code helper)).flatMap ([',', ' '] ++ ·) := by
  induction nodes with
  | nil =>
    rw [Node.moreCode]
    rfl
  | cons node nodes ih =>
    rw [Node.moreCode, ih, List.map_cons, List.flatMap_cons, List.append_assoc]

theorem Node.childrenCode_eq (helper : Text) (nodes : List Node) :
    Node.childrenCode helper nodes =
      (optionalArgument arrayCode (nodes.map (Node.code helper))).flatMap ([',', ' '] ++ ·) := by
  rw [flatMap_optionalArgument]
  cases nodes with
  | nil =>
    rw [Node.childrenCode]
    rfl
  | cons node nodes =>
    simp [Node.childrenCode, Node.moreCode_eq, arrayCode, commaSeparated_cons]

theorem Node.code_element (helper : Text) (head : Head) (children : List Node) :
    (Node.element head children).code helper =
      callCode helper
        (quote head.tagName ::
          (optionalArgument recordCode (head.attributes.map Attribute.code) ++
            optionalArgument arrayCode (children.map (Node.code helper)))) := by
  rw [Node.code, propertiesCode_eq, Node.childrenCode_eq, callCode, commaSeparated_cons,
    List.flatMap_append]
  simp

/-! ### The code of a normalized node -/

theorem Attribute.code_normalized (t : Target) (a : Attribute) :
    (a.normalized t.viewModel).code = a.translation t := by
  unfold Attribute.normalized Attribute.translation Attribute.code Attribute.valueCode
  split <;> simp_all [readFrom]

theorem TextRun.content_normalize (t : Target) (run : TextRun) :
    (run.normalize t.viewModel).content = run.translation t := by
  unfold TextRun.normalize TextRun.translation
  split <;> simp_all [readFrom]

mutual

theorem Node.code_normalized (t : Target) (node : Node) :
    (node.normalized t.viewModel).code t.helper = node.translation t := by
  cases node with
  | text run =>
    rw [Node.normalized, Node.code, Node.translation, run.content_normalize]
  | element head children =>
    have hattributes : (head.attributes.map (Attribute.normalized t.viewModel)).map Attribute.code =
        head.attributes.map (Attribute.translation t) := by
      rw [List.map_map]
      exact List.map_congr_left fun a _ => a.code_normalized t
    rw [Node.normalized, Node.code_element, hattributes, Node.codes_normalizedList t children,
      Node.translation]

theorem Node.codes_normalizedList (t : Target) (nodes : List Node) :
    (Node.normalizedList t.viewModel nodes).map (Node.code t.helper) =
      Node.translations t nodes := by
  cases nodes with
  | nil => rfl
  | cons node nodes =>
    rw [Node.normalizedList, List.map_cons, Node.code_normalized t node,
      Node.codes_normalizedList t nodes, Node.translations]

end

theorem moduleCode_normalized (t : Target) (root : Element) :
    moduleCode t (root.normalized t.viewModel) =
      "import \x7b ".toList ++ t.helper ++ " \x7d from ".toList ++ quote t.runtimeModule ++
        "\nexport function render() \x7b\n  const ".toList ++ t.viewModel ++
          " = this\n  return ".toList ++ root.translation t ++ "\n\x7d\n".toList := by
  have hempty : (root.normalized t.viewModel).isEmptyRoot = root.isEmptyRoot := rfl
  unfold moduleCode Element.translation
  rw [hempty, root.toNode_normalized, Node.code_normalized]
  simp only [Element.isEmptyRoot_iff, List.append_assoc]

theorem Node.renderable_normalized {node : Node} (hnode : node.Renderable)
    (hassigned : ∀ a ∈ node.attributes, '=' ∈ a.raw) (viewModel : Text) :
    (node.normalized viewModel).Renderable := by
  have hnormalize := hnode.normalize viewModel
  rwa [node.normalize_of_assigned viewModel hassigned] at hnormalize

/-- **Two passes are one.** When every element has a kind that can be rendered and every attribute
an equals sign, the tree is normalized, and the code of what that leaves is a module that returns
the expression of the tree as it was. Only a whole tree without any element is null: inside of a
tree an element without a name is a call like any other. -/
theorem generate_eq_translation (o : Options) {root : Element}
    (hkinds : ∀ head ∈ root.toNode.heads, head.kind = .root ∨ head.kind = .element)
    (hassigned : ∀ a ∈ root.toNode.attributes, '=' ∈ a.raw) :
    (normalize o root).2.outcome = .ok () ∧
      (generate o (normalize o root).1).outcome = .ok
        ("import \x7b ".toList ++ o.target.helper ++ " \x7d from ".toList ++
          quote o.target.runtimeModule ++ "\nexport function render() \x7b\n  const ".toList ++
            o.target.viewModel ++ " = this\n  return ".toList ++ root.translation o.target ++
              "\n\x7d\n".toList) := by
  have hroot : root.toNode.Renderable := by
    intro head hhead
    rcases hkinds head hhead with hkind | hkind <;> rw [hkind] <;> rfl
  have hnormalized : (root.normalized o.target.viewModel).toNode.Renderable := by
    rw [root.toNode_normalized]
    exact Node.renderable_normalized hroot hassigned _
  rw [normalize_of_assigned o hassigned, generate_of_renderable hnormalized, moduleCode_normalized]
  exact ⟨rfl, rfl⟩

/-- Quotes of both kinds, a second equals sign and an element of no name. -/
theorem generate_eq_translation_nested :
    let root : Element :=
      { kind := .root, tagName := "ul".toList
        attributes :=
          [{ raw := "data-a = \x22b'c\x22".toList },
            { isDynamic := true, raw := ":d=' e '".toList }]
        children :=
          [.text { content := "it's".toList },
            .element { attributes := [{ raw := "f='g=h\x22".toList }] }
              [.element { kind := .root } []],
            .text { kind := .interpolation, content := "i.j".toList }] }
    (normalize {} root).2.outcome = .ok () ∧
      (generate {} (normalize {} root).1).outcome = .ok
        ("import \x7b h \x7d from 'vue'\nexport function render() \x7b\n".toList ++
          "  const vm = this\n  return h('ul', \x7b 'data-a': 'b\\'c', d: vm.e \x7d, ".toList ++
            "['it\\'s', h('', \x7b f: '\\'g=h\x22' \x7d, [h('')]), vm.i.j])\n\x7d\n".toList) := by
  intro root
  obtain ⟨hnormalize, hgenerate⟩ :=
    @generate_eq_translation {} root (by decide +kernel) (by decide +kernel)
  refine ⟨hnormalize, hgenerate.trans (congrArg Except.ok ?_)⟩
  decide +kernel

end MarkupCompiler
