import MarkupCompiler.Proofs.Skeleton
import MarkupCompiler.Proofs.Writing

/-!
# Generated calls are unambiguous

Whatever quotes, brackets or line breaks stand in tag names, fields, values and texts, the generated
call is read back as the skeleton of the tree. So two trees with one code have one skeleton
(`ofCode?_generateCall`).
-/

namespace MarkupCompiler

open Text Skeleton

/-- An expression that reads a path from the view model. -/
def ReadsPath (viewModel expression : Text) : Prop :=
  ∃ path, (∀ c ∈ path, isPathChar c = true) ∧ expression = readFrom viewModel path

/-- Plain text is a literal, and an interpolation reads a path. -/
def TextRun.IsReadable (viewModel : Text) (t : TextRun) : Prop :=
  match t.kind with
  | .plain => ∃ content, t.content = quote content
  | .interpolation => ReadsPath viewModel t.content

def Head.IsReadable (viewModel : Text) (h : Head) : Prop :=
  h.kind.isRenderable = true ∧ ∀ a ∈ h.attributes, a.isDynamic = true → ReadsPath viewModel a.value

/-- A tree that can be rendered, with literals for its texts and paths for its expressions. -/
inductive Node.IsReadable (viewModel : Text) : Node → Prop
  | text {run : TextRun} (hrun : run.IsReadable viewModel) : Node.IsReadable viewModel (.text run)
  | element {head : Head} {children : List Node} (hhead : head.IsReadable viewModel)
      (hchildren : ∀ node ∈ children, Node.IsReadable viewModel node) :
      Node.IsReadable viewModel (.element head children)

def Attribute.property (a : Attribute) : Property where
  field := a.field
  isDynamic := a.isDynamic
  value := a.value

/-- The skeleton of a tree, with the texts that its literals stand for. -/
inductive Node.Spells : Node → Skeleton → Prop
  | text {run : TextRun} {content : Text} (hkind : run.kind = .plain)
      (hcontent : run.content = quote content) : Node.Spells (.text run) (.text content)
  | expression {run : TextRun} (hkind : run.kind = .interpolation) :
      Node.Spells (.text run) (.expression run.content)
  | element {head : Head} {children : List Node} {skeletons : List Skeleton}
      (hchildren : List.Forall₂ Node.Spells children skeletons) :
      Node.Spells (.element head children)
        (.call head.tagName (head.attributes.map Attribute.property) skeletons)

variable {viewModel helper : Text}

/-! ### Readable trees -/

theorem exists_forall₂_spells {nodes : List Node}
    (hnodes : ∀ node ∈ nodes, ∃ skeleton, node.Spells skeleton) :
    ∃ skeletons, List.Forall₂ Node.Spells nodes skeletons := by
  induction nodes with
  | nil => exact ⟨[], .nil⟩
  | cons node nodes ih =>
    rw [List.forall_mem_cons] at hnodes
    obtain ⟨skeleton, hskeleton⟩ := hnodes.1
    obtain ⟨skeletons, hskeletons⟩ := ih hnodes.2
    exact ⟨skeleton :: skeletons, .cons hskeleton hskeletons⟩

theorem Node.IsReadable.exists_spells {node : Node} (hnode : node.IsReadable viewModel) :
    ∃ skeleton, node.Spells skeleton := by
  induction hnode with
  | @text run hrun =>
    cases hkind : run.kind with
    | plain =>
      rw [TextRun.IsReadable, hkind] at hrun
      obtain ⟨content, hcontent⟩ := hrun
      exact ⟨_, .text hkind hcontent⟩
    | interpolation => exact ⟨_, .expression hkind⟩
  | element _ _ ih =>
    obtain ⟨skeletons, hchildren⟩ := exists_forall₂_spells ih
    exact ⟨_, .element hchildren⟩

theorem renderable_headsList {nodes : List Node} (hnodes : ∀ node ∈ nodes, node.Renderable) :
    ∀ head ∈ Node.headsList nodes, head.kind.isRenderable = true := by
  induction nodes with
  | nil => simp [Node.headsList]
  | cons node nodes ih =>
    rw [List.forall_mem_cons] at hnodes
    rw [Node.headsList, List.forall_mem_append]
    exact ⟨hnodes.1, ih hnodes.2⟩

theorem Node.IsReadable.renderable {node : Node} (hnode : node.IsReadable viewModel) :
    node.Renderable := by
  induction hnode with
  | text => simp [Node.Renderable, Node.heads]
  | element hhead _ ih => exact Node.renderable_element.mpr ⟨hhead.1, renderable_headsList ih⟩

/-! ### Names and properties -/

theorem isWord_of_isSimpleIdentifier {name : Text} (hname : isSimpleIdentifier name = true) :
    IsWord name := by
  cases name with
  | nil => cases hname
  | cons c name =>
    simp only [isSimpleIdentifier, Bool.and_eq_true, List.all_eq_true] at hname
    refine ⟨by simp, ?_⟩
    intro d hd
    rw [isPathChar, hname.1 d hd, Bool.or_true]

theorem ReadsPath.isWord {expression : Text} (hviewModel : isSimpleIdentifier viewModel = true)
    (hexpression : ReadsPath viewModel expression) : IsWord expression := by
  obtain ⟨path, hpath, rfl⟩ := hexpression
  refine ⟨by simp [readFrom], ?_⟩
  rw [readFrom, List.forall_mem_append, List.forall_mem_cons]
  exact ⟨(isWord_of_isSimpleIdentifier hviewModel).2, rfl, hpath⟩

theorem gives_key (field rest : Text) :
    ∃ atom : Atom, atom.content = field ∧
      Gives atom? (keyCode field ++ (':' :: rest)) atom (':' :: rest) := by
  unfold keyCode
  split_ifs with hsimple
  · have hword := isWord_of_isSimpleIdentifier hsimple
    exact ⟨.word field, rfl, gives_atom_word hword (stops_cons.mpr rfl)⟩
  · exact ⟨.literal field, rfl, gives_atom_literal field _⟩

theorem gives_value (hviewModel : isSimpleIdentifier viewModel = true) {a : Attribute}
    (ha : a.isDynamic = true → ReadsPath viewModel a.value) {rest : Text}
    (hrest : Stops isPathChar rest) :
    ∃ atom : Atom, atom.content = a.value ∧ atom.isWord = a.isDynamic ∧
      Gives atom? (a.valueCode ++ rest) atom rest := by
  unfold Attribute.valueCode
  split_ifs with hdynamic
  · have hword := (ha hdynamic).isWord hviewModel
    exact ⟨.word a.value, rfl, hdynamic.symm, gives_atom_word hword hrest⟩
  · rw [Bool.not_eq_true] at hdynamic
    exact ⟨.literal a.value, rfl, hdynamic.symm, gives_atom_literal a.value rest⟩

/-- A property is read back, if its value ends where the name of a path ends. -/
theorem Attribute.gives_code (hviewModel : isSimpleIdentifier viewModel = true) {a : Attribute}
    (ha : a.isDynamic = true → ReadsPath viewModel a.value) {rest : Text}
    (hrest : Stops isPathChar rest) : Gives property? (a.code ++ rest) a.property rest := by
  obtain ⟨key, hfield, hkey⟩ := gives_key a.field (' ' :: (a.valueCode ++ rest))
  obtain ⟨value, hcontent, hword, hvalue⟩ := gives_value hviewModel ha hrest
  have hread := gives_property hkey (gives_mark ':' [' '] _) hvalue
  rw [hfield, hcontent, hword] at hread
  rw [Attribute.code, List.append_assoc]
  exact hread

theorem stops_moreProperties (attributes : List Attribute) (rest : Text) :
    Stops isPathChar (attributes.flatMap (fun a => ',' :: ' ' :: a.code) ++ (' ' :: rest)) := by
  cases attributes with
  | nil | cons => exact stops_cons.mpr rfl

theorem gives_moreProperties (hviewModel : isSimpleIdentifier viewModel = true)
    {attributes : List Attribute}
    (hattributes : ∀ a ∈ attributes, a.isDynamic = true → ReadsPath viewModel a.value)
    (rest : Text) :
    Gives moreProperties?
      (attributes.flatMap (fun a => ',' :: ' ' :: a.code) ++ (' ' :: '\x7d' :: rest))
      (attributes.map Attribute.property) rest := by
  induction attributes with
  | nil =>
    exact gives_moreProperties_nil (mark?_eq_none (by simp)) (gives_mark ' ' ['\x7d'] rest)
  | cons a attributes ih =>
    rw [List.forall_mem_cons] at hattributes
    have hstops := stops_moreProperties attributes ('\x7d' :: rest)
    have hfirst := a.gives_code hviewModel hattributes.1 hstops
    rw [List.flatMap_cons, List.append_assoc]
    exact gives_moreProperties_cons (gives_mark ',' [' '] _) hfirst (ih hattributes.2)

theorem gives_propertiesCode (hviewModel : isSimpleIdentifier viewModel = true) {a : Attribute}
    {attributes : List Attribute}
    (hattributes : ∀ b ∈ a :: attributes, b.isDynamic = true → ReadsPath viewModel b.value)
    (rest : Text) :
    Gives properties? (propertiesCode (a :: attributes) ++ rest)
      ((a :: attributes).map Attribute.property) rest := by
  rw [List.forall_mem_cons] at hattributes
  have hstops := stops_moreProperties attributes ('\x7d' :: rest)
  have hfirst := a.gives_code hviewModel hattributes.1 hstops
  have hmore := gives_moreProperties hviewModel hattributes.2 rest
  have hall := gives_properties (gives_mark ',' [' ', '\x7b', ' '] _) hfirst hmore
  rw [propertiesCode]
  simpa using hall

/-! ### Calls -/

/-- What follows a child of a call. -/
def EndsNode (rest : Text) : Prop :=
  ∀ c ∈ rest.head?, c = ',' ∨ c = ']'

theorem EndsNode.stops {rest : Text} (hrest : EndsNode rest) : Stops isPathChar rest := by
  intro c hc
  rcases hrest c hc with rfl | rfl <;> rfl

theorem EndsNode.mark?_eq_none {rest : Text} (hrest : EndsNode rest) :
    mark? '(' [] rest = none := by
  apply Skeleton.mark?_eq_none
  rintro ⟨tail, rfl⟩
  rcases hrest '(' rfl with heq | heq <;> cases heq

/-- The code of a node is read back as any skeleton that the node has. -/
def Node.ReadsBack (helper : Text) (node : Node) : Prop :=
  ∀ skeleton, node.Spells skeleton → ∀ rest, EndsNode rest →
    Gives node? (node.code helper ++ rest) skeleton rest

theorem endsNode_moreCode (helper : Text) (nodes : List Node) (rest : Text) :
    EndsNode (Node.moreCode helper nodes ++ ']' :: rest) := by
  cases nodes with
  | nil =>
    rw [Node.moreCode]
    rintro c ⟨⟩
    exact .inr rfl
  | cons node nodes =>
    rw [Node.moreCode]
    rintro c ⟨⟩
    exact .inl rfl

theorem gives_moreCode {nodes : List Node} {skeletons : List Skeleton}
    (hspells : List.Forall₂ Node.Spells nodes skeletons)
    (hnodes : ∀ node ∈ nodes, node.ReadsBack helper) (rest : Text) :
    Gives more? (Node.moreCode helper nodes ++ ']' :: rest) skeletons rest := by
  induction hspells with
  | nil =>
    rw [Node.moreCode]
    exact gives_more_nil (mark?_eq_none (by simp)) (gives_mark ']' [] rest)
  | @cons node skeleton nodes skeletons hnode _ ih =>
    rw [List.forall_mem_cons] at hnodes
    have hfirst := hnodes.1 skeleton hnode _ (endsNode_moreCode helper nodes rest)
    rw [Node.moreCode, List.append_assoc, List.append_assoc]
    exact gives_more_cons (gives_mark ',' [' '] _) hfirst (ih hnodes.2)

theorem gives_childrenCode {nodes : List Node} {skeletons : List Skeleton}
    (hspells : List.Forall₂ Node.Spells nodes skeletons)
    (hnodes : ∀ node ∈ nodes, node.ReadsBack helper) (rest : Text) :
    Gives children? (Node.childrenCode helper nodes ++ ')' :: rest) skeletons rest := by
  cases hspells with
  | nil =>
    rw [Node.childrenCode]
    exact gives_children_nil (mark?_eq_none (by simp)) (gives_mark ')' [] rest)
  | @cons node skeleton nodes skeletons hnode hlater =>
    rw [List.forall_mem_cons] at hnodes
    have hfirst := hnodes.1 skeleton hnode _ (endsNode_moreCode helper nodes (')' :: rest))
    have hmore := gives_moreCode hlater hnodes.2 (')' :: rest)
    have hall := gives_children_cons (gives_mark ',' [' ', '['] _) hfirst hmore
      (gives_mark ')' [] rest)
    rw [Node.childrenCode]
    simpa using hall

theorem properties?_childrenCode (helper : Text) (nodes : List Node) (rest : Text) :
    properties? (Node.childrenCode helper nodes ++ ')' :: rest) = none := by
  apply properties?_eq_none
  apply mark?_eq_none
  cases nodes with
  | nil => simp [Node.childrenCode]
  | cons node nodes => simp [Node.childrenCode]

theorem Node.IsReadable.readsBack (hhelper : isSimpleIdentifier helper = true)
    (hviewModel : isSimpleIdentifier viewModel = true) {node : Node}
    (hnode : node.IsReadable viewModel) : node.ReadsBack helper := by
  induction hnode with
  | @text run hrun =>
    intro skeleton hspells rest hrest
    rw [Node.code]
    cases hspells with
    | text _ hcontent =>
      rw [hcontent]
      exact gives_text (gives_atom_literal _ rest)
    | expression hkind =>
      rw [TextRun.IsReadable, hkind] at hrun
      have hatom := gives_atom_word (hrun.isWord hviewModel) hrest.stops
      exact gives_expression hatom hrest.mark?_eq_none
  | @element head children hhead _ ih =>
    intro skeleton hspells rest hrest
    cases hspells with
    | element hchildren =>
      have hlist := gives_childrenCode hchildren ih rest
      have hcallee (more : Text) : Gives atom? (helper ++ '(' :: more) (.word helper) ('(' :: more) :=
        gives_atom_word (isWord_of_isSimpleIdentifier hhelper) (stops_cons.mpr rfl)
      obtain ⟨kind, tagName, attributes, location⟩ := head
      rw [Node.code]
      simp only [List.append_assoc, List.cons_append, List.nil_append]
      -- without attributes the properties are left out, and the children follow the tag name
      cases attributes with
      | nil =>
        exact gives_call_bare (hcallee _) (gives_mark '(' [] _) (gives_literal tagName _)
          (properties?_childrenCode helper children rest) hlist
      | cons a attributes =>
        exact gives_call (hcallee _) (gives_mark '(' [] _) (gives_literal tagName _)
          (gives_propertiesCode hviewModel hhead.2 _) hlist

theorem ofCode?_code {t : Target} (hhelper : isSimpleIdentifier t.helper = true)
    (hviewModel : isSimpleIdentifier t.viewModel = true) {node : Node} {skeleton : Skeleton}
    (hnode : node.IsReadable t.viewModel) (hspells : node.Spells skeleton) :
    ofCode? (node.code t.helper) = some skeleton := by
  have hend : EndsNode [] := by
    rintro c ⟨⟩
  have hread := hnode.readsBack hhelper hviewModel skeleton hspells [] hend
  rw [List.append_nil] at hread
  exact ofCode?_of_gives hread

/-- A readable tree has one skeleton, the one that its code is read back as. -/
theorem exists_spells_iff {t : Target} (hhelper : isSimpleIdentifier t.helper = true)
    (hviewModel : isSimpleIdentifier t.viewModel = true) {node : Node}
    (hnode : node.IsReadable t.viewModel) :
    ∃ skeleton, ofCode? (node.code t.helper) = some skeleton ∧
      ∀ k, node.Spells k ↔ k = skeleton := by
  obtain ⟨skeleton, hspells⟩ := hnode.exists_spells
  have hread := ofCode?_code hhelper hviewModel hnode hspells
  refine ⟨skeleton, hread, ?_⟩
  intro k
  constructor
  · intro hk
    rw [ofCode?_code hhelper hviewModel hnode hk] at hread
    exact Option.some.inj hread
  · rintro rfl
    exact hspells

/-- **Generated calls are unambiguous.** One reader gives back the skeleton of every readable tree
from its code, so that trees with the same code have the same skeleton. -/
theorem ofCode?_generateCall {t : Target} (hhelper : isSimpleIdentifier t.helper = true)
    (hviewModel : isSimpleIdentifier t.viewModel = true) {e : Element}
    (he : e.toNode.IsReadable t.viewModel) (w : Writer) :
    (∃ code skeleton, (w.generateCall t e).1 = .ok code ∧ ofCode? code = some skeleton ∧
        ∀ k, e.toNode.Spells k ↔ k = skeleton) ∧
      ∀ (e' : Element) (w' : Writer), e'.toNode.IsReadable t.viewModel →
        (w'.generateCall t e').1 = (w.generateCall t e).1 →
        ∀ k, e'.toNode.Spells k ↔ e.toNode.Spells k := by
  have hcode := generateCall_of_renderable he.renderable t w
  obtain ⟨skeleton, hread, hspells⟩ := exists_spells_iff hhelper hviewModel he
  refine ⟨⟨_, skeleton, hcode, hread, hspells⟩, ?_⟩
  intro e' w' he' hsame k
  obtain ⟨skeleton', hread', hspells'⟩ := exists_spells_iff hhelper hviewModel he'
  rw [hcode, generateCall_of_renderable he'.renderable t w', Except.ok.injEq] at hsame
  rw [hsame, hread, Option.some.injEq] at hread'
  rw [hspells, hspells', hread']

/-- Every text tries to leave the place that it stands in. -/
theorem ofCode?_generateCall_hostile :
    let e : Element :=
      { kind := .root
        tagName := "a'), h('b".toList
        attributes :=
          [{ field := "x: 1, y".toList, value := "\\'\n\u2028] \x7d".toList },
            { field := "z".toList, isDynamic := true, value := "vm.p.$q".toList }]
        children :=
          [.text { content := quote "', [h('".toList },
            .text { kind := .interpolation, content := "vm.".toList },
            .element { tagName := [] } []] }
    let skeleton : Skeleton :=
      .call "a'), h('b".toList
        [{ field := "x: 1, y".toList, isDynamic := false, value := "\\'\n\u2028] \x7d".toList },
          { field := "z".toList, isDynamic := true, value := "vm.p.$q".toList }]
        [.text "', [h('".toList, .expression "vm.".toList, .call [] [] []]
    isSimpleIdentifier ['h'] = true ∧ isSimpleIdentifier ['v', 'm'] = true ∧
      e.toNode.IsReadable ['v', 'm'] ∧
      ∃ code, (({} : Writer).generateCall {} e).1 = .ok code ∧ ofCode? code = some skeleton := by
  intro e skeleton
  have hpath : ReadsPath ['v', 'm'] "vm.p.$q".toList :=
    ⟨"p.$q".toList, List.all_eq_true.mp rfl, rfl⟩
  have hempty : ReadsPath ['v', 'm'] "vm.".toList := ⟨[], List.forall_mem_nil _, rfl⟩
  have he : e.toNode.IsReadable ['v', 'm'] := by
    refine .element ⟨rfl, ?_⟩ ?_
    · refine List.forall_mem_cons.mpr ⟨?_, List.forall_mem_singleton.mpr fun _ => hpath⟩
      rintro ⟨⟩
    · refine List.forall_mem_cons.mpr ⟨.text ⟨_, rfl⟩, List.forall_mem_cons.mpr ⟨.text hempty, ?_⟩⟩
      exact List.forall_mem_singleton.mpr (.element ⟨rfl, List.forall_mem_nil _⟩
        (List.forall_mem_nil _))
  have hspells : e.toNode.Spells skeleton :=
    .element (.cons (.text rfl rfl) (.cons (.expression rfl) (.cons (.element .nil) .nil)))
  have hhelper : isSimpleIdentifier ['h'] = true := by decide
  have hviewModel : isSimpleIdentifier ['v', 'm'] = true := by decide
  obtain ⟨⟨code, k, hcode, hread, honly⟩, _⟩ :=
    ofCode?_generateCall (t := {}) hhelper hviewModel he {}
  rw [← (honly skeleton).mp hspells] at hread
  exact ⟨hhelper, hviewModel, he, code, hcode, hread⟩

end MarkupCompiler
