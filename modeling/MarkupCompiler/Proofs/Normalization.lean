import MarkupCompiler.Compile
import MarkupCompiler.Proofs.Document
import MarkupCompiler.Proofs.Lexemes

/-!
# Normalized trees

A tree whose attributes all have an equals sign is normalized from end to end: every attribute gets
its name and value, every text becomes an expression, and nothing else changes
(`Node.normalize_of_assigned`). `Node.normalized` says so without the pass that stops midway. Else
the pass stops at the first attribute in document order that has none (`Node.stop_normalize`). The
kinds of the elements stay as they are in any case.
-/

namespace MarkupCompiler

open Text Lexeme

/-- The text between two quotes of one kind, and any other text as it is. -/
def unquoted : Text → Text
  | [] => []
  | q :: tail => if isQuote q && tail.getLast? == some q then tail.dropLast else q :: tail

namespace Attribute

/-- What stands before the first equals sign. -/
def name (a : Attribute) : Text :=
  trim (a.raw.takeWhile (· != '='))

/-- What stands after the first equals sign, without quotes around it. -/
def assigned (a : Attribute) : Text :=
  unquoted (trim (a.raw.dropWhile (· != '=')).tail)

/-- A binding loses its marker, and its value is an expression of the view model. -/
def normalized (viewModel : Text) (a : Attribute) : Attribute :=
  if a.isDynamic then
    { a with field := a.name.tail, value := readFrom viewModel (trim a.assigned) }
  else
    { a with field := a.name, value := a.assigned }

end Attribute

mutual

def Node.normalized (viewModel : Text) : Node → Node
  | .text run => .text (run.normalize viewModel)
  | .element head children =>
    .element { head with attributes := head.attributes.map (Attribute.normalized viewModel) }
      (Node.normalizedList viewModel children)

def Node.normalizedList (viewModel : Text) : List Node → List Node
  | [] => []
  | node :: nodes => node.normalized viewModel :: Node.normalizedList viewModel nodes

end

/-! ### Attributes -/

theorem unquoted_quoted {q : Char} (hquote : isQuote q = true) (inner : Text) :
    unquoted (q :: (inner ++ [q])) = inner := by
  simp [unquoted, hquote]

theorem unquoted_eq_self {cs : Text}
    (hnot : ∀ q inner, isQuote q = true → cs ≠ q :: (inner ++ [q])) : unquoted cs = cs := by
  cases cs with
  | nil => rfl
  | cons q tail =>
    rw [unquoted, if_neg]
    rw [Bool.and_eq_true, beq_iff_eq]
    rintro ⟨hquote, hlast⟩
    obtain ⟨inner, rfl⟩ := List.getLast?_eq_some_iff.mp hlast
    exact hnot q inner hquote rfl

theorem stripQuotes_quoted {q : Char} (hquote : isQuote q = true) (inner : Text) :
    stripQuotes (q :: (inner ++ [q])) = .ok inner := by
  have hone := utf8Size_of_isQuote hquote
  have hfind : (['\x22', '\x27'].find? fun q' =>
      (q :: (inner ++ [q])).head? = some q' && (q :: (inner ++ [q])).getLast? = some q') =
        some q := by
    rw [← List.cons_append, List.getLast?_concat]
    simp only [isQuote, Bool.or_eq_true, beq_iff_eq] at hquote
    rcases hquote with rfl | rfl <;> rfl
  have hsize : byteSize (q :: (inner ++ [q])) = byteSize inner + 2 := by
    rw [byteSize_cons, byteSize_append, byteSize_cons, byteSize_nil, hone]
    omega
  have hfirst := cut_first q (inner ++ [q])
  rw [hone] at hfirst
  rw [stripQuotes, hfind]
  simp only [hsize, hfirst, Nat.add_sub_cancel, bind, Except.bind, cut_append]
  rw [if_neg (by omega)]
  rfl

theorem stripQuotes_eq_self {cs : Text}
    (hnot : ∀ q inner, isQuote q = true → cs ≠ q :: (inner ++ [q])) : stripQuotes cs = .ok cs := by
  unfold stripQuotes
  split
  · rfl
  · rename_i q hfind
    by_cases hsize : byteSize cs < 2
    · rw [if_pos hsize]
      rfl
    · have hquote : isQuote q = true := by
        have hmem := List.mem_of_find?_eq_some hfind
        rcases List.mem_cons.mp hmem with rfl | hmem
        · rfl
        · rw [List.mem_singleton.mp hmem]
          rfl
      have hends : cs.head? = some q ∧ cs.getLast? = some q := by
        simpa using List.find?_some hfind
      obtain ⟨tail, rfl⟩ := List.head?_eq_some_iff.mp hends.1
      -- two bytes are two quotes, so that the last one is not the first one
      have hne : tail ≠ [] := by
        rintro rfl
        simp [utf8Size_of_isQuote hquote] at hsize
      have hlast : tail.getLast? = some q := by
        rw [← hends.2, List.getLast?_cons_of_ne_nil hne]
      obtain ⟨inner, rfl⟩ := List.getLast?_eq_some_iff.mp hlast
      exact absurd rfl (hnot q inner hquote)

theorem stripQuotes_eq (cs : Text) : stripQuotes cs = .ok (unquoted cs) := by
  by_cases hquoted : ∃ q inner, isQuote q = true ∧ cs = q :: (inner ++ [q])
  · obtain ⟨q, inner, hquote, rfl⟩ := hquoted
    rw [stripQuotes_quoted hquote, unquoted_quoted hquote]
  · have hnot : ∀ q inner, isQuote q = true → cs ≠ q :: (inner ++ [q]) :=
      fun q inner hquote heq => hquoted ⟨q, inner, hquote, heq⟩
    rw [stripQuotes_eq_self hnot, unquoted_eq_self hnot]

theorem dropMarker_eq (cs : Text) : dropMarker cs = .ok cs.tail := by
  cases cs with
  | nil => rfl
  | cons c cs =>
    rw [dropMarker, cut_first]
    rfl

theorem Text.splitOnce?_eq_none_iff {separator : Char} {cs : Text} :
    splitOnce? separator cs = none ↔ separator ∉ cs := by
  have hdrop : splitOnce? separator cs = none ↔ cs.dropWhile (· != separator) = [] := by
    unfold splitOnce?
    split <;> simp_all
  rw [hdrop, List.dropWhile_eq_nil_iff]
  simp only [bne_iff_ne, ne_eq]
  constructor
  · intro hne hmem
    exact hne separator hmem rfl
  · intro hnot c hc heq
    exact hnot (heq ▸ hc)

theorem Text.splitOnce?_of_mem {separator : Char} {cs : Text} (hmem : separator ∈ cs) :
    splitOnce? separator cs =
      some (cs.takeWhile (· != separator), (cs.dropWhile (· != separator)).tail) := by
  have hne : splitOnce? separator cs ≠ none := fun hnone => splitOnce?_eq_none_iff.mp hnone hmem
  unfold splitOnce? at hne ⊢
  split at hne
  · exact absurd rfl hne
  · rename_i heq
    rw [heq]
    rfl

theorem Attribute.normalize_of_mem (viewModel : Text) {a : Attribute} (hraw : '=' ∈ a.raw) :
    a.normalize viewModel = .ok (a.normalized viewModel) := by
  rw [Attribute.normalize, splitOnce?_of_mem hraw]
  simp only [stripQuotes_eq, dropMarker_eq, orFault, Attribute.normalized]
  cases a.isDynamic <;> rfl

theorem Attribute.normalize_of_notMem (viewModel : Text) {a : Attribute} (hraw : '=' ∉ a.raw) :
    a.normalize viewModel = .error (.problem a.missingValue) := by
  rw [Attribute.normalize, splitOnce?_eq_none_iff.mpr hraw]
  rfl

/-! ### Trees -/

theorem normalizeAttributes_of_assigned (viewModel : Text) {attributes : List Attribute}
    (hassigned : ∀ a ∈ attributes, '=' ∈ a.raw) :
    normalizeAttributes viewModel attributes =
      { part := attributes.map (Attribute.normalized viewModel) } := by
  induction attributes with
  | nil => rfl
  | cons a attributes ih =>
    rw [List.forall_mem_cons] at hassigned
    rw [normalizeAttributes, a.normalize_of_mem viewModel hassigned.1, ih hassigned.2]
    rfl

mutual

theorem Node.normalize_of_assigned (viewModel : Text) (node : Node)
    (hassigned : ∀ a ∈ node.attributes, '=' ∈ a.raw) :
    node.normalize viewModel =
      { part := node.normalized viewModel, counted := node.attributes.length } := by
  cases node with
  | text run => rfl
  | element head children =>
    rw [Node.attributes, Node.heads, List.flatMap_cons, List.forall_mem_append] at hassigned
    rw [Node.normalize, normalizeAttributes_of_assigned viewModel hassigned.1,
      Node.normalizeList_of_assigned viewModel children hassigned.2]
    simp only [Node.normalized, Node.attributes, Node.heads, List.flatMap_cons, List.length_append]

theorem Node.normalizeList_of_assigned (viewModel : Text) (nodes : List Node)
    (hassigned : ∀ a ∈ (Node.headsList nodes).flatMap Head.attributes, '=' ∈ a.raw) :
    Node.normalizeList viewModel nodes =
      { part := Node.normalizedList viewModel nodes
        counted := ((Node.headsList nodes).flatMap Head.attributes).length } := by
  cases nodes with
  | nil => rfl
  | cons node nodes =>
    rw [Node.headsList, List.flatMap_append, List.forall_mem_append] at hassigned
    rw [Node.normalizeList, Node.normalize_of_assigned viewModel node hassigned.1,
      Node.normalizeList_of_assigned viewModel nodes hassigned.2]
    simp only [Node.normalizedList, Node.headsList, List.flatMap_append, List.length_append,
      Node.attributes]

end

def Element.normalized (viewModel : Text) (e : Element) : Element :=
  { e with
    attributes := e.attributes.map (Attribute.normalized viewModel)
    children := Node.normalizedList viewModel e.children }

theorem Element.toNode_normalized (viewModel : Text) (e : Element) :
    (e.normalized viewModel).toNode = e.toNode.normalized viewModel := by
  rw [Element.toNode, Element.toNode, Node.normalized]
  rfl

theorem Element.normalize_of_assigned (viewModel : Text) {e : Element}
    (hassigned : ∀ a ∈ e.toNode.attributes, '=' ∈ a.raw) :
    e.normalize viewModel =
      { part := e.normalized viewModel, counted := e.toNode.attributes.length } := by
  rw [Element.toNode, Node.attributes, Node.heads, List.flatMap_cons, List.forall_mem_append]
    at hassigned
  simp only [Element.normalize, normalizeAttributes_of_assigned viewModel hassigned.1,
    Node.normalizeList_of_assigned viewModel e.children hassigned.2, Element.normalized,
    Element.toNode, Node.attributes, Node.heads, List.flatMap_cons, List.length_append]

/-! ### Where normalization stops -/

theorem stop_normalizeAttributes (viewModel : Text) (attributes : List Attribute) :
    (normalizeAttributes viewModel attributes).stop =
      (attributes.find? fun a => '=' ∉ a.raw).map fun a => .problem a.missingValue := by
  induction attributes with
  | nil => rfl
  | cons a attributes ih =>
    by_cases hraw : '=' ∈ a.raw
    · rw [normalizeAttributes, a.normalize_of_mem viewModel hraw,
        List.find?_cons_of_neg (by simpa using hraw)]
      exact ih
    · rw [normalizeAttributes, a.normalize_of_notMem viewModel hraw,
        List.find?_cons_of_pos (by simpa using hraw)]
      rfl

mutual

theorem Node.stop_normalize (viewModel : Text) (node : Node) :
    (node.normalize viewModel).stop =
      (node.attributes.find? fun a => '=' ∉ a.raw).map fun a => .problem a.missingValue := by
  cases node with
  | text run => rfl
  | element head children =>
    have hown := stop_normalizeAttributes viewModel head.attributes
    have hinner := Node.stop_normalizeList viewModel children
    rw [Node.attributes, Node.heads, List.flatMap_cons, List.find?_append, Node.normalize]
    cases hfind : head.attributes.find? fun a => '=' ∉ a.raw with
    | none =>
      rw [hfind] at hown
      rw [hown]
      exact hinner
    | some a =>
      rw [hfind] at hown
      rw [hown]
      rfl

theorem Node.stop_normalizeList (viewModel : Text) (nodes : List Node) :
    (Node.normalizeList viewModel nodes).stop =
      (((Node.headsList nodes).flatMap Head.attributes).find? fun a => '=' ∉ a.raw).map fun a =>
        .problem a.missingValue := by
  cases nodes with
  | nil => rfl
  | cons node nodes =>
    have hfirst := Node.stop_normalize viewModel node
    have hlater := Node.stop_normalizeList viewModel nodes
    rw [Node.attributes] at hfirst
    rw [Node.headsList, List.flatMap_append, List.find?_append, Node.normalizeList]
    cases hfind : (node.heads.flatMap Head.attributes).find? fun a => '=' ∉ a.raw with
    | none =>
      rw [hfind] at hfirst
      rw [hfirst]
      exact hlater
    | some a =>
      rw [hfind] at hfirst
      rw [hfirst]
      rfl

end

/-! ### What normalization keeps -/

mutual

theorem Node.kinds_normalize (viewModel : Text) (node : Node) :
    (node.normalize viewModel).part.heads.map Head.kind = node.heads.map Head.kind := by
  cases node with
  | text run => rfl
  | element head children =>
    have hinner := Node.kinds_normalizeList viewModel children
    rw [Node.normalize]
    split
    · rfl
    · simp only [Node.heads, List.map_cons, hinner]

theorem Node.kinds_normalizeList (viewModel : Text) (nodes : List Node) :
    (Node.headsList (Node.normalizeList viewModel nodes).part).map Head.kind =
      (Node.headsList nodes).map Head.kind := by
  cases nodes with
  | nil => rfl
  | cons node nodes =>
    have hfirst := Node.kinds_normalize viewModel node
    have hlater := Node.kinds_normalizeList viewModel nodes
    rw [Node.normalizeList]
    split
    · simp only [Node.headsList, List.map_append, hfirst]
    · simp only [Node.headsList, List.map_append, hfirst, hlater]

end

theorem Node.Renderable.normalize {node : Node} (hnode : node.Renderable) (viewModel : Text) :
    (node.normalize viewModel).part.Renderable := by
  intro head hhead
  have hkind : head.kind ∈ node.heads.map Head.kind := by
    rw [← Node.kinds_normalize viewModel node]
    exact List.mem_map_of_mem hhead
  obtain ⟨same, hsame, heq⟩ := List.mem_map.mp hkind
  rw [← heq]
  exact hnode same hsame

/-- The root of a tree is normalized like any other element. -/
theorem Element.normalize_toNode (viewModel : Text) (e : Element) :
    (e.normalize viewModel).part.toNode = (e.toNode.normalize viewModel).part ∧
      (e.normalize viewModel).stop = (e.toNode.normalize viewModel).stop := by
  have hnode : e.toNode = .element e.toHead e.children := rfl
  rw [hnode, Element.normalize, Node.normalize]
  cases (normalizeAttributes viewModel e.attributes).stop <;> exact ⟨rfl, rfl⟩

/-! ### The stage -/

/-- A tree whose attributes all have an equals sign is normalized from end to end. -/
theorem normalize_of_assigned (o : Options) {root : Element}
    (hassigned : ∀ a ∈ root.toNode.attributes, '=' ∈ a.raw) :
    normalize o root = (root.normalized o.target.viewModel,
      Traced.emit (.normalized root.toNode.attributes.length)) := by
  simp only [normalize, Normalizer.run, root.normalize_of_assigned _ hassigned, Nat.zero_add]

theorem normalize_outcome (o : Options) (root : Element) :
    (normalize o root).2.outcome =
      match root.toNode.attributes.find? fun a => '=' ∉ a.raw with
      | some a => .error (.problem a.missingValue)
      | none => .ok () := by
  obtain ⟨_, hstop⟩ := root.normalize_toNode o.target.viewModel
  rw [Node.stop_normalize] at hstop
  simp only [normalize, Normalizer.run, hstop]
  cases root.toNode.attributes.find? fun a => '=' ∉ a.raw <;> rfl

theorem normalize_fst (o : Options) (root : Element) :
    (normalize o root).1 = (root.normalize o.target.viewModel).part := by
  simp only [normalize, Normalizer.run]
  split <;> rfl

theorem renderable_normalize {root : Element} (hroot : root.toNode.Renderable) (o : Options) :
    (normalize o root).1.toNode.Renderable := by
  rw [normalize_fst, (root.normalize_toNode _).1]
  exact hroot.normalize _

end MarkupCompiler
