import MarkupCompiler.Proofs.Normalization

/-!
# How far a normalization gets

A pass stops at the first attribute without a value, at whatever depth that stands, and nothing is
undone. What it leaves is the tree with the entries before that attribute normalized, and that
attribute and all the entries after it as they were (`Normalizer.entries_run`). Between the two
there is no difference in shape, kinds, names, raw texts, flags or locations.
-/

namespace MarkupCompiler

open Text

/-- What a pass writes to. -/
inductive Entry where
  | attribute (a : Attribute)
  | text (run : TextRun)
  deriving DecidableEq

def Entry.IsAssigned : Entry → Prop
  | .attribute a => '=' ∈ a.raw
  | .text _ => True

def Entry.normalized (viewModel : Text) : Entry → Entry
  | .attribute a => .attribute (a.normalized viewModel)
  | .text run => .text (run.normalize viewModel)

mutual

/-- The attributes of an element, and then the entries of its children. -/
def Node.entries : Node → List Entry
  | .text run => [.text run]
  | .element head children => head.attributes.map .attribute ++ Node.entriesList children

def Node.entriesList : List Node → List Entry
  | [] => []
  | node :: nodes => node.entries ++ Node.entriesList nodes

end

/-- What becomes of entries in a pass, and whether it stops among them. -/
inductive Settles (viewModel : Text) : List Entry → List Entry → Option Stop → Prop
  | finished {entries : List Entry} (hassigned : ∀ entry ∈ entries, entry.IsAssigned) :
      Settles viewModel entries (entries.map (Entry.normalized viewModel)) none
  | stopped {front back : List Entry} {a : Attribute}
      (hfront : ∀ entry ∈ front, entry.IsAssigned) (hraw : '=' ∉ a.raw) :
      Settles viewModel (front ++ .attribute a :: back)
        (front.map (Entry.normalized viewModel) ++ .attribute a :: back)
        (some (.problem a.missingValue))

/-! ### One pass after another -/

namespace Settles

variable {viewModel : Text} {front front' back back' : List Entry} {stop : Option Stop}

theorem goOn (hfirst : Settles viewModel front front' none)
    (hlater : Settles viewModel back back' stop) :
    Settles viewModel (front ++ back) (front' ++ back') stop := by
  cases hfirst with
  | finished hfront =>
    cases hlater with
    | finished hback =>
      rw [← List.map_append]
      exact .finished (List.forall_mem_append.mpr ⟨hfront, hback⟩)
    | stopped hback hraw =>
      rw [← List.append_assoc, ← List.append_assoc, ← List.map_append]
      exact .stopped (List.forall_mem_append.mpr ⟨hfront, hback⟩) hraw

theorem breakOff {flaw : Stop} (hfirst : Settles viewModel front front' (some flaw))
    (back : List Entry) : Settles viewModel (front ++ back) (front' ++ back) (some flaw) := by
  cases hfirst with
  | stopped hfront hraw =>
    rw [List.append_assoc, List.append_assoc]
    exact .stopped hfront hraw

end Settles

/-! ### The entries of a tree -/

theorem settles_normalizeAttributes (viewModel : Text) (attributes : List Attribute) :
    Settles viewModel (attributes.map .attribute)
      ((normalizeAttributes viewModel attributes).part.map .attribute)
      (normalizeAttributes viewModel attributes).stop := by
  induction attributes with
  | nil => exact .finished (List.forall_mem_nil _)
  | cons a attributes ih =>
    by_cases hraw : '=' ∈ a.raw
    · have hone : Settles viewModel [.attribute a] [.attribute (a.normalized viewModel)] none :=
        .finished (List.forall_mem_singleton.mpr hraw)
      rw [normalizeAttributes, a.normalize_of_mem viewModel hraw]
      exact hone.goOn ih
    · rw [normalizeAttributes, a.normalize_of_notMem viewModel hraw]
      exact .stopped (List.forall_mem_nil _) hraw

mutual

theorem Node.settles_normalize (viewModel : Text) (node : Node) :
    Settles viewModel node.entries (node.normalize viewModel).part.entries
      (node.normalize viewModel).stop := by
  cases node with
  | text run => exact .finished (List.forall_mem_singleton.mpr trivial)
  | element head children =>
    have hown := settles_normalizeAttributes viewModel head.attributes
    have hinner := Node.settles_normalizeList viewModel children
    rw [Node.normalize]
    cases hstop : (normalizeAttributes viewModel head.attributes).stop with
    | some stop =>
      rw [hstop] at hown
      exact hown.breakOff (Node.entriesList children)
    | none =>
      rw [hstop] at hown
      exact hown.goOn hinner

theorem Node.settles_normalizeList (viewModel : Text) (nodes : List Node) :
    Settles viewModel (Node.entriesList nodes)
      (Node.entriesList (Node.normalizeList viewModel nodes).part)
      (Node.normalizeList viewModel nodes).stop := by
  cases nodes with
  | nil => exact .finished (List.forall_mem_nil _)
  | cons node nodes =>
    have hfirst := Node.settles_normalize viewModel node
    have hlater := Node.settles_normalizeList viewModel nodes
    rw [Node.normalizeList]
    cases hstop : (node.normalize viewModel).stop with
    | some stop =>
      rw [hstop] at hfirst
      exact hfirst.breakOff (Node.entriesList nodes)
    | none =>
      rw [hstop] at hfirst
      exact hfirst.goOn hlater

end

/-! ### What a pass does not write to -/

def Attribute.cleared (a : Attribute) : Attribute :=
  { a with field := [], value := [] }

def TextRun.cleared (run : TextRun) : TextRun :=
  { run with content := [] }

mutual

/-- The tree without anything that a pass writes. -/
def Node.cleared : Node → Node
  | .text run => .text run.cleared
  | .element head children =>
    .element { head with attributes := head.attributes.map Attribute.cleared }
      (Node.clearedList children)

def Node.clearedList : List Node → List Node
  | [] => []
  | node :: nodes => node.cleared :: Node.clearedList nodes

end

theorem Attribute.cleared_normalized (viewModel : Text) (a : Attribute) :
    (a.normalized viewModel).cleared = a.cleared := by
  unfold Attribute.normalized
  split <;> rfl

theorem TextRun.cleared_normalize (viewModel : Text) (run : TextRun) :
    (run.normalize viewModel).cleared = run.cleared := by
  unfold TextRun.normalize
  split <;> rfl

theorem cleared_normalizeAttributes (viewModel : Text) (attributes : List Attribute) :
    (normalizeAttributes viewModel attributes).part.map Attribute.cleared =
      attributes.map Attribute.cleared := by
  induction attributes with
  | nil => rfl
  | cons a attributes ih =>
    by_cases hraw : '=' ∈ a.raw
    · rw [normalizeAttributes, a.normalize_of_mem viewModel hraw]
      simp only [List.map_cons, a.cleared_normalized, ih]
    · rw [normalizeAttributes, a.normalize_of_notMem viewModel hraw]

mutual

theorem Node.cleared_normalize (viewModel : Text) (node : Node) :
    (node.normalize viewModel).part.cleared = node.cleared := by
  cases node with
  | text run =>
    rw [Node.normalize, Node.cleared, Node.cleared, run.cleared_normalize]
  | element head children =>
    have hown := cleared_normalizeAttributes viewModel head.attributes
    have hinner := Node.cleared_normalizeList viewModel children
    rw [Node.normalize]
    split
    · simp only [Node.cleared, hown]
    · simp only [Node.cleared, hown, hinner]

theorem Node.cleared_normalizeList (viewModel : Text) (nodes : List Node) :
    Node.clearedList (Node.normalizeList viewModel nodes).part = Node.clearedList nodes := by
  cases nodes with
  | nil => rfl
  | cons node nodes =>
    have hfirst := Node.cleared_normalize viewModel node
    have hlater := Node.cleared_normalizeList viewModel nodes
    rw [Node.normalizeList]
    split
    · simp only [Node.clearedList, hfirst]
    · simp only [Node.clearedList, hfirst, hlater]

end

/-! ### Runs -/

namespace Normalizer

theorem run_fst (n : Normalizer) (root : Element) :
    (n.run root).1.toNode = (root.toNode.normalize n.viewModel).part := by
  rw [← (root.normalize_toNode n.viewModel).1, run]
  dsimp only
  split <;> rfl

theorem run_outcome (n : Normalizer) (root : Element) :
    (n.run root).2.1.outcome =
      (root.toNode.normalize n.viewModel).stop.elim (.ok ()) .error := by
  rw [← (root.normalize_toNode n.viewModel).2, run]
  cases (root.normalize n.viewModel).stop <;> rfl

/-- **A run that stops leaves a prefix done.** It stops exactly when some attribute has no equals
sign, at the first such one, and then all that comes before it in the tree is normalized as in a run
that does not stop, while the attribute and all that comes after it stay as they are. -/
theorem entries_run (n : Normalizer) (root : Element) :
    let before := root.toNode.entries
    let after := (n.run root).1.toNode.entries
    let outcome := (n.run root).2.1.outcome
    ((∃ stop, outcome = .error stop) ↔ ∃ a, .attribute a ∈ before ∧ '=' ∉ a.raw) ∧
      (outcome = .ok () ∧ after = before.map (Entry.normalized n.viewModel) ∨
        ∃ front a back, before = front ++ .attribute a :: back ∧
          (∀ entry ∈ front, entry.IsAssigned) ∧ '=' ∉ a.raw ∧
          outcome = .error (.problem
            { cause := .attributeSyntax, detail := some a.raw, location := a.location }) ∧
          after = front.map (Entry.normalized n.viewModel) ++ .attribute a :: back) ∧
      (n.run root).1.toNode.cleared = root.toNode.cleared := by
  intro before after outcome
  have hsettles := root.toNode.settles_normalize n.viewModel
  have hcleared := root.toNode.cleared_normalize n.viewModel
  rw [← n.run_fst root] at hsettles hcleared
  have houtcome : outcome = (root.toNode.normalize n.viewModel).stop.elim (.ok ()) .error :=
    n.run_outcome root
  rw [← and_assoc]
  refine ⟨?_, hcleared⟩
  change Settles n.viewModel before after _ at hsettles
  clear_value before after outcome
  generalize (root.toNode.normalize n.viewModel).stop = stop at hsettles houtcome
  subst houtcome
  cases hsettles with
  | finished hassigned =>
    refine ⟨⟨?_, ?_⟩, .inl ⟨rfl, rfl⟩⟩
    · rintro ⟨stop, hstop⟩
      cases hstop
    · rintro ⟨a, hmem, hraw⟩
      exact absurd (hassigned _ hmem) hraw
  | @stopped front back a hfront hraw =>
    refine ⟨⟨?_, ?_⟩, .inr ⟨front, a, back, rfl, hfront, hraw, rfl, rfl⟩⟩
    · intro _
      exact ⟨a, List.mem_append_right front List.mem_cons_self, hraw⟩
    · intro _
      exact ⟨_, rfl⟩

/-- A text before the attribute is quoted, at whatever depth, and one after it is not. -/
example :
    let root : Element :=
      { children :=
          [.element {}
              [.text { content := ['a'] }, .element { attributes := [{ raw := ['b'] }] } []],
            .text { content := ['c'] }] }
    (({ viewModel := ['v'] } : Normalizer).run root).1.toNode.entries =
      [.text { content := "'a'".toList }, .attribute { raw := ['b'] },
        .text { content := ['c'] }] := by
  decide

end Normalizer

end MarkupCompiler
