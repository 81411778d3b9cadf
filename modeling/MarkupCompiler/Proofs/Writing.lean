import MarkupCompiler.Compile
import MarkupCompiler.Proofs.Document

/-!
# The code of a tree

What the writer leaves behind for a tree is a text that depends on the tree and the names alone, as
long as every element can be rendered: `Node.code` for a call and `moduleCode` for a module. Else
writing stops at the first element that cannot be, whatever was written before
(`Writer.error_iff_reserved`).
-/

namespace MarkupCompiler

open Text

/-- From `depth` open blocks, the action ends with `stop` or without one, and then it has added
`code` and left `depth'` blocks open. -/
def WriteM.Yields (depth depth' : Nat) (code : Text) (stop : Option Stop) (action : WriteM Unit) :
    Prop :=
  ∀ w : Writer, w.depth = depth →
    ∃ w' : Writer, action.run w = (stop.elim (.ok ()) .error, w') ∧
      (stop = none → w'.text = w.text ++ code ∧ w'.depth = depth')

/-! ### The texts -/

def keyCode (key : Text) : Text :=
  if isSimpleIdentifier key then key else quote key

def Attribute.valueCode (a : Attribute) : Text :=
  if a.isDynamic then a.value else quote a.value

def Attribute.code (a : Attribute) : Text :=
  keyCode a.field ++ (':' :: ' ' :: a.valueCode)

/-- The properties of a call, left out without attributes. -/
def propertiesCode : List Attribute → Text
  | [] => []
  | a :: as =>
    [',', ' ', '\x7b', ' '] ++ (a.code ++ (as.flatMap (fun a => ',' :: ' ' :: a.code) ++
      [' ', '\x7d']))

mutual

def Node.code (helper : Text) : Node → Text
  | .text run => run.content
  | .element head children =>
    helper ++ ('(' :: (quote head.tagName ++ (propertiesCode head.attributes ++
      (Node.childrenCode helper children ++ [')']))))

/-- The children of a call, left out without any. -/
def Node.childrenCode (helper : Text) : List Node → Text
  | [] => []
  | node :: nodes =>
    [',', ' ', '['] ++ (node.code helper ++ (Node.moreCode helper nodes ++ [']']))

/-- Each node after a comma. -/
def Node.moreCode (helper : Text) : List Node → Text
  | [] => []
  | node :: nodes => [',', ' '] ++ (node.code helper ++ Node.moreCode helper nodes)

end

def moduleCode (t : Target) (root : Element) : Text :=
  "import \x7b ".toList ++ t.helper ++ " \x7d from ".toList ++ quote t.runtimeModule ++
    ("\nexport function render() \x7b\n  const ".toList ++ t.viewModel ++
      (" = this\n  return ".toList ++
        ((if root.isEmptyRoot then "null".toList else root.toNode.code t.helper) ++
          "\n\x7d\n".toList)))

/-! ### One action after another -/

namespace WriteM

variable {depth depth' depth'' : Nat} {code more : Text} {stop next : Option Stop}
  {first later : WriteM Unit}

theorem run_bind (first later : WriteM Unit) (w : Writer) :
    (do first; later : WriteM Unit).run w =
      match first.run w with
      | (.ok (), w') => later.run w'
      | (.error stop, w') => (.error stop, w') := by
  change ExceptT.bindCont (fun _ => later) (first.run w).1 (first.run w).2 = _
  rcases first.run w with ⟨stop | _, w'⟩ <;> rfl

theorem yields_pure (depth : Nat) : Yields depth depth [] none (pure ()) := by
  intro w hw
  exact ⟨w, rfl, fun _ => ⟨(List.append_nil _).symm, hw⟩⟩

theorem yields_write (depth : Nat) (piece : Text) :
    Yields depth depth piece none (write piece) := by
  intro w hw
  refine ⟨{ w with pieces := piece :: w.pieces }, rfl, fun _ => ⟨?_, hw⟩⟩
  simp [Writer.text]

theorem Yields.bind (hfirst : Yields depth depth' code stop first)
    (hlater : Yields depth' depth'' more next later) :
    Yields depth depth'' (code ++ more) (stop.or next) (do first; later) := by
  intro w hw
  obtain ⟨w', hrun, hgoes⟩ := hfirst w hw
  rw [run_bind, hrun]
  cases stop with
  | some stop =>
    refine ⟨w', rfl, fun hnone => ?_⟩
    cases hnone
  | none =>
    obtain ⟨htext, hdepth⟩ := hgoes rfl
    obtain ⟨w'', hrun', hgoes'⟩ := hlater w' hdepth
    refine ⟨w'', hrun', fun hnext => ?_⟩
    obtain ⟨htext', hdepth'⟩ := hgoes' hnext
    refine ⟨?_, hdepth'⟩
    rw [htext', htext, List.append_assoc]

theorem yields_newline (depth : Nat) :
    Yields depth depth ('\n' :: List.replicate (2 * depth) ' ') none newline := by
  rintro w rfl
  exact yields_write w.depth _ w rfl

theorem yields_openBlock (depth : Nat) :
    Yields depth (depth + 1) ('\n' :: List.replicate (2 * (depth + 1)) ' ') none openBlock := by
  rintro w rfl
  exact yields_newline (w.depth + 1) { w with depth := w.depth + 1 } rfl

theorem yields_closeBlock (depth : Nat) :
    Yields (depth + 1) depth ('\n' :: List.replicate (2 * depth) ' ') none closeBlock := by
  rintro ⟨pieces, _⟩ rfl
  exact yields_newline depth { pieces, depth } rfl

theorem yields_finish : Yields 0 0 [] none finish := by
  rintro ⟨pieces, _⟩ rfl
  exact ⟨_, rfl, fun _ => ⟨(List.append_nil _).symm, rfl⟩⟩

end WriteM

open WriteM

/-! ### Calls -/

theorem Attribute.yields_write (depth : Nat) (a : Attribute) :
    Yields depth depth a.code none a.write :=
  (WriteM.yields_write depth _).bind
    ((WriteM.yields_write depth [':', ' ']).bind (WriteM.yields_write depth _))

theorem yields_writeMoreProperties (depth : Nat) (attributes : List Attribute) :
    Yields depth depth (attributes.flatMap fun a => ',' :: ' ' :: a.code) none
      (writeMoreProperties attributes) := by
  induction attributes with
  | nil => exact yields_pure depth
  | cons a attributes ih =>
    have hall := (yields_write depth [',', ' ']).bind ((a.yields_write depth).bind ih)
    rw [writeMoreProperties, List.flatMap_cons]
    simpa using hall

theorem yields_writeProperties (depth : Nat) (attributes : List Attribute) :
    Yields depth depth (propertiesCode attributes) none (writeProperties attributes) := by
  cases attributes with
  | nil => exact yields_pure depth
  | cons a attributes =>
    exact (yields_write depth _).bind ((a.yields_write depth).bind
      ((yields_writeMoreProperties depth attributes).bind (yields_write depth _)))

theorem yields_writeCallee (depth : Nat) (helper tagName : Text) :
    Yields depth depth (helper ++ (['('] ++ quote tagName)) none (writeCallee helper tagName) :=
  (yields_write depth _).bind ((yields_write depth _).bind (yields_write depth _))

theorem yields_requireRenderable (depth : Nat) (head : Head) :
    Yields depth depth [] (refusal [head]) (requireRenderable head) := by
  unfold requireRenderable
  by_cases hkind : head.kind.isRenderable = true
  · have hnone : refusal [head] = none := by simp [refusal, hkind]
    rw [if_pos hkind, hnone]
    exact yields_pure depth
  · have hsome : refusal [head] = some (.problem head.unrecognizedKind) := by simp [refusal, hkind]
    rw [if_neg hkind, hsome]
    intro w _
    refine ⟨w, rfl, fun hnone => ?_⟩
    cases hnone

mutual

theorem Node.yields_write (depth : Nat) (helper : Text) (node : Node) :
    Yields depth depth (node.code helper) (refusal node.heads) (node.write helper) := by
  cases node with
  | text run =>
    rw [Node.write, Node.code]
    exact WriteM.yields_write depth _
  | element head children =>
    have hchildren := Node.yields_writeChildren depth helper children
    have hall := (yields_requireRenderable depth head).bind
      ((yields_writeCallee depth helper head.tagName).bind
        ((yields_writeProperties depth head.attributes).bind
          (hchildren.bind (WriteM.yields_write depth [')']))))
    rw [Node.write, Node.code, Node.heads, refusal_cons]
    simpa using hall

theorem Node.yields_writeChildren (depth : Nat) (helper : Text) (nodes : List Node) :
    Yields depth depth (Node.childrenCode helper nodes) (refusal (Node.headsList nodes))
      (Node.writeChildren helper nodes) := by
  cases nodes with
  | nil =>
    rw [Node.writeChildren, Node.childrenCode]
    exact yields_pure depth
  | cons node nodes =>
    have hall := (WriteM.yields_write depth [',', ' ', '[']).bind
      ((Node.yields_write depth helper node).bind
        ((Node.yields_writeMore depth helper nodes).bind (WriteM.yields_write depth [']'])))
    rw [Node.writeChildren, Node.childrenCode, Node.headsList, refusal_append]
    simpa using hall

theorem Node.yields_writeMore (depth : Nat) (helper : Text) (nodes : List Node) :
    Yields depth depth (Node.moreCode helper nodes) (refusal (Node.headsList nodes))
      (Node.writeMore helper nodes) := by
  cases nodes with
  | nil =>
    rw [Node.writeMore, Node.moreCode]
    exact yields_pure depth
  | cons node nodes =>
    have hall := (WriteM.yields_write depth [',', ' ']).bind
      ((Node.yields_write depth helper node).bind (Node.yields_writeMore depth helper nodes))
    rw [Node.writeMore, Node.moreCode, Node.headsList, refusal_append]
    simpa using hall

end

/-- What a call comes to does not depend on what the writer was used for before. -/
theorem generateCall_eq (t : Target) (e : Element) (w : Writer) :
    (w.generateCall t e).1 =
      (refusal e.toNode.heads).elim (.ok (e.toNode.code t.helper)) .error := by
  obtain ⟨w', hrun, hgoes⟩ :=
    e.toNode.yields_write w.depth t.helper { w with pieces := [] } rfl
  rw [Writer.generateCall, Writer.collect, hrun]
  cases hstop : refusal e.toNode.heads with
  | some stop => rfl
  | none => exact congrArg Except.ok (hgoes hstop).1

theorem generateCall_of_renderable {e : Element} (he : e.toNode.Renderable) (t : Target)
    (w : Writer) : (w.generateCall t e).1 = .ok (e.toNode.code t.helper) := by
  rw [generateCall_eq, refusal_eq_none_iff.mpr he]
  rfl

/-! ### Modules -/

/-- The one block of a module is closed again, and only the element inside of it can stop that. -/
theorem yields_writeModule (t : Target) (root : Element) :
    Yields 0 0 (moduleCode t root) (if root.isEmptyRoot then none else refusal root.toNode.heads)
      (writeModule t root) := by
  have hfooter : Yields 1 0 "\n\x7d\n".toList none
      (do closeBlock; write ['\x7d']; newline; finish) :=
    (yields_closeBlock 0).bind
      ((yields_write 0 ['\x7d']).bind ((yields_newline 0).bind yields_finish))
  -- the header, up to the expression that is returned
  have hmodule : ∀ {code : Text} {stop : Option Stop} {later : WriteM Unit},
      Yields 1 0 code stop later →
      Yields 0 0
        ("import \x7b ".toList ++ t.helper ++ " \x7d from ".toList ++ quote t.runtimeModule ++
          ("\nexport function render() \x7b\n  const ".toList ++ t.viewModel ++
            (" = this\n  return ".toList ++ code))) stop
        (do
          write ("import \x7b ".toList ++ t.helper ++ " \x7d from ".toList ++ quote t.runtimeModule)
          newline
          write "export function render() \x7b".toList
          openBlock
          write ("const ".toList ++ t.viewModel ++ " = this".toList)
          newline
          write "return ".toList
          later) := by
    intro code stop later hlater
    have hall := (yields_write 0 ("import \x7b ".toList ++ t.helper ++ " \x7d from ".toList ++
      quote t.runtimeModule)).bind ((yields_newline 0).bind
        ((yields_write 0 "export function render() \x7b".toList).bind ((yields_openBlock 0).bind
          ((yields_write 1 ("const ".toList ++ t.viewModel ++ " = this".toList)).bind
            ((yields_newline 1).bind ((yields_write 1 "return ".toList).bind hlater))))))
    simpa using hall
  unfold writeModule moduleCode
  dsimp only
  split
  · exact hmodule ((yields_write 1 _).bind hfooter)
  · have hcall := (root.toNode.yields_write 1 t.helper).bind hfooter
    rw [Option.or_none] at hcall
    exact hmodule hcall

theorem generate_eq (o : Options) (root : Element) :
    generate o root =
      match if root.isEmptyRoot then none else refusal root.toNode.heads with
      | some stop => ⟨[], .error stop⟩
      | none =>
        ⟨[.generated (moduleCode o.target root).byteSize], .ok (moduleCode o.target root)⟩ := by
  obtain ⟨w, hrun, hgoes⟩ := yields_writeModule o.target root {} rfl
  simp only [generate, Writer.generate, Writer.collect, hrun]
  generalize (if root.isEmptyRoot then none else refusal root.toNode.heads) = stop at hgoes ⊢
  cases stop with
  | some stop => rfl
  | none =>
    have hcode : w.text = moduleCode o.target root := (hgoes rfl).1
    simp only [Option.elim, hcode]

theorem generate_of_renderable {root : Element} (hroot : root.toNode.Renderable) (o : Options) :
    generate o root =
      ⟨[.generated (moduleCode o.target root).byteSize], .ok (moduleCode o.target root)⟩ := by
  rw [generate_eq, refusal_eq_none_iff.mpr hroot, ite_self]

/-! ### Reserved kinds -/

theorem Head.unrecognizedKind_of_isReserved {h : Head} (hreserved : h.IsReserved) :
    h.unrecognizedKind =
      { cause := .unrecognizedKind
        detail := some (if h.kind = .conditional then "If" else "For").toList
        location := h.location } := by
  rcases hreserved with hkind | hkind <;> rw [Head.unrecognizedKind, hkind] <;> rfl

namespace Writer

theorem outcome_generate (w : Writer) (t : Target) (e : Element) :
    (w.generate t e).1.outcome =
      (if e.isEmptyRoot then none else refusal e.toNode.heads).elim (.ok (moduleCode t e))
        .error := by
  have hgenerate := generate_eq { target := t } e
  change (w.generate t e).1 = _ at hgenerate
  rw [hgenerate]
  split <;> rename_i heq <;> rw [heq] <;> rfl

/-- **Only reserved kinds are refused.** A call can be generated for a tree exactly when no element
in it is of a reserved kind, and so can a module, but a template without any element is not looked
into. What is refused is the first such element in document order, by its kind and location. -/
theorem error_iff_reserved (w : Writer) (t : Target) (e : Element) :
    ((∃ stop, (w.generateCall t e).1 = .error stop) ↔
        ∃ head ∈ e.toNode.heads, head.IsReserved) ∧
      ((∃ stop, (w.generate t e).1.outcome = .error stop) ↔
        (∃ head ∈ e.toNode.heads, head.IsReserved) ∧ ¬ (e.kind = .root ∧ e.tagName = [])) ∧
      ∀ stop, (w.generateCall t e).1 = .error stop ∨ (w.generate t e).1.outcome = .error stop →
        ∃ front head back, e.toNode.heads = front ++ head :: back ∧
          (∀ earlier ∈ front, ¬ earlier.IsReserved) ∧ head.IsReserved ∧
          stop = .problem
            { cause := .unrecognizedKind
              detail := some (if head.kind = .conditional then "If" else "For").toList
              location := head.location } := by
  have hcall : ∀ stop, (w.generateCall t e).1 = .error stop ↔
      refusal e.toNode.heads = some stop := by
    intro stop
    rw [generateCall_eq]
    cases refusal e.toNode.heads <;> simp
  have hmodule : ∀ stop, (w.generate t e).1.outcome = .error stop ↔
      refusal e.toNode.heads = some stop ∧ ¬ (e.kind = .root ∧ e.tagName = []) := by
    intro stop
    rw [outcome_generate, ← Element.isEmptyRoot_iff]
    by_cases hroot : e.isEmptyRoot = true
    · simp [hroot]
    · rw [if_neg hroot]
      cases refusal e.toNode.heads <;> simp [hroot]
  refine ⟨?_, ?_, ?_⟩
  · simp only [hcall, exists_refusal_iff]
  · simp only [hmodule, exists_and_right, exists_refusal_iff]
  · intro stop herror
    have hrefusal : refusal e.toNode.heads = some stop :=
      herror.elim (hcall stop).mp fun hstop => ((hmodule stop).mp hstop).1
    obtain ⟨front, head, back, hsplit, hfront, hreserved, rfl⟩ := exists_of_refusal hrefusal
    refine ⟨front, head, back, hsplit, hfront, hreserved, ?_⟩
    rw [Head.unrecognizedKind_of_isReserved hreserved]

/-- A template without any element hides what is inside of it from a module, but not from a call. -/
example :
    let root : Element := { kind := .root, children := [.element { kind := .repetition } []] }
    (∃ code, (({} : Writer).generate {} root).1.outcome = .ok code) ∧
      (({} : Writer).generateCall {} root).1 =
        .error (.problem { cause := .unrecognizedKind, detail := some "For".toList }) :=
  ⟨⟨_, rfl⟩, rfl⟩

end Writer

end MarkupCompiler
