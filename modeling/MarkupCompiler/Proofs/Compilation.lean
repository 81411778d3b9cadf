import MarkupCompiler.Proofs.Normalization
import MarkupCompiler.Proofs.Outcome
import MarkupCompiler.Proofs.Writing

/-!
# What a compilation comes to

Every element that is read has a kind that can be rendered, on every path to a tree, and
normalization keeps the kinds. So only the parse and the attributes decide whether a compilation
gives code, and which flaw it fails with otherwise (`compile_outcome`).
-/

namespace MarkupCompiler

namespace Parser

variable {g : Grammar}

/-! ### The kinds of a parsed tree -/

theorem isRenderable_kindWithin (frames : List Frame) :
    (kindWithin frames).isRenderable = true := by
  unfold kindWithin
  split <;> rfl

mutual

theorem NodeLayout.renderable {kind : ElementKind} {before after text : Text} {node : Node}
    (hkind : kind.isRenderable = true) :
    NodeLayout g kind before after node text → node.Renderable
  | .text _ => by
    intro head hhead
    cases hhead
  | .selfClosed _ heq _ => by
    rw [Node.renderable_element, heq]
    exact ⟨hkind, List.forall_mem_nil _⟩
  | .closed _ heq _ hchildren _ _ _ => by
    rw [Node.renderable_element, heq]
    exact ⟨hkind, hchildren.renderable⟩

theorem NodesLayout.renderable {before after text : Text} {nodes : List Node} :
    NodesLayout g before after nodes text →
      ∀ head ∈ Node.headsList nodes, head.kind.isRenderable = true
  | .nil _ _ => List.forall_mem_nil _
  | .cons _ hnode hlater => by
    rw [Node.headsList, List.forall_mem_append]
    exact ⟨hnode.renderable rfl, hlater.renderable⟩

end

theorem FramesLayout.renderable {frames : List Frame} {before after : Text}
    (hframes : FramesLayout g frames before after) :
    ∀ frame ∈ frames, frame.close.toNode.Renderable := by
  induction hframes with
  | nil => exact List.forall_mem_nil _
  | cons _ _ _ hkind _ hchildren ih =>
    rw [List.forall_mem_cons]
    refine ⟨?_, ih⟩
    refine Node.renderable_element.mpr ⟨?_, hchildren.renderable⟩
    exact hkind ▸ isRenderable_kindWithin _

theorem Frame.renderable_add {frame : Frame} {node : Node}
    (hframe : frame.close.toNode.Renderable) (hnode : node.Renderable) :
    (frame.add node).close.toNode.Renderable := by
  obtain ⟨hhead, hchildren⟩ := Node.renderable_element.mp hframe
  refine Node.renderable_element.mpr ⟨hhead, ?_⟩
  have hheads : Node.headsList (frame.add node).close.children =
      Node.headsList frame.close.children ++ node.heads := by
    simp [Frame.add, Frame.close, Node.headsList_append, Node.headsList]
  rw [hheads, List.forall_mem_append]
  exact ⟨hchildren, hnode⟩

theorem renderable_enclose {e : Element} {frames : List Frame} (he : e.toNode.Renderable)
    (hframes : ∀ frame ∈ frames, frame.close.toNode.Renderable) :
    (enclose e frames).toNode.Renderable := by
  induction frames generalizing e with
  | nil => exact he
  | cons frame frames ih =>
    rw [List.forall_mem_cons] at hframes
    exact ih (Frame.renderable_add hframes.1 he) hframes.2

theorem Parsed.renderable {source : Text} {reports : List Diagnostic} {root : Element}
    (hparsed : Parsed g source reports root) : root.toNode.Renderable := by
  cases hparsed with
  | empty => decide
  | stray => decide
  | complete _ hlayout => exact hlayout.renderable rfl
  | unfinished _ _ hframes =>
    have hall := hframes.renderable
    rw [List.forall_mem_cons] at hall
    exact renderable_enclose hall.1 hall.2

theorem renderable_of_parse {source : Text} {root : Element}
    (hparse : (parse g source).outcome = .ok root) : root.toNode.Renderable :=
  (parsed_of_parse hparse).renderable

/-! ### The flaws of a parse -/

theorem Flaw.cause_ne {before rest : Text} {kind : ElementKind} {log : List Event} {d : Diagnostic}
    (hflaw : Flaw g before kind rest log d) : d.cause ≠ .unrecognizedKind := by
  cases hflaw <;> exact nofun

theorem Parsed.cause_of_mem {source : Text} {reports : List Diagnostic} {root : Element}
    {d : Diagnostic} (hparsed : Parsed g source reports root) (hd : d ∈ reports) :
    d.cause = .strayEndTag ∨ d.cause = .missingEndTag := by
  cases hparsed with
  | empty => cases hd
  | stray =>
    rw [List.mem_singleton.mp hd]
    exact .inl rfl
  | complete => exact .inl (cause_of_checkTrailing hd)
  | unfinished =>
    obtain ⟨frame, _, rfl⟩ := List.mem_map.mp hd
    exact .inr rfl

end Parser

/-! ### The stages one after another -/

/-- Every tree that is read can be generated, once it is normalized. -/
theorem generate_normalize {g : Grammar} {source : Text} {root : Element}
    (hparse : (Parser.parse g source).outcome = .ok root) (o : Options) :
    (generate o (normalize o root).1).outcome = .ok (moduleCode o.target (normalize o root).1) := by
  rw [generate_of_renderable (renderable_normalize (Parser.renderable_of_parse hparse) o)]

theorem compile_of_stop {o : Options} {source : Text} {stop : Stop}
    (hparse : (Parser.parse o.grammar source).outcome = .error stop) :
    (compile o source).outcome = .error stop := by
  simp only [compile, Traced.outcome_bind_eq_error_iff]
  exact .inl hparse

theorem compile_of_report {o : Options} {source : Text} {root : Element} {d : Diagnostic}
    {later : List Diagnostic} (hparse : (Parser.parse o.grammar source).outcome = .ok root)
    (hreports : (Parser.parse o.grammar source).reports = d :: later) :
    (compile o source).outcome = .error (.problem d) := by
  simp only [compile, Traced.outcome_bind_eq_error_iff, hreports]
  exact .inr ⟨root, hparse, .inl rfl⟩

theorem compile_of_missingValue {o : Options} {source : Text} {root : Element} {a : Attribute}
    (hparse : (Parser.parse o.grammar source).outcome = .ok root)
    (hreports : (Parser.parse o.grammar source).reports = [])
    (hfirst : root.toNode.attributes.find? (fun a => '=' ∉ a.raw) = some a) :
    (compile o source).outcome = .error (.problem a.missingValue) := by
  have hnormalize := normalize_outcome o root
  rw [hfirst] at hnormalize
  simp only [compile, Traced.outcome_bind_eq_error_iff, hreports]
  exact .inr ⟨root, hparse, .inr ⟨(), rfl, .inl hnormalize⟩⟩

theorem compile_of_assigned {o : Options} {source : Text} {root : Element}
    (hparse : (Parser.parse o.grammar source).outcome = .ok root)
    (hreports : (Parser.parse o.grammar source).reports = [])
    (hassigned : ∀ a ∈ root.toNode.attributes, '=' ∈ a.raw) :
    (compile o source).outcome = .ok (moduleCode o.target (normalize o root).1) := by
  have hnormalize := normalize_outcome o root
  have hnone : root.toNode.attributes.find? (fun a => '=' ∉ a.raw) = none := by
    simpa using hassigned
  rw [hnone] at hnormalize
  simp only [compile, Traced.outcome_bind_eq_ok_iff, hreports]
  exact ⟨root, hparse, (), rfl, (), hnormalize, generate_normalize hparse o⟩

/-- The ways a compilation can end. -/
inductive Compiled (o : Options) (source : Text) : Except Stop Text → Prop
  | stopped {d : Diagnostic}
      (hparse : (Parser.parse o.grammar source).outcome = .error (.problem d))
      (hcause : d.cause ≠ .unrecognizedKind) : Compiled o source (.error (.problem d))
  | rejected {root : Element} {d : Diagnostic} {later : List Diagnostic}
      (hparse : (Parser.parse o.grammar source).outcome = .ok root)
      (hreports : (Parser.parse o.grammar source).reports = d :: later)
      (hcause : d.cause ≠ .unrecognizedKind) : Compiled o source (.error (.problem d))
  | unassigned {root : Element} {a : Attribute}
      (hparse : (Parser.parse o.grammar source).outcome = .ok root)
      (hreports : (Parser.parse o.grammar source).reports = [])
      (hfirst : root.toNode.attributes.find? (fun a => '=' ∉ a.raw) = some a) :
      Compiled o source (.error (.problem a.missingValue))
  | generated {root : Element} (hparse : (Parser.parse o.grammar source).outcome = .ok root)
      (hreports : (Parser.parse o.grammar source).reports = [])
      (hassigned : ∀ a ∈ root.toNode.attributes, '=' ∈ a.raw) :
      Compiled o source (.ok (moduleCode o.target (normalize o root).1))

theorem compile_cases (o : Options) (source : Text) :
    Compiled o source (compile o source).outcome := by
  rcases Parser.parse_cases o.grammar source with
    ⟨root, hparse, hparsed⟩ | ⟨_, _, _, _, d, _, hflaw, hstop, _⟩
  · cases hreports : (Parser.parse o.grammar source).reports with
    | cons d later =>
      rw [hreports] at hparsed
      rw [compile_of_report hparse hreports]
      refine .rejected hparse hreports ?_
      rcases hparsed.cause_of_mem List.mem_cons_self with hcause | hcause <;> simp [hcause]
    | nil =>
      cases hfirst : root.toNode.attributes.find? fun a => '=' ∉ a.raw with
      | some a =>
        rw [compile_of_missingValue hparse hreports hfirst]
        exact .unassigned hparse hreports hfirst
      | none =>
        have hassigned : ∀ a ∈ root.toNode.attributes, '=' ∈ a.raw := by simpa using hfirst
        rw [compile_of_assigned hparse hreports hassigned]
        exact .generated hparse hreports hassigned
  · rw [compile_of_stop hstop]
    exact .stopped hstop hflaw.cause_ne

/-- A compilation gives code exactly when the parse returns a tree, reports nothing, and every
attribute has an equals sign. Else it fails with the flaw that stopped the parse, the first one that
was reported, or the first attribute in document order that has none. -/
theorem compile_outcome (o : Options) (source : Text) :
    let parsed := Parser.parse o.grammar source
    ((∃ code, (compile o source).outcome = .ok code) ↔
        ∃ root, parsed.outcome = .ok root ∧ parsed.reports = [] ∧
          ∀ a ∈ root.toNode.attributes, '=' ∈ a.raw) ∧
      (∀ stop, parsed.outcome = .error stop → (compile o source).outcome = .error stop) ∧
      (∀ root d later, parsed.outcome = .ok root → parsed.reports = d :: later →
        (compile o source).outcome = .error (.problem d)) ∧
      (∀ root a, parsed.outcome = .ok root → parsed.reports = [] →
        root.toNode.attributes.find? (fun a => '=' ∉ a.raw) = some a →
          (compile o source).outcome = .error (.problem
            { cause := .attributeSyntax, detail := some a.raw, location := a.location })) ∧
      (∀ d, (compile o source).outcome = .error (.problem d) → d.cause ≠ .unrecognizedKind) ∧
      ∀ root, parsed.outcome = .ok root → (normalize o root).2.outcome = .ok () →
        ∃ code, (generate o (normalize o root).1).outcome = .ok code := by
  intro parsed
  refine ⟨⟨?_, ?_⟩, fun _ => compile_of_stop, fun _ _ _ => compile_of_report,
    fun _ _ => compile_of_missingValue, ?_, fun _ hparse _ => ⟨_, generate_normalize hparse o⟩⟩
  · rintro ⟨code, hcode⟩
    have hcompiled := compile_cases o source
    rw [hcode] at hcompiled
    cases hcompiled with
    | generated hparse hreports hassigned => exact ⟨_, hparse, hreports, hassigned⟩
  · rintro ⟨root, hparse, hreports, hassigned⟩
    exact ⟨_, compile_of_assigned hparse hreports hassigned⟩
  · intro d hd
    have hcompiled := compile_cases o source
    rw [hd] at hcompiled
    cases hcompiled with
    | stopped _ hcause => exact hcause
    | rejected _ _ hcause => exact hcause
    | unassigned => exact nofun

/-- Of two attributes without an equals sign, the one of the earlier child is to blame; with an end
tag missing, neither is. -/
theorem compile_outcome_unassigned :
    let closed := "<ul a=b><li c='d' e>f</li><li g/></ul>".toList
    let unclosed := "<ul a=b><li c='d' e>f</li><li g/>".toList
    (compile {} closed).outcome = .error (.problem
        { cause := .attributeSyntax, detail := some ['e']
          location := .between "<ul a=b><li c='d' ".toList ['e'] }) ∧
      (compile {} unclosed).outcome = .error (.problem
        { cause := .missingEndTag, detail := some " <ul>".toList
          location := .between [] "<ul a=b>".toList }) := by
  intro closed unclosed
  refine ⟨?_, ?_⟩
  · have hfound : ((Parser.parse {} closed).outcome.toOption.bind fun root =>
        root.toNode.attributes.find? fun a => '=' ∉ a.raw) =
          some { raw := ['e'], location := .between "<ul a=b><li c='d' ".toList ['e'] } := by
      decide +kernel
    obtain ⟨root, hroot, hfirst⟩ := Option.bind_eq_some_iff.mp hfound
    have hparse : (Parser.parse {} closed).outcome = .ok root := by
      cases houtcome : (Parser.parse {} closed).outcome with
      | error stop => simp [houtcome, Except.toOption] at hroot
      | ok root' => simpa [houtcome, Except.toOption] using hroot
    obtain ⟨_, _, _, hunassigned, _⟩ := compile_outcome {} closed
    exact hunassigned root _ hparse (by decide +kernel) hfirst
  · have hreports : (Parser.parse {} unclosed).reports =
        [{ cause := .missingEndTag, detail := some " <ul>".toList
           location := .between [] "<ul a=b>".toList }] := by
      decide +kernel
    obtain ⟨_, _, hreported, _⟩ := compile_outcome {} unclosed
    rcases Parser.parse_cases {} unclosed with ⟨root, hparse, _⟩ | ⟨_, _, _, _, _, _, _, _, hnone⟩
    · exact hreported root _ _ hparse hreports
    · exact absurd hnone (by rw [hreports]; simp)

end MarkupCompiler
