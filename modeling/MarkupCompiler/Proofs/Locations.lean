import MarkupCompiler.Proofs.Outcome

/-!
# Locations are faithful

Every location in a tree, in a flaw and in a report lies between two positions of the source, and
the slices of attributes and texts are what these hold. This takes no tree to be complete: the open
elements of a parse are located too, and folding them together keeps their locations.
-/

namespace MarkupCompiler

open Text Lexeme

/-- A text covers its content, or delimiters around an expression that trims to it. -/
def TextRun.Located (g : Grammar) (source : Text) (t : TextRun) : Prop :=
  t.location.IsSpan source ∧
    match t.kind with
    | .plain => t.location.slice source = .ok t.content
    | .interpolation => ∃ body, trim body = t.content ∧
        t.location.slice source =
          .ok (g.delimiters.opening ++ (body ++ g.delimiters.closing))

/-- Every attribute covers its raw text. -/
def Head.Located (source : Text) (h : Head) : Prop :=
  h.location.IsSpan source ∧
    ∀ a ∈ h.attributes, a.location.IsSpan source ∧ a.location.slice source = .ok a.raw

/-- All locations in a tree are faithful to the source. -/
inductive Node.Located (g : Grammar) (source : Text) : Node → Prop
  | text {run : TextRun} (hrun : run.Located g source) : Node.Located g source (.text run)
  | element {head : Head} {children : List Node} (hhead : head.Located source)
      (hchildren : ∀ node ∈ children, Node.Located g source node) :
      Node.Located g source (.element head children)

namespace Parser

variable {g : Grammar} {source : Text}

theorem TextLayout.located {before after text : Text} {run : TextRun}
    (hlayout : TextLayout g before after run text) (hsource : source = before ++ (text ++ after)) :
    run.Located g source := by
  subst hsource
  cases hlayout with
  | plain =>
    exact ⟨Location.isSpan_between before text after, Location.slice_between before text after⟩
  | @interpolation body =>
    exact ⟨Location.isSpan_between _ _ _, body, rfl, Location.slice_between _ _ _⟩

theorem AttributesLayout.located {before after text : Text} {attributes : List Attribute}
    (hlayout : AttributesLayout g after before attributes text)
    (hsource : source = before ++ (text ++ after)) :
    ∀ a ∈ attributes, a.location.IsSpan source ∧ a.location.slice source = .ok a.raw := by
  induction hlayout with
  | nil => simp
  | @cons before gap raw text attributes _ _ _ _ ih =>
    have hsplit : source = before ++ gap ++ (raw ++ (text ++ after)) := by simpa using hsource
    intro a ha
    rcases List.mem_cons.mp ha with rfl | ha
    · rw [hsplit]
      exact ⟨Location.isSpan_between _ _ _, Location.slice_between _ _ _⟩
    · exact ih (by simpa using hsource) a ha

theorem HeadLayout.located {before after tag : Text} {head : Head}
    (hlayout : HeadLayout g before after head tag) (hsource : source = before ++ (tag ++ after))
    (hspan : head.location.IsSpan source) : head.Located source := by
  cases hlayout with
  | intro hname hstop hattributes hgap =>
    exact ⟨hspan, hattributes.located (by simpa using hsource)⟩

mutual

theorem NodeLayout.located {kind : ElementKind} {before after text : Text} {node : Node} :
    NodeLayout g kind before after node text → source = before ++ (text ++ after) →
      node.Located g source
  | .text hlayout, hsource => .text (hlayout.located hsource)
  | .selfClosed hhead _ hlocation, hsource => by
    refine .element (hhead.located (by simpa using hsource) ?_) (by simp)
    rw [hlocation, hsource]
    exact Location.isSpan_between _ _ _
  | .closed hhead _ hlocation hchildren _ _ _, hsource => by
    refine .element (hhead.located (by simpa using hsource) ?_) ?_
    · rw [hlocation, hsource]
      exact Location.isSpan_between _ _ _
    · exact hchildren.located (by simpa using hsource)

theorem NodesLayout.located {before after text : Text} {nodes : List Node} :
    NodesLayout g before after nodes text → source = before ++ (text ++ after) →
      ∀ node ∈ nodes, node.Located g source
  | .nil _ _, _ => by simp
  | .cons _ hnode hlater, hsource => by
    intro node hmem
    rcases List.mem_cons.mp hmem with heq | hmem
    · rw [heq]
      exact hnode.located (by simpa using hsource)
    · exact hlater.located (by simpa using hsource) node hmem

end

/-- An open element is located like a complete one that has the same children. -/
def Frame.Located (g : Grammar) (source : Text) (frame : Frame) : Prop :=
  frame.head.Located source ∧ ∀ node ∈ frame.children, node.Located g source

theorem Frame.Located.add {frame : Frame} {node : Node} (hframe : frame.Located g source)
    (hnode : node.Located g source) : (frame.add node).Located g source := by
  refine ⟨hframe.1, ?_⟩
  intro child hchild
  rcases List.mem_cons.mp hchild with rfl | hchild
  · exact hnode
  · exact hframe.2 child hchild

theorem Frame.Located.close {frame : Frame} (hframe : frame.Located g source) :
    frame.close.toNode.Located g source := by
  refine .element hframe.1 ?_
  intro child hchild
  exact hframe.2 child (List.mem_reverse.mp hchild)

theorem FramesLayout.located {before after : Text} {frames : List Frame}
    (hlayout : FramesLayout g frames before after) (hsource : source = before ++ after) :
    ∀ frame ∈ frames, frame.Located g source := by
  induction hlayout with
  | nil => simp
  | @cons frames outer gap tag inner after head children _ _ hhead _ hlocation hchildren ih =>
    intro frame hframe
    rcases List.mem_cons.mp hframe with rfl | hframe
    · -- an open element covers its start tag, also when children follow it
      have hspan : head.location.IsSpan source := by
        have hsplit : source = outer ++ gap ++ (tag ++ closing false ++ (inner ++ after)) := by
          simpa using hsource
        rw [hlocation, hsplit]
        exact Location.isSpan_between _ _ _
      refine ⟨hhead.located (by simpa using hsource) hspan, ?_⟩
      intro child hchild
      exact hchildren.located (by simpa using hsource) child (List.mem_reverse.mpr hchild)
    · exact ih (by simpa using hsource) frame hframe

/-- Folding open elements together moves none of them. -/
theorem located_enclose {e : Element} {frames : List Frame} (he : e.toNode.Located g source)
    (hframes : ∀ frame ∈ frames, frame.Located g source) :
    (enclose e frames).toNode.Located g source := by
  induction frames generalizing e with
  | nil => exact he
  | cons frame frames ih =>
    rw [List.forall_mem_cons] at hframes
    exact ih (hframes.1.add he).close hframes.2

theorem Flaw.isSpan {before rest : Text} {kind : ElementKind} {log : List Event} {d : Diagnostic}
    (hflaw : Flaw g before kind rest log d) : d.location.IsSpan (before ++ rest) := by
  cases hflaw with
  | endTag => exact Location.isSpan_between before ['<', '/'] _
  | startTag => exact Location.isSpan_between before ['<'] _
  | @endInTag name text gap _ _ _ _ =>
    simpa using Location.isSpan_between before ('<' :: (name ++ (text ++ gap))) []
  | @malformedAttribute name text gap tail c _ _ _ _ =>
    simpa using Location.isSpan_between (before ++ '<' :: (name ++ (text ++ gap))) [c] tail
  | @interpolation tail _ _ =>
    simpa using Location.isSpan_between before (g.delimiters.opening ++ tail) []

theorem isSpan_of_checkTrailing {before rest : Text} {d : Diagnostic}
    (hd : d ∈ (checkTrailing (.past before rest)).reports) :
    d.location.IsSpan (before ++ rest) := by
  obtain ⟨gap, ahead, rfl, _, _, ⟨name, blanks, tail, rfl, _, _, hcheck⟩ | ⟨_, hcheck⟩⟩ :=
    checkTrailing_cases before rest
  · obtain rfl : d = strayEnd name (.between (before ++ gap) (endTag name blanks)) := by
      simpa [hcheck, Traced.reports, Event.reported?] using hd
    rw [← List.append_assoc before]
    exact Location.isSpan_between _ _ _
  · rw [hcheck] at hd
    cases ahead <;> cases hd

theorem Parsed.located {reports : List Diagnostic} {root : Element}
    (hparsed : Parsed g source reports root) : root.toNode.Located g source := by
  have hempty : Element.emptyRoot.toNode.Located g source := by
    refine .element ⟨Location.isSpan_default source, ?_⟩ ?_
    · exact List.forall_mem_nil _
    · exact List.forall_mem_nil _
  cases hparsed with
  | empty => exact hempty
  | stray => exact hempty
  | complete hsource hlayout => exact hlayout.located hsource
  | unfinished hsource _ hframes =>
    have hlocated := hframes.located hsource
    rw [List.forall_mem_cons] at hlocated
    exact located_enclose hlocated.1.close hlocated.2

theorem Parsed.isSpan {reports : List Diagnostic} {root : Element} {d : Diagnostic}
    (hparsed : Parsed g source reports root) (hd : d ∈ reports) : d.location.IsSpan source := by
  cases hparsed with
  | empty => cases hd
  | stray hsource =>
    rw [List.mem_singleton.mp hd, hsource]
    exact Location.isSpan_between _ _ _
  | complete hsource =>
    rw [hsource, ← List.append_assoc]
    exact isSpan_of_checkTrailing hd
  | unfinished hsource _ hframes =>
    obtain ⟨frame, hframe, rfl⟩ := List.mem_map.mp hd
    exact (hframes.located hsource frame hframe).1.1

/-- Whatever a parse comes to, the locations in it are spans of the source, and the slices of
attributes and texts are what they hold. -/
theorem locations_of_parse (g : Grammar) (source : Text) :
    (∀ root, (parse g source).outcome = .ok root → root.toNode.Located g source) ∧
      (∀ d, (parse g source).outcome = .error (.problem d) → d.location.IsSpan source) ∧
      ∀ d ∈ (parse g source).reports, d.location.IsSpan source := by
  rcases parse_cases g source with
    ⟨root, houtcome, hparsed⟩ | ⟨before, rest, kind, log, d, hsource, hflaw, houtcome, hreports⟩
  · rw [houtcome]
    refine ⟨?_, ?_, fun d hd => hparsed.isSpan hd⟩
    · rintro root ⟨⟩
      exact hparsed.located
    · rintro d ⟨⟩
  · rw [houtcome, hreports]
    refine ⟨?_, ?_, by simp⟩
    · rintro root ⟨⟩
    · rintro d ⟨⟩
      rw [hsource]
      exact hflaw.isSpan

/-- One source leaves two elements open at its end, and an attribute stops the parse of the
other. -/
theorem locations_of_parse_unclosed :
    let unclosed := "<ul a=\x22\u00e9\n\x22>\u00e9<li>\x7b\x7b d \x7d\x7d ".toList
    let flawed := "\u00e9<ul \u00e9\n =\x22>".toList
    (∃ root d, (parse {} unclosed).outcome = .ok root ∧ root.toNode.Located {} unclosed ∧
        d ∈ (parse {} unclosed).reports ∧ d.location.IsSpan unclosed) ∧
      ∃ d, (parse {} flawed).outcome = .error (.problem d) ∧ d.location.IsSpan flawed := by
  intro unclosed flawed
  refine ⟨?_, ?_⟩
  · have hreports : (parse {} unclosed).reports ≠ [] := by decide +kernel
    obtain ⟨d, hd⟩ := List.exists_mem_of_ne_nil _ hreports
    rcases parse_cases {} unclosed with ⟨root, hok, _⟩ | ⟨_, _, _, _, _, _, _, _, hnone⟩
    · obtain ⟨hroot, _, hreported⟩ := locations_of_parse {} unclosed
      exact ⟨root, d, hok, hroot root hok, hd, hreported d hd⟩
    · exact absurd hnone hreports
  · have hstopped : (parse {} flawed).outcome.toOption.isSome = false := by decide +kernel
    rcases parse_cases {} flawed with ⟨root, hok, _⟩ | ⟨_, _, _, _, d, _, _, hflaw, _⟩
    · rw [hok] at hstopped
      cases hstopped
    · exact ⟨d, hflaw, (locations_of_parse {} flawed).2.1 d hflaw⟩

end Parser

end MarkupCompiler
