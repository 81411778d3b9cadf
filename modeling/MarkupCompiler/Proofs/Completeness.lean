import MarkupCompiler.Proofs.Outcome

/-!
# What is laid out is read

Nodes that lie in a text are read one after another into the innermost open element
(`NodesLayout.rounds`), and an element that lies in a text is complete after its last step
(`NodeLayout.completes`). So a root that lies in a source is the tree of that source, whatever
follows it (`parse_of_layout`).
-/

namespace MarkupCompiler.Parser

open Text Lexeme Traced

variable {g : Grammar}

theorem HeadLayout.stops_isBlank {before after tag : Text} {head : Head}
    (hlayout : HeadLayout g before after head tag) (tail : Text) : Stops isBlank (tag ++ tail) := by
  cases hlayout
  exact stops_cons.mpr rfl

theorem TextLayout.stops_isBlank {before after text : Text} {run : TextRun}
    (hlayout : TextLayout g before after run text) (tail : Text) :
    Stops isBlank (text ++ tail) := by
  cases hlayout with
  | plain hcontent => exact (stops_append_iff hcontent.ne_nil).mpr hcontent.not_blank
  | interpolation hbody =>
    rw [List.append_assoc]
    exact (stops_append_iff hbody.ne_nil).mpr hbody.not_blank

theorem rounds_of_textLayout {before gap after text : Text} {run : TextRun} (hgap : Blank gap)
    (hlayout : TextLayout g (before ++ gap) after run text) (frame : Frame) (frames : List Frame) :
    ∃ log, Rounds (step g)
      { cursor := .past before (gap ++ (text ++ after)), frames := frame :: frames } log
      { cursor := .past (before ++ (gap ++ text)) after
        frames := frame.add (.text run) :: frames } := by
  have hstep := step_text (frame :: frames) hlayout
  rw [← step_gap _ hgap (hlayout.stops_isBlank after), List.append_assoc] at hstep
  exact ⟨_, .single hstep⟩

/-- A start tag that is not closed at once opens an element, which ends where the tag does. -/
theorem rounds_of_headLayout {before gap after tag : Text} {head : Head} (frames : List Frame)
    (hgap : Blank gap) (hhead : HeadLayout g (before ++ gap) (closing false ++ after) head tag)
    (hkind : head.kind = kindWithin frames) :
    ∃ log, Rounds (step g)
      { cursor := .past before (gap ++ (tag ++ (closing false ++ after))), frames } log
      { cursor := .past (before ++ gap ++ (tag ++ closing false)) after
        frames :=
          { head := { head with location := .between (before ++ gap) (tag ++ closing false) } } ::
            frames } := by
  have hopen := hhead.relocate (.between (before ++ gap) (tag ++ closing false))
  have hstep := step_startTag frames hopen hkind rfl
  rw [← step_gap frames hgap (hhead.stops_isBlank _)] at hstep
  exact ⟨_, .single hstep⟩

/-- An end tag moves the end of the innermost open element, and completes it. -/
theorem step_completes {before tag inner gap name blanks after : Text} {head : Head}
    (children : List Node) (frames : List Frame) (hgap : Blank gap) (hname : IsTagName name)
    (hblanks : Blank blanks)
    (hlocation : head.location =
      .between before (tag ++ (closing false ++ (inner ++ (gap ++ endTag name blanks))))) :
    ∃ last, last.filterMap Event.reported? = [] ∧ step g
        { cursor := .past (before ++ (tag ++ closing false) ++ inner)
            (gap ++ (endTag name blanks ++ after))
          frames :=
            { head := { head with location := .between before (tag ++ closing false) }
              children := children.reverse } :: frames } =
      ⟨last ++ (complete ⟨head, children⟩ (.past (before ++
            (tag ++ (closing false ++ (inner ++ (gap ++ endTag name blanks))))) after) frames).log,
        (complete ⟨head, children⟩ (.past (before ++
            (tag ++ (closing false ++ (inner ++ (gap ++ endTag name blanks))))) after)
          frames).outcome⟩ := by
  have hstop : Stops isBlank (endTag name blanks ++ after) := stops_cons.mpr rfl
  have hplace : before ++ (tag ++ closing false) ++ inner ++ gap ++ endTag name blanks =
      before ++ (tag ++ (closing false ++ (inner ++ (gap ++ endTag name blanks)))) := by simp
  rw [step_gap _ hgap hstop, step_endTag_cons g _ after _ frames hname hblanks, noteMismatch_eq,
    Traced.ok_bind, hplace]
  have helement : (⟨head, children⟩ : Element) = ⟨⟨head.kind, head.tagName, head.attributes,
      .between before (tag ++ (closing false ++ (inner ++ (gap ++ endTag name blanks))))⟩,
      children.reverse.reverse⟩ := by
    rw [← hlocation, List.reverse_reverse]
  rw [helement]
  refine ⟨_, ?_, rfl⟩
  split <;> rfl

mutual

/-- The last step of an element completes it, among whatever elements are open. -/
theorem NodeLayout.completes {before gap after text : Text} {head : Head} {children : List Node}
    (frames : List Frame) (hgap : Blank gap) :
    NodeLayout g (kindWithin frames) (before ++ gap) after (.element head children) text →
      ∃ log s last,
        Rounds (step g) { cursor := .past before (gap ++ (text ++ after)), frames } log s ∧
        last.filterMap Event.reported? = [] ∧ step g s =
          ⟨last ++ (complete ⟨head, children⟩ (.past (before ++ gap ++ text) after) frames).log,
            (complete ⟨head, children⟩ (.past (before ++ gap ++ text) after) frames).outcome⟩
  | .selfClosed hhead hkind hlocation => by
    have hstep := step_startTag frames hhead hkind hlocation
    rw [← step_gap frames hgap (hhead.stops_isBlank _)] at hstep
    refine ⟨[], _, .startTag head.tagName head.kind :: head.attributes.map Attribute.event,
      .refl _, reported?_events _, ?_⟩
    rw [List.append_assoc _ _ after]
    exact hstep
  | .closed hhead hkind hlocation hchildren hgap' hname hblanks => by
    obtain ⟨opened, hopened⟩ := rounds_of_headLayout frames hgap hhead hkind
    -- while it is open, the element is located at its start tag alone
    obtain ⟨inside, hinside⟩ := hchildren.rounds { head := { head with location := _ } } frames
    rw [List.append_nil] at hinside
    obtain ⟨last, hsilent, hlast⟩ := step_completes children frames hgap' hname hblanks hlocation
    refine ⟨opened ++ inside, _, last, ?_, hsilent, hlast⟩
    simpa using hopened.trans hinside
termination_by sizeOf children + 1

theorem NodesLayout.rounds {before after text : Text} {nodes : List Node} (frame : Frame)
    (frames : List Frame) :
    NodesLayout g before after nodes text →
      ∃ log, Rounds (step g)
        { cursor := .past before (text ++ after), frames := frame :: frames } log
        { cursor := .past (before ++ text) after
          frames := { frame with children := nodes.reverse ++ frame.children } :: frames }
  | .nil _ _ => by
    rw [List.append_nil]
    exact ⟨[], .refl _⟩
  | @NodesLayout.cons _ _ _ gap text rest node nodes hgap hnode hlater => by
    have hfirst : ∃ log, Rounds (step g)
        { cursor := .past before (gap ++ (text ++ (rest ++ after))), frames := frame :: frames } log
        { cursor := .past (before ++ (gap ++ text)) (rest ++ after)
          frames := frame.add node :: frames } := by
      match node, hnode with
      | .text run, .text hlayout => exact rounds_of_textLayout hgap hlayout frame frames
      | .element head children, hnode =>
        obtain ⟨log, s, last, hrounds, _, hlast⟩ :=
          NodeLayout.completes (frame :: frames) hgap hnode
        rw [List.append_assoc] at hlast
        exact ⟨_, hrounds.trans (.single hlast)⟩
    obtain ⟨log, hfirst⟩ := hfirst
    obtain ⟨later, hlater⟩ := hlater.rounds (frame.add node) frames
    exact ⟨log ++ later, by simpa [Frame.add] using hfirst.trans hlater⟩
termination_by sizeOf nodes

end

/-- A root that lies in a source after blanks is its tree; what follows it is only checked. -/
theorem parse_of_layout {before text after : Text} {root : Element} (hbefore : Blank before)
    (hlayout : NodeLayout g .root before after root.toNode text) :
    (parse g (before ++ (text ++ after))).outcome = .ok root ∧
      (parse g (before ++ (text ++ after))).reports =
        (checkTrailing (.past (before ++ text) after)).reports := by
  have hroot : NodeLayout g (kindWithin []) ([] ++ before) after
      (.element root.toHead root.children) text := hlayout
  obtain ⟨log, s, last, hrounds, hlast, hstep⟩ := NodeLayout.completes [] hbefore hroot
  rw [complete_nil] at hstep
  obtain ⟨hok, hreports⟩ := parse_of_rounds hrounds hstep
  refine ⟨hok, ?_⟩
  rw [hreports, List.filterMap_append, hlast]
  rfl

theorem checkTrailing_reports_of_blank (before : Text) {blanks : Text} (hblanks : Blank blanks) :
    (checkTrailing (.past before blanks)).reports = [] := by
  obtain ⟨gap, ahead, rfl, _, hstops, hcheck⟩ := checkTrailing_cases before blanks
  have hahead : Blank ahead := fun c hc => hblanks c (List.mem_append_right gap hc)
  rw [← List.append_nil ahead] at hstops
  obtain rfl := hahead.eq_nil_of_stops hstops
  rcases hcheck with ⟨name, blanks, tail, hsplit, _⟩ | ⟨_, hcheck⟩
  · cases hsplit
  · rw [hcheck]
    rfl

end MarkupCompiler.Parser
