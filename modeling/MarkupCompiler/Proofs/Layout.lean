import MarkupCompiler.Proofs.Steps

/-!
# How a tree lies in its source

A node that was read lies in the text between `before` and `after`, and its location says so. The
text that a parse has consumed is laid out too, as the stack of open elements: each holds its start
tag and the children that are complete, and the next one begins right after these.
-/

namespace MarkupCompiler.Parser

open Text Lexeme

mutual

/-- A node in the text between `before` and `after`; an element has the given kind. -/
inductive NodeLayout (g : Grammar) : ElementKind → Text → Text → Node → Text → Prop
  | text {kind : ElementKind} {before after text : Text} {run : TextRun}
      (hlayout : TextLayout g before after run text) :
      NodeLayout g kind before after (.text run) text
  | selfClosed {kind : ElementKind} {before after tag : Text} {head : Head}
      (hhead : HeadLayout g before (closing true ++ after) head tag) (hkind : head.kind = kind)
      (hlocation : head.location = .between before (tag ++ closing true)) :
      NodeLayout g kind before after (.element head []) (tag ++ closing true)
  | closed {kind : ElementKind} {before after tag inner gap name blanks : Text} {head : Head}
      {children : List Node}
      (hhead : HeadLayout g before
        (closing false ++ (inner ++ (gap ++ (endTag name blanks ++ after)))) head tag)
      (hkind : head.kind = kind)
      (hlocation : head.location =
        .between before (tag ++ (closing false ++ (inner ++ (gap ++ endTag name blanks)))))
      (hchildren : NodesLayout g (before ++ (tag ++ closing false))
        (gap ++ (endTag name blanks ++ after)) children inner)
      (hgap : Blank gap) (hname : IsTagName name) (hblanks : Blank blanks) :
      NodeLayout g kind before after (.element head children)
        (tag ++ (closing false ++ (inner ++ (gap ++ endTag name blanks))))

/-- Nodes one after another, in the text between `before` and `after`. -/
inductive NodesLayout (g : Grammar) : Text → Text → List Node → Text → Prop
  | nil (before after : Text) : NodesLayout g before after [] []
  | cons {before after gap text rest : Text} {node : Node} {nodes : List Node} (hgap : Blank gap)
      (hnode : NodeLayout g .element (before ++ gap) (rest ++ after) node text)
      (hlater : NodesLayout g (before ++ (gap ++ text)) after nodes rest) :
      NodesLayout g before after (node :: nodes) (gap ++ (text ++ rest))

end

/-- The open elements, innermost first, in the consumed text before `after`. -/
inductive FramesLayout (g : Grammar) : List Frame → Text → Text → Prop
  | nil (before after : Text) : FramesLayout g [] before after
  | cons {frames : List Frame} {outer gap tag inner after : Text} {head : Head}
      {children : List Node}
      (houter : FramesLayout g frames outer (gap ++ (tag ++ (closing false ++ (inner ++ after)))))
      (hgap : Blank gap)
      (hhead : HeadLayout g (outer ++ gap) (closing false ++ (inner ++ after)) head tag)
      (hkind : head.kind = kindWithin frames)
      (hlocation : head.location = .between (outer ++ gap) (tag ++ closing false))
      (hchildren : NodesLayout g (outer ++ gap ++ (tag ++ closing false)) after
        children.reverse inner) :
      FramesLayout g ({ head, children } :: frames)
        (outer ++ (gap ++ (tag ++ (closing false ++ inner)))) after

variable {g : Grammar}

/-- A start tag is laid out the same wherever its element ends. -/
theorem HeadLayout.relocate {before after tag : Text} {head : Head}
    (hlayout : HeadLayout g before after head tag) (location : Location) :
    HeadLayout g before after { head with location } tag := by
  cases hlayout with
  | intro hname hstop hattributes hgap => exact .intro hname hstop hattributes hgap

theorem NodesLayout.snoc {before after gap text inner : Text} {nodes : List Node} {node : Node}
    (hnodes : NodesLayout g before (gap ++ (text ++ after)) nodes inner) (hgap : Blank gap)
    (hnode : NodeLayout g .element (before ++ (inner ++ gap)) after node text) :
    NodesLayout g before after (nodes ++ [node]) (inner ++ (gap ++ text)) := by
  induction nodes generalizing before inner with
  | nil =>
    cases hnodes
    have hlast : NodesLayout g before after [node] (gap ++ (text ++ [])) :=
      .cons hgap (by simpa using hnode) (.nil _ after)
    simpa using hlast
  | cons first nodes ih =>
    cases hnodes with
    | @cons _ _ gap' text' rest _ _ hgap' hfirst hlater =>
      have hmore := ih hlater (by simpa using hnode)
      have hall : NodesLayout g before after (first :: (nodes ++ [node]))
          (gap' ++ (text' ++ (rest ++ (gap ++ text)))) :=
        .cons hgap' (by simpa using hfirst) hmore
      simpa using hall

/-- A start tag opens an element inside of the open ones. -/
theorem FramesLayout.push {frames : List Frame} {before gap tag after : Text} {head : Head}
    (hframes : FramesLayout g frames before (gap ++ (tag ++ (closing false ++ after))))
    (hgap : Blank gap) (hhead : HeadLayout g (before ++ gap) (closing false ++ after) head tag)
    (hkind : head.kind = kindWithin frames)
    (hlocation : head.location = .between (before ++ gap) (tag ++ closing false)) :
    FramesLayout g ({ head } :: frames) (before ++ (gap ++ (tag ++ closing false))) after := by
  have hpushed : FramesLayout g ({ head } :: frames)
      (before ++ (gap ++ (tag ++ (closing false ++ [])))) after :=
    .cons hframes hgap hhead hkind hlocation (.nil _ after)
  simpa using hpushed

/-- A complete node extends the innermost open element. -/
theorem FramesLayout.add {frame : Frame} {frames : List Frame} {before gap text after : Text}
    {node : Node} (hframes : FramesLayout g (frame :: frames) before (gap ++ (text ++ after)))
    (hgap : Blank gap) (hnode : NodeLayout g .element (before ++ gap) after node text) :
    FramesLayout g (frame.add node :: frames) (before ++ (gap ++ text)) after := by
  cases hframes with
  | @cons _ outer gap' tag inner _ head children houter hgap' hhead hkind hlocation hchildren =>
    have hmore := hchildren.snoc hgap (by simpa using hnode)
    rw [← List.reverse_cons] at hmore
    have hadded : FramesLayout g ({ head, children := node :: children } :: frames)
        (outer ++ (gap' ++ (tag ++ (closing false ++ (inner ++ (gap ++ text)))))) after :=
      .cons (by simpa using houter) hgap' (by simpa using hhead) hkind hlocation hmore
    simpa [Frame.add] using hadded

/-- An end tag completes the innermost open element, right after the ones around it. -/
theorem FramesLayout.close {frame : Frame} {frames : List Frame}
    {before gap name blanks after : Text}
    (hframes : FramesLayout g (frame :: frames) before (gap ++ (endTag name blanks ++ after)))
    (hgap : Blank gap) (hname : IsTagName name) (hblanks : Blank blanks) :
    ∃ outer space text, before ++ (gap ++ endTag name blanks) = outer ++ (space ++ text) ∧
      Blank space ∧ FramesLayout g frames outer (space ++ (text ++ after)) ∧
      NodeLayout g (kindWithin frames) (outer ++ space) after
        (.element
          { frame.head with
            location := ⟨frame.head.location.start, .after (before ++ gap ++ endTag name blanks)⟩ }
          frame.children.reverse) text := by
  cases hframes with
  | @cons _ outer space tag inner _ head children houter hspace hhead hkind hlocation hchildren =>
    refine ⟨outer, space, tag ++ (closing false ++ (inner ++ (gap ++ endTag name blanks))),
      by simp, hspace, by simpa using houter, ?_⟩
    refine .closed (hhead.relocate _) hkind ?_ hchildren hgap hname hblanks
    simp [hlocation, Location.between]

end MarkupCompiler.Parser
