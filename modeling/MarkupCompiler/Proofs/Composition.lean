import MarkupCompiler.Proofs.Ending
import MarkupCompiler.Proofs.Tiling

/-!
# Elements inside of an element

An element is read the same inside of another one as alone, but for its kind and for where it
stands: all its positions are counted on from the text before it (`NodeLayout.shift`). So the roots
of some texts are the children of an element that is written around these texts (`parse_wrap`).
-/

namespace MarkupCompiler

open Text Lexeme

/-- A position of a text that `front` is put before; only on the first line does its column move. -/
def Position.shift (front : Text) (p : Position) : Position where
  offset := p.offset + byteSize front
  line := p.line + front.count '\n'
  column :=
    if p.line = 1 then p.column + (front.reverse.takeWhile (· != '\n')).length else p.column

def Location.shift (front : Text) (l : Location) : Location where
  start := l.start.shift front
  stop := l.stop.shift front

def Attribute.shift (front : Text) (a : Attribute) : Attribute :=
  { a with location := a.location.shift front }

def TextRun.shift (front : Text) (run : TextRun) : TextRun :=
  { run with location := run.location.shift front }

def Head.shift (front : Text) (h : Head) : Head :=
  { h with
    attributes := h.attributes.map (Attribute.shift front)
    location := h.location.shift front }

mutual

/-- The node of a text that `front` is put before. -/
def Node.shift (front : Text) : Node → Node
  | .element head children => .element (head.shift front) (Node.shiftList front children)
  | .text run => .text (run.shift front)

def Node.shiftList (front : Text) : List Node → List Node
  | [] => []
  | node :: nodes => node.shift front :: Node.shiftList front nodes

end

/-- Texts with their roots, as the children of an element that has them after `front`. -/
def Element.placed (front : Text) : List (Text × Element) → List Node
  | [] => []
  | (text, root) :: parts =>
    ({ root with kind := .element } : Element).toNode.shift front :: placed (front ++ text) parts

theorem Position.shift_next {p : Position} (hline : p.line ≠ 0) (front : Text) (c : Char) :
    (p.next c).shift front = (p.shift front).next c := by
  by_cases hc : c = '\n'
  · -- the line that begins here is not the first one, so that its columns stay
    have hlater : p.line + 1 ≠ 1 := by omega
    simp only [next, shift, hc, if_true, hlater, if_false, mk.injEq, and_true]
    omega
  · simp only [next, shift, hc, if_false, mk.injEq, true_and]
    split <;> omega

theorem Position.shift_after (front before : Text) :
    (after before).shift front = after (front ++ before) := by
  induction before using List.reverseRecOn with
  | nil => simp [after, shift, Nat.add_comm]
  | append_singleton before c ih =>
    have hline : (after before).line ≠ 0 := by simp [after]
    rw [← next_after, shift_next hline, ih, next_after, List.append_assoc]

theorem Location.shift_between (front before text : Text) :
    (between before text).shift front = between (front ++ before) text := by
  rw [shift, start_between, stop_between, Position.shift_after, Position.shift_after, between,
    List.append_assoc]

namespace Parser

/-- The whole of a text is one element, of which nothing is reported. -/
structure ReadsWhole (g : Grammar) (text : Text) (root : Element) : Prop where
  parsed : (parse g text).outcome = .ok root
  silent : (parse g text).reports = []
  not_empty : root.isEmptyRoot = false
  covers : root.location.range = (0, byteSize text)

variable {g : Grammar}

/-! ### Layouts after more text -/

theorem AttributesLayout.shift {before after text : Text} {attributes : List Attribute}
    (hlayout : AttributesLayout g after before attributes text) (front : Text) :
    AttributesLayout g after (front ++ before) (attributes.map (Attribute.shift front)) text := by
  induction hlayout with
  | nil => exact .nil _
  | @cons before gap raw text attributes hgap hraw hread _ ih =>
    have hfirst : (Attribute.read g (before ++ gap) raw).shift front =
        .read g (front ++ before ++ gap) raw := by
      rw [Attribute.shift, Attribute.read, Location.shift_between, List.append_assoc]
      rfl
    rw [← List.append_assoc] at ih
    rw [List.map_cons, hfirst]
    exact .cons hgap hraw hread ih

theorem HeadLayout.shift {before after tag : Text} {head : Head}
    (hlayout : HeadLayout g before after head tag) (front : Text) :
    HeadLayout g (front ++ before) after (head.shift front) tag := by
  cases hlayout with
  | intro hname hstop hattributes hgap =>
    have hshifted := hattributes.shift front
    rw [← List.append_assoc] at hshifted
    exact .intro hname hstop hshifted hgap

theorem TextLayout.shift {before after text : Text} {run : TextRun}
    (hlayout : TextLayout g before after run text) (front : Text) :
    TextLayout g (front ++ before) after (run.shift front) text := by
  cases hlayout with
  | plain hcontent =>
    rw [TextRun.shift, TextRun.readPlain, Location.shift_between]
    exact .plain hcontent
  | interpolation hbody =>
    rw [TextRun.shift, TextRun.readInterpolation, Location.shift_between]
    exact .interpolation hbody

mutual

/-- A node lies in its text the same way when there is more text before. -/
theorem NodeLayout.shift {kind : ElementKind} {before after text : Text} {node : Node}
    (front : Text) :
    NodeLayout g kind before after node text →
      NodeLayout g kind (front ++ before) after (node.shift front) text
  | .text hlayout => by
    rw [Node.shift]
    exact .text (hlayout.shift front)
  | .selfClosed hhead hkind hlocation => by
    rw [Node.shift, Node.shiftList]
    refine .selfClosed (hhead.shift front) hkind ?_
    rw [Head.shift, hlocation, Location.shift_between]
  | .closed hhead hkind hlocation hchildren hgap hname hblanks => by
    have hshifted := hchildren.shift front
    rw [← List.append_assoc] at hshifted
    rw [Node.shift]
    refine .closed (hhead.shift front) hkind ?_ hshifted hgap hname hblanks
    rw [Head.shift, hlocation, Location.shift_between]

theorem NodesLayout.shift {before after text : Text} {nodes : List Node} (front : Text) :
    NodesLayout g before after nodes text →
      NodesLayout g (front ++ before) after (Node.shiftList front nodes) text
  | .nil _ _ => by
    rw [Node.shiftList]
    exact .nil _ _
  | .cons hgap hnode hlater => by
    have hfirst := hnode.shift front
    have hmore := hlater.shift front
    rw [← List.append_assoc] at hfirst hmore
    rw [Node.shiftList]
    exact .cons hgap hfirst hmore

end

/-- An element lies in its text the same way whatever its kind. -/
theorem NodeLayout.withKind {kind : ElementKind} {before after text : Text} {e : Element}
    (hlayout : NodeLayout g kind before after e.toNode text) (kind' : ElementKind) :
    NodeLayout g kind' before after ({ e with kind := kind' } : Element).toNode text := by
  have hheads : ∀ {after tag}, HeadLayout g before after e.toHead tag →
      HeadLayout g before after { e.toHead with kind := kind' } tag := by
    rintro after tag ⟨hname, hstop, hattributes, hgap⟩
    exact .intro hname hstop hattributes hgap
  obtain ⟨head, children⟩ := e
  cases hlayout with
  | selfClosed hhead _ hlocation => exact .selfClosed (hheads hhead) rfl hlocation
  | closed hhead _ hlocation hchildren hgap hname hblanks =>
    exact .closed (hheads hhead) rfl hlocation hchildren hgap hname hblanks

theorem NodeLayout.begins_angle {kind : ElementKind} {before after text : Text} {e : Element}
    (hlayout : NodeLayout g kind before after e.toNode text) : ['<'] <+: text := by
  obtain ⟨head, children⟩ := e
  cases hlayout with
  | selfClosed hhead => exact hhead.begins_angle _
  | closed hhead => exact hhead.begins_angle _

/-! ### Texts that are one element -/

theorem ReadsWhole.layout {text : Text} {root : Element} (hwhole : ReadsWhole g text root) :
    NodeLayout g .root [] [] root.toNode text := by
  rcases exists_layout_of_silent hwhole.parsed hwhole.silent with
    rfl | ⟨before, inner, after, rfl, hlayout⟩
  · cases hwhole.not_empty
  · have hlocation : root.location = .between before inner := hlayout.location_eq
    have hcovers := hwhole.covers
    rw [hlocation] at hcovers
    obtain ⟨hstart, hstop⟩ := Prod.mk.inj hcovers
    obtain rfl : before = [] := byteSize_eq_zero_iff.mp hstart
    obtain rfl : after = [] :=
      byteSize_eq_zero_iff.mp (by simpa [Location.between, Position.after] using hstop)
    simpa using hlayout

theorem exists_readsWhole {text : Text}
    (hroot : (parse g text).outcome.toOption.map
      (fun root => (root.isEmptyRoot, root.location.range)) = some (false, 0, byteSize text))
    (hreports : (parse g text).reports = []) : ∃ root, ReadsWhole g text root := by
  obtain ⟨root, hparse, hroot⟩ := Traced.exists_ok_of_map hroot
  obtain ⟨hempty, hcovers⟩ := Prod.mk.inj hroot
  exact ⟨root, hparse, hreports, hempty, hcovers⟩

theorem begins_angle_parts {parts : List (Text × Element)}
    (hparts : ∀ part ∈ parts, ReadsWhole g part.1 part.2) {after : Text}
    (hafter : ['<'] <+: after) : ['<'] <+: parts.flatMap Prod.fst ++ after := by
  cases parts with
  | nil => exact hafter
  | cons part parts =>
    have hfirst := (hparts part List.mem_cons_self).layout.begins_angle
    rw [List.flatMap_cons, List.append_assoc]
    exact hfirst.trans (List.prefix_append _ _)

theorem nodesLayout_placed {parts : List (Text × Element)} (hangle : '<' ∉ g.delimiters.opening)
    (hparts : ∀ part ∈ parts, ReadsWhole g part.1 part.2) (front : Text) {after : Text}
    (hafter : ['<'] <+: after) :
    NodesLayout g front after (Element.placed front parts) (parts.flatMap Prod.fst) := by
  induction parts generalizing front with
  | nil => exact .nil front after
  | cons part parts ih =>
    rw [List.forall_mem_cons] at hparts
    -- a tag follows each part now, and nothing in the part can see past that
    have hagrees : Agrees g [] (parts.flatMap Prod.fst ++ after) :=
      agrees_of_tag (.inl rfl) (.inr (begins_angle_parts hparts.2 hafter))
        fun hmem => absurd hmem hangle
    have hfirst := ((hparts.1.layout.withKind .element).shift front).replay hagrees
    exact .cons blank_nil hfirst (ih hparts.2 (front ++ part.1))

theorem headLayout_name (before after : Text) {name : Text} (hname : IsTagName name)
    (kind : ElementKind) (location : Location) :
    HeadLayout g before (closing false ++ after) { kind, tagName := name, location }
      ('<' :: name) := by
  have hlayout : HeadLayout g before (closing false ++ after) { kind, tagName := name, location }
      ('<' :: (name ++ ([] ++ []))) :=
    .intro hname (stops_cons.mpr rfl) (.nil _) blank_nil
  simpa only [List.append_nil] using hlayout

/-- **Composition.** The roots of texts that are one element each are the children of an element
that is written around them; each is an element now, and counted on from all the text before it. -/
theorem parse_wrap {name : Text} {parts : List (Text × Element)}
    (hangle : '<' ∉ g.delimiters.opening) (hname : IsTagName name)
    (hparts : ∀ part ∈ parts, ReadsWhole g part.1 part.2) :
    let start := '<' :: (name ++ ['>'])
    let source := start ++ (parts.flatMap Prod.fst ++ endTag name [])
    (parse g source).outcome = .ok
        { kind := .root, tagName := name, attributes := [], location := .between [] source
          children := Element.placed start parts } ∧
      (parse g source).reports = [] := by
  intro start source
  let root : Element :=
    { kind := .root, tagName := name, location := .between [] source
      children := Element.placed start parts }
  have hsource : source =
      '<' :: name ++ (closing false ++ (parts.flatMap Prod.fst ++ ([] ++ endTag name []))) := by
    simp [source, start, closing]
  have hinner : NodesLayout g start ([] ++ (endTag name [] ++ [])) root.children
      (parts.flatMap Prod.fst) := nodesLayout_placed hangle hparts start ⟨_, rfl⟩
  have hlayout : NodeLayout g .root [] [] root.toNode source := by
    have hlocation : root.location = .between [] source := rfl
    rw [hsource] at hlocation ⊢
    exact .closed (headLayout_name [] _ hname .root _) rfl hlocation hinner blank_nil hname
      blank_nil
  obtain ⟨hok, hreports⟩ := parse_of_layout blank_nil hlayout
  rw [checkTrailing_reports_of_blank _ blank_nil] at hreports
  rw [List.append_nil] at hok hreports
  exact ⟨hok, hreports⟩

/-- Two elements with line feeds in them, the second of which begins on the last line of the
first. -/
theorem parse_wrap_list :
    let texts := ["<p :a=b>é\n</p>".toList, "<li>\n\x7b\x7b x \x7d\x7d</li>".toList]
    let source := "<ul>".toList ++ (texts.flatten ++ "</ul>".toList)
    ∃ first second, ReadsWhole {} texts[0] first ∧ ReadsWhole {} texts[1] second ∧
      (parse {} source).outcome = .ok
        { kind := .root, tagName := "ul".toList, location := .between [] source
          children :=
            [({ first with kind := .element } : Element).toNode.shift "<ul>".toList,
              ({ second with kind := .element } : Element).toNode.shift
                ("<ul>".toList ++ texts[0])] } ∧
      (parse {} source).reports = [] := by
  intro texts source
  obtain ⟨first, hfirst⟩ : ∃ root, ReadsWhole {} texts[0] root :=
    exists_readsWhole (by decide +kernel) (by decide +kernel)
  obtain ⟨second, hsecond⟩ : ∃ root, ReadsWhole {} texts[1] root :=
    exists_readsWhole (by decide +kernel) (by decide +kernel)
  have hparts : ∀ part ∈ [(texts[0], first), (texts[1], second)],
      ReadsWhole {} part.1 part.2 := by
    simp [hfirst, hsecond]
  have hname : IsTagName "ul".toList := by decide
  exact ⟨first, second, hfirst, hsecond, parse_wrap (by decide) hname hparts⟩

end Parser

end MarkupCompiler
