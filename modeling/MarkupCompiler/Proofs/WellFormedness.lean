import MarkupCompiler.Proofs.Printing
import Mathlib.Data.List.Chain

/-!
# Trees that were read are well-formed

Whatever is reported, a tree that was read has one root, elements with proper names and attributes
inside of it, and texts that are apart: plain text goes on to the next tag or opening delimiter, so
that no plain text follows it (`wellFormed_of_parse`). The open elements of a parse are well-formed
already, and folding them together keeps that.
-/

namespace MarkupCompiler

open Text Lexeme

/-- Plain text neither is empty nor begins or holds what ends it; an expression is trimmed and holds
no closing delimiter. -/
structure TextRun.WellFormed (g : Grammar) (t : TextRun) : Prop where
  plain : t.kind = .plain → t.content ≠ [] ∧ '<' ∉ t.content ∧ Stops isBlank t.content ∧
    (g.delimiters.opening ≠ [] → ¬ g.delimiters.opening <+: t.content)
  interpolation : t.kind = .interpolation → trim t.content = t.content ∧
    (g.delimiters.closing ≠ [] → ¬ g.delimiters.closing <:+: t.content)

/-- A tree as it is read: the outermost element has the given kind, and those inside of it are
plain elements. -/
inductive Node.WellFormed (g : Grammar) : ElementKind → Node → Prop
  | text {kind : ElementKind} {run : TextRun} (hrun : run.WellFormed g) :
      Node.WellFormed g kind (.text run)
  | element {kind : ElementKind} {head : Head} {children : List Node}
      (hhead : head.Printable g kind)
      (hchildren : ∀ node ∈ children, Node.WellFormed g .element node)
      (hapart : children.IsChain fun first next => ¬ (first.IsPlain ∧ next.IsPlain)) :
      Node.WellFormed g kind (.element head children)

/-- One more element at the end of the children stands next to no plain text of its own. -/
theorem Node.WellFormed.snoc {g : Grammar} {kind : ElementKind} {head inner : Head}
    {children nodes : List Node} (hnode : Node.WellFormed g kind (.element head children))
    (hlast : Node.WellFormed g .element (.element inner nodes)) :
    Node.WellFormed g kind (.element head (children ++ [.element inner nodes])) := by
  cases hnode with
  | element hhead hchildren hapart =>
    refine .element hhead ?_ (List.isChain_append.mpr ⟨hapart, .singleton _, ?_⟩)
    · exact List.forall_mem_append.mpr ⟨hchildren, List.forall_mem_singleton.mpr hlast⟩
    · rintro first _ next hnext ⟨_, hplain⟩
      obtain rfl : Node.element inner nodes = next := by simpa using hnext
      exact hplain

namespace Parser

variable {g : Grammar}

/-! ### What lies in a text is well-formed -/

theorem TextLayout.wellFormed {before after text : Text} {run : TextRun}
    (hlayout : TextLayout g before after run text) : run.WellFormed g := by
  cases hlayout with
  | plain hcontent =>
    refine ⟨fun _ => ⟨hcontent.ne_nil, hcontent.no_angle, hcontent.not_blank, ?_⟩, nofun⟩
    intro hne hbegins
    exact hcontent.not_opening hne (hbegins.trans (List.prefix_append _ _))
  | @interpolation body hbody =>
    refine ⟨nofun, fun _ => ⟨trim_trim body, ?_⟩⟩
    intro hne hinside
    exact hbody.closing_absent.not_isInfix hne (hinside.trans (trim_isInfix body))

theorem AttributesLayout.printable {before after text : Text} {attributes : List Attribute}
    (hlayout : AttributesLayout g after before attributes text) :
    ∀ a ∈ attributes, a.Printable g := by
  induction hlayout with
  | nil => exact List.forall_mem_nil _
  | cons _ hraw _ _ ih =>
    exact List.forall_mem_cons.mpr ⟨⟨hraw, Grammar.isBinding_iff, rfl, rfl⟩, ih⟩

theorem HeadLayout.printable {before after tag : Text} {head : Head} {kind : ElementKind}
    (hlayout : HeadLayout g before after head tag) (hkind : head.kind = kind) :
    head.Printable g kind := by
  cases hlayout with
  | intro hname _ hattributes _ => exact ⟨hkind, hname, hattributes.printable⟩

theorem NodeLayout.plainLayout {kind : ElementKind} {before after text : Text} {node : Node}
    (hlayout : NodeLayout g kind before after node text) (hplain : node.IsPlain) :
    PlainLayout g after text := by
  cases hlayout with
  | text hlayout =>
    cases hlayout with
    | plain hcontent => exact hcontent
    | interpolation => cases hplain
  | selfClosed | closed => cases hplain

/-- Plain text ends before a tag or an opening delimiter, and neither begins plain text. -/
theorem PlainLayout.not_before_plain {content gap next tail : Text}
    (hopening : Stops isBlank g.delimiters.opening) (hgap : Blank gap)
    (hnext : PlainLayout g tail next) : ¬ PlainLayout g (gap ++ (next ++ tail)) content := by
  intro hfirst
  -- what ends plain text does not begin with a blank, so that nothing stands before the next text
  have hbegins : ∀ {pattern : Text}, pattern ≠ [] → Stops isBlank pattern →
      pattern <+: gap ++ (next ++ tail) → pattern <+: next ++ tail := by
    rintro pattern hne hstops ⟨back, hback⟩
    have hhead : Stops isBlank (gap ++ (next ++ tail)) := by
      rw [← hback, stops_append_iff hne]
      exact hstops
    obtain rfl := hgap.eq_nil_of_stops hhead
    exact ⟨back, hback⟩
  rcases hfirst.ends with hnil | hangle | ⟨hne, hopens⟩
  · simp [hnext.ne_nil] at hnil
  · have hhead := hbegins (by simp) (by decide) hangle
    obtain ⟨c, more, rfl⟩ := List.exists_cons_of_ne_nil hnext.ne_nil
    obtain rfl : '<' = c := by simpa using hhead
    exact hnext.no_angle (by simp)
  · exact hnext.not_opening hne (hbegins hne hopening hopens)

theorem NodesLayout.apart {before after text : Text} {nodes : List Node}
    (hopening : Stops isBlank g.delimiters.opening)
    (hlayout : NodesLayout g before after nodes text) :
    nodes.IsChain fun first next => ¬ (first.IsPlain ∧ next.IsPlain) := by
  induction nodes generalizing before text with
  | nil => exact .nil
  | cons first nodes ih =>
    cases hlayout with
    | cons _ hfirst hlater =>
      cases nodes with
      | nil => exact .singleton first
      | cons next nodes =>
        refine List.isChain_cons_cons.mpr ⟨?_, ih hlater⟩
        rintro ⟨hplain, hnextPlain⟩
        cases hlater with
        | cons hgap hnext _ =>
          have hcontent := hfirst.plainLayout hplain
          rw [List.append_assoc, List.append_assoc] at hcontent
          exact (hnext.plainLayout hnextPlain).not_before_plain hopening hgap hcontent

mutual

theorem NodeLayout.wellFormed {kind : ElementKind} {before after text : Text} {node : Node}
    (hopening : Stops isBlank g.delimiters.opening) :
    NodeLayout g kind before after node text → node.WellFormed g kind
  | .text hlayout => .text hlayout.wellFormed
  | .selfClosed hhead hkind _ => .element (hhead.printable hkind) (List.forall_mem_nil _) .nil
  | .closed hhead hkind _ hchildren _ _ _ =>
    .element (hhead.printable hkind) (hchildren.wellFormed hopening) (hchildren.apart hopening)

theorem NodesLayout.wellFormed {before after text : Text} {nodes : List Node}
    (hopening : Stops isBlank g.delimiters.opening) :
    NodesLayout g before after nodes text → ∀ node ∈ nodes, node.WellFormed g .element
  | .nil _ _ => List.forall_mem_nil _
  | .cons _ hnode hlater =>
    List.forall_mem_cons.mpr ⟨hnode.wellFormed hopening, hlater.wellFormed hopening⟩

end

/-! ### Folding open elements together -/

/-- An open element is well-formed as it stands. -/
theorem FramesLayout.wellFormed_close {frame : Frame} {frames : List Frame} {before after : Text}
    (hopening : Stops isBlank g.delimiters.opening)
    (hlayout : FramesLayout g (frame :: frames) before after) :
    frame.close.toNode.WellFormed g (kindWithin frames) := by
  cases hlayout with
  | cons _ _ hhead hkind _ hchildren =>
    exact .element (hhead.printable hkind) (hchildren.wellFormed hopening)
      (hchildren.apart hopening)

theorem FramesLayout.wellFormed_enclose {frames : List Frame} {before after : Text} {e : Element}
    (hopening : Stops isBlank g.delimiters.opening) (hlayout : FramesLayout g frames before after)
    (he : e.toNode.WellFormed g (kindWithin frames)) :
    (enclose e frames).toNode.WellFormed g .root := by
  induction frames generalizing before after e with
  | nil => exact he
  | cons frame frames ih =>
    have hadded : (frame.add e.toNode).close.toNode.WellFormed g (kindWithin frames) := by
      have hsnoc := (hlayout.wellFormed_close hopening).snoc he
      simpa [Frame.add, Frame.close, Element.toNode] using hsnoc
    cases hlayout with
    | cons houter _ _ _ _ _ => exact ih houter hadded

/-- **Well-formed trees.** A parse that returns a tree returns the root of a template without any
element, or a well-formed tree, whatever it reports. -/
theorem wellFormed_of_parse {source : Text} {root : Element}
    (hopening : Stops isBlank g.delimiters.opening)
    (hparse : (parse g source).outcome = .ok root) :
    root = Element.emptyRoot ∨ root.toNode.WellFormed g .root := by
  have hparsed := parsed_of_parse hparse
  -- the form of a tree does not depend on what is reported of it
  generalize (parse g source).reports = reports at hparsed
  cases hparsed with
  | empty | stray => exact .inl rfl
  | complete _ hlayout => exact .inr (hlayout.wellFormed hopening)
  | unfinished _ _ hframes =>
    have hinner := hframes.wellFormed_close hopening
    cases hframes with
    | cons houter _ _ _ _ _ => exact .inr (houter.wellFormed_enclose hopening hinner)

/-- Text stands around the root and half a delimiter in it, one of two attributes is a binding, and
two elements are left open. -/
theorem wellFormed_of_parse_unclosed :
    let source := "x <ul :a='b' c> y\x7b z \x7b\x7b d \x7d\x7d<li>\x7b<br/> e ".toList
    ∃ root, (parse {} source).outcome = .ok root ∧ (parse {} source).reports ≠ [] ∧
      root.attributes.map (·.isDynamic) = [true, false] ∧ root ≠ Element.emptyRoot ∧
      root.toNode.WellFormed {} .root := by
  intro source
  have hflags : (parse {} source).outcome.toOption.map
      (fun root => root.attributes.map (·.isDynamic)) = some [true, false] := by
    decide +kernel
  have hreports : (parse {} source).reports ≠ [] := by decide +kernel
  obtain ⟨root, hparse, hroot⟩ := Traced.exists_ok_of_map hflags
  have hne : root ≠ Element.emptyRoot := by
    rintro rfl
    cases hroot
  have htree := (wellFormed_of_parse (by decide) hparse).resolve_left hne
  exact ⟨root, hparse, hreports, hroot, hne, htree⟩

end Parser

end MarkupCompiler
