import MarkupCompiler.Proofs.TagEvents
import MarkupCompiler.Proofs.Reports

/-!
# Document order is tree order

An element is put into its parent when it is complete, or folded into it at the end of the source,
but it stands in the tree where its start tag stands in the source. So the offsets of all that
stands in a tree ascend, and the start tags and attributes are those that were read, in the order
in which they were (`ascending_of_parse`).
-/

namespace MarkupCompiler

open Text Lexeme

namespace Item

def offset : Item → Nat
  | .element head => head.location.start.offset
  | .attribute a => a.location.start.offset
  | .text run => run.location.start.offset

/-- What is noted of an item when it is read; text is not noted. -/
def tagEvent? : Item → Option Event
  | .element head => some (.startTag head.tagName head.kind)
  | .attribute a => some (.attributeRead a.raw a.isDynamic)
  | .text _ => none

end Item

theorem Head.tagEvents_eq_filterMap (h : Head) :
    h.items.filterMap Item.tagEvent? = h.tagEvents := by
  have hattributes : (h.attributes.map Item.attribute).filterMap Item.tagEvent? =
      h.attributes.map Attribute.event := by
    rw [List.filterMap_map]
    exact congrFun List.filterMap_eq_map' h.attributes
  rw [Head.items, Head.tagEvents, ← hattributes]
  rfl

mutual

theorem Node.tagEvents_eq_filterMap (node : Node) :
    node.items.filterMap Item.tagEvent? = node.tagEvents := by
  cases node with
  | text run => rfl
  | element head children =>
    rw [Node.items, List.filterMap_append, head.tagEvents_eq_filterMap,
      Node.tagEvents_eq_filterMap_list children, Node.tagEvents_element]

theorem Node.tagEvents_eq_filterMap_list (nodes : List Node) :
    (Node.itemsList nodes).filterMap Item.tagEvent? =
      (Node.headsList nodes).flatMap Head.tagEvents := by
  cases nodes with
  | nil => rfl
  | cons node nodes =>
    rw [Node.itemsList, List.filterMap_append, node.tagEvents_eq_filterMap,
      Node.tagEvents_eq_filterMap_list nodes, Node.headsList, List.flatMap_append, Node.tagEvents]

end

theorem Text.byteSize_pos {cs : Text} (hne : cs ≠ []) : 0 < byteSize cs :=
  Nat.pos_of_ne_zero fun hzero => hne (byteSize_eq_zero_iff.mp hzero)

/-! ### Ascending numbers -/

/-- The numbers ascend from `low` on, one by one or more, and end below `high`. -/
def Ascends (high : Nat) : Nat → List Nat → Prop
  | low, [] => low ≤ high
  | low, n :: ns => low ≤ n ∧ Ascends high (n + 1) ns

namespace Ascends

variable {low low' middle high high' : Nat} {ns ms : List Nat}

theorem widen (hns : Ascends high low ns) (hlow : low' ≤ low) (hhigh : high ≤ high') :
    Ascends high' low' ns := by
  induction ns generalizing low low' with
  | nil => exact Nat.le_trans hlow (Nat.le_trans hns hhigh)
  | cons n ns ih => exact ⟨Nat.le_trans hlow hns.1, ih hns.2 (Nat.le_refl _)⟩

theorem append (hns : Ascends middle low ns) (hms : Ascends high middle ms) :
    Ascends high low (ns ++ ms) := by
  induction ns generalizing low with
  | nil => exact hms.widen hns (Nat.le_refl _)
  | cons n ns ih => exact ⟨hns.1, ih hns.2⟩

theorem le_of_mem {n : Nat} (hns : Ascends high low ns) (hn : n ∈ ns) : low ≤ n := by
  induction ns generalizing low with
  | nil => cases hn
  | cons m ns ih =>
    rcases List.mem_cons.mp hn with rfl | hn
    · exact hns.1
    · have hlater := ih hns.2 hn
      have hfirst := hns.1
      omega

theorem pairwise (hns : Ascends high low ns) : ns.Pairwise (· < ·) := by
  induction ns generalizing low with
  | nil => exact .nil
  | cons n ns ih =>
    refine .cons ?_ (ih hns.2)
    intro m hm
    exact hns.2.le_of_mem hm

end Ascends

namespace Parser

variable {g : Grammar}

/-! ### Offsets in a layout -/

theorem AttributesLayout.ascends {before after text : Text} {attributes : List Attribute}
    (hlayout : AttributesLayout g after before attributes text) :
    Ascends (byteSize (before ++ text)) (byteSize before)
      ((attributes.map Item.attribute).map Item.offset) := by
  induction hlayout with
  | nil before => simp [Ascends]
  | @cons before gap raw text attributes _ hraw _ _ ih =>
    obtain ⟨c, cs, hcons, _⟩ := exists_cons_of_isAttribute hraw
    have hpos : 0 < byteSize raw := byteSize_pos (by simp [hcons])
    have hoffset : (Item.attribute (.read g (before ++ gap) raw)).offset =
        byteSize before + byteSize gap := byteSize_append before gap
    rw [List.map_cons, List.map_cons, Ascends, hoffset]
    refine ⟨Nat.le_add_right _ _, ?_⟩
    apply ih.widen
    · simp only [byteSize_append]
      omega
    · simp

theorem HeadLayout.ascends {before after tag : Text} {head : Head}
    (hlayout : HeadLayout g before after head tag) (hstart : head.location.start = .after before) :
    Ascends (byteSize (before ++ tag)) (byteSize before) (head.items.map Item.offset) := by
  cases hlayout with
  | intro _ _ hattributes _ =>
    have hoffset : (Item.element head).offset = byteSize before := by
      rw [Item.offset, hstart]
      rfl
    rw [Head.items, List.map_cons, Ascends, hoffset]
    refine ⟨Nat.le_refl _, ?_⟩
    -- the attributes follow the opening angle and the name, and blanks may follow them
    have hangle : 0 < Char.utf8Size '<' := Char.utf8Size_pos _
    apply hattributes.ascends.widen
    · simp only [byteSize_append, byteSize_cons]
      omega
    · simp only [byteSize_append, byteSize_cons]
      omega

theorem TextLayout.ascends {before after text : Text} {run : TextRun}
    (hlayout : TextLayout g before after run text) :
    Ascends (byteSize (before ++ text)) (byteSize before) [(Item.text run).offset] := by
  have hne : text ≠ [] := by
    cases hlayout with
    | plain hcontent => exact hcontent.ne_nil
    | interpolation hbody => simp [hbody.ne_nil]
  have hpos := byteSize_pos hne
  have hoffset : (Item.text run).offset = byteSize before := by cases hlayout <;> rfl
  rw [hoffset, Ascends, Ascends, byteSize_append]
  omega

mutual

theorem NodeLayout.ascends {kind : ElementKind} {before after text : Text} {node : Node} :
    NodeLayout g kind before after node text →
      Ascends (byteSize (before ++ text)) (byteSize before) (node.items.map Item.offset)
  | .text hlayout => hlayout.ascends
  | .selfClosed hhead _ hlocation => by
    have htag := hhead.ascends (by rw [hlocation, Location.start_between])
    rw [Node.items, Node.itemsList, List.append_nil]
    exact htag.widen (Nat.le_refl _) (by simp)
  | .closed hhead _ hlocation hchildren _ _ _ => by
    have htag := hhead.ascends (by rw [hlocation, Location.start_between])
    have hinner := hchildren.ascends
    rw [Node.items, List.map_append]
    refine htag.append (hinner.widen ?_ ?_)
    · simp
    · simp only [byteSize_append]
      omega

theorem NodesLayout.ascends {before after text : Text} {nodes : List Node} :
    NodesLayout g before after nodes text →
      Ascends (byteSize (before ++ text)) (byteSize before) ((Node.itemsList nodes).map Item.offset)
  | .nil _ _ => by simp [Node.itemsList, Ascends]
  | .cons _ hnode hlater => by
    have hfirst := hnode.ascends
    have hrest := hlater.ascends
    rw [Node.itemsList, List.map_append]
    refine (hfirst.widen ?_ (Nat.le_refl _)).append (hrest.widen ?_ ?_)
    · simp
    · simp
    · simp

end

/-! ### Folding open elements together -/

theorem items_add (frame : Frame) (node : Node) :
    (frame.add node).close.toNode.items = frame.close.toNode.items ++ node.items := by
  simp only [Frame.add, Frame.close, Element.toNode, List.reverse_cons, Node.items,
    Node.itemsList_append, Node.itemsList, List.append_nil, List.append_assoc]

/-- An open element takes up the text from the ones around it to the end of what is consumed. -/
theorem FramesLayout.ascends_close {frame : Frame} {frames : List Frame} {before after : Text}
    (hlayout : FramesLayout g (frame :: frames) before after) :
    ∃ outer rest, FramesLayout g frames outer rest ∧
      Ascends (byteSize before) (byteSize outer) (frame.close.toNode.items.map Item.offset) := by
  cases hlayout with
  | @cons _ outer gap tag inner _ head children houter _ hhead _ hlocation hchildren =>
    refine ⟨outer, _, houter, ?_⟩
    have htag := hhead.ascends (by rw [hlocation, Location.start_between])
    have hinner := hchildren.ascends
    simp only [Frame.close, Element.toNode, Node.items, List.map_append]
    refine (htag.widen ?_ (Nat.le_refl _)).append (hinner.widen ?_ ?_)
    · simp
    · simp
    · simp

theorem FramesLayout.ascends_enclose {frames : List Frame} {before after : Text} {e : Element}
    {high : Nat} (hlayout : FramesLayout g frames before after)
    (he : Ascends high (byteSize before) (e.toNode.items.map Item.offset)) :
    Ascends high 0 ((enclose e frames).toNode.items.map Item.offset) := by
  induction frames generalizing before after e with
  | nil => exact he.widen (Nat.zero_le _) (Nat.le_refl _)
  | cons frame frames ih =>
    obtain ⟨outer, rest, houter, hframe⟩ := hlayout.ascends_close
    apply ih houter
    rw [items_add, List.map_append]
    exact hframe.append he

/-- Whatever is reported, what stands in the tree begins in the order of the tree. -/
theorem Parsed.pairwise_offsets {source : Text} {reports : List Diagnostic} {root : Element}
    (hparsed : Parsed g source reports root) :
    (root.toNode.items.map Item.offset).Pairwise (· < ·) := by
  cases hparsed with
  | empty | stray => exact List.pairwise_singleton _ _
  | complete _ hlayout => exact hlayout.ascends.pairwise
  | unfinished _ _ hframes =>
    obtain ⟨outer, rest, houter, hframe⟩ := hframes.ascends_close
    exact (houter.ascends_enclose hframe).pairwise

/-- **Document order.** The items of a tree that was read begin one after another in the source, and
the start tags and attributes that were noted are those of the tree, in its order. Without an
element none is noted. -/
theorem ascending_of_parse {source : Text} {root : Element}
    (hparse : (parse g source).outcome = .ok root) :
    (root.isEmptyRoot = false →
        (root.toNode.items.map Item.offset).Pairwise (· < ·) ∧
          (parse g source).log.filter Event.ofTag = root.toNode.items.filterMap Item.tagEvent?) ∧
      (root.isEmptyRoot = true → (parse g source).log.filter Event.ofTag = []) := by
  rw [Node.tagEvents_eq_filterMap]
  rcases tagEvents_of_parse hparse with ⟨hname, htags⟩ | ⟨rfl, hnone⟩
  · have hroot := isEmptyRoot_of_isTagName hname
    refine ⟨fun _ => ⟨(parsed_of_parse hparse).pairwise_offsets, htags⟩, ?_⟩
    intro hempty
    rw [hroot] at hempty
    cases hempty
  · exact ⟨nofun, fun _ => hnone⟩

/-- Two elements are left open around one that closes itself, and elsewhere there is only text. -/
theorem ascending_of_parse_unclosed :
    let unclosed := "\u00e9<ul a :b='c'>d<li e>\x7b\x7b f \x7d\x7d<br g/> h".toList
    let bare := "i \x7b\x7b j \x7d\x7d</ul>".toList
    (∃ root, (parse {} unclosed).outcome = .ok root ∧ root.isEmptyRoot = false ∧
      root.toNode.items.map Item.offset = [2, 6, 8, 15, 16, 20, 22, 29, 33, 37] ∧
      (root.toNode.items.map Item.offset).Pairwise (· < ·) ∧
      (parse {} unclosed).log.filter Event.ofTag = root.toNode.items.filterMap Item.tagEvent?) ∧
    ∃ root, (parse {} bare).outcome = .ok root ∧ root.isEmptyRoot = true ∧
      (parse {} bare).log.filter Event.ofTag = [] := by
  intro unclosed bare
  have hunclosed : (parse {} unclosed).outcome.toOption.map
      (fun root => (root.isEmptyRoot, root.toNode.items.map Item.offset)) =
        some (false, [2, 6, 8, 15, 16, 20, 22, 29, 33, 37]) := by
    decide +kernel
  have hbare : (parse {} bare).outcome.toOption.map (·.isEmptyRoot) = some true := by
    decide +kernel
  constructor
  · obtain ⟨root, hparse, hroot⟩ := Traced.exists_ok_of_map hunclosed
    obtain ⟨hempty, hoffsets⟩ := Prod.mk.inj hroot
    exact ⟨root, hparse, hempty, hoffsets, (ascending_of_parse hparse).1 hempty⟩
  · obtain ⟨root, hparse, hroot⟩ := Traced.exists_ok_of_map hbare
    exact ⟨root, hparse, hroot, (ascending_of_parse hparse).2 hroot⟩

end Parser

end MarkupCompiler
