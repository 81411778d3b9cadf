import MarkupCompiler.Proofs.Document
import MarkupCompiler.Proofs.Ending

/-!
# Start tags are noted in document order

Each start tag and each of its attributes is noted when it is read. So what has been noted at any
time is what there is to note of the open elements and all that is inside of them, in document
order, and in the end of the whole tree (`tagEvents_of_parse`).
-/

namespace MarkupCompiler

open Text Lexeme

/-- The events that a start tag gives rise to. -/
def Event.ofTag : Event → Bool
  | .startTag _ _ | .attributeRead _ _ => true
  | _ => false

/-- What is noted of a start tag: its name and kind, and then its attributes. -/
def Head.tagEvents (h : Head) : List Event :=
  .startTag h.tagName h.kind :: h.attributes.map Attribute.event

def Node.tagEvents (node : Node) : List Event :=
  node.heads.flatMap Head.tagEvents

theorem Node.tagEvents_element (head : Head) (children : List Node) :
    (Node.element head children).tagEvents =
      head.tagEvents ++ (Node.headsList children).flatMap Head.tagEvents := by
  rw [Node.tagEvents, Node.heads, List.flatMap_cons]

theorem Node.tagEvents_leaf (head : Head) : (Node.element head []).tagEvents = head.tagEvents := by
  rw [Node.tagEvents_element, Node.headsList, List.flatMap_nil, List.append_nil]

theorem Head.filter_tagEvents (h : Head) : h.tagEvents.filter Event.ofTag = h.tagEvents := by
  rw [List.filter_eq_self, Head.tagEvents, List.forall_mem_cons, List.forall_mem_map]
  exact ⟨rfl, fun _ _ => rfl⟩

namespace Parser

open Traced (Rounds)

/-- What is noted of the open elements and of the children that they have so far. -/
def openTagEvents : List Frame → List Event
  | [] => []
  | frame :: frames => openTagEvents frames ++ frame.close.toNode.tagEvents

/-- All that has been noted is in the tree so far. -/
def Noted (noted : List Event) : Round State Element → Prop
  | .more s => openTagEvents s.frames = noted
  | .done root => root.toNode.tagEvents = noted ∨ root = Element.emptyRoot ∧ noted = []

variable {g : Grammar}

theorem tagEvents_add (frame : Frame) (node : Node) :
    (frame.add node).close.toNode.tagEvents = frame.close.toNode.tagEvents ++ node.tagEvents := by
  simp only [Frame.add, Frame.close, Element.toNode, List.reverse_cons, Node.tagEvents_element,
    Node.headsList_append, List.flatMap_append, Node.headsList, List.append_nil, List.append_assoc]
  rfl

theorem openTagEvents_add (frame : Frame) (frames : List Frame) (node : Node) :
    openTagEvents (frame.add node :: frames) =
      openTagEvents (frame :: frames) ++ node.tagEvents := by
  rw [openTagEvents, openTagEvents, tagEvents_add, List.append_assoc]

theorem tagEvents_enclose (e : Element) (frames : List Frame) :
    (enclose e frames).toNode.tagEvents = openTagEvents frames ++ e.toNode.tagEvents := by
  induction frames generalizing e with
  | nil => rfl
  | cons frame frames ih => rw [enclose, ih, tagEvents_add, openTagEvents, List.append_assoc]

theorem ofTag_checkTrailing (before rest : Text) :
    (checkTrailing (.past before rest)).log.filter Event.ofTag = [] := by
  obtain ⟨_, ahead, _, _, _, ⟨_, _, _, _, _, _, hcheck⟩ | ⟨_, hcheck⟩⟩ :=
    checkTrailing_cases before rest
  · rw [hcheck]
    rfl
  · rw [hcheck]
    split <;> rfl

theorem noted_complete {e : Element} {before rest : Text} {frames : List Frame}
    {round : Round State Element}
    (houtcome : (complete e (.past before rest) frames).outcome = .ok round) :
    (complete e (.past before rest) frames).log.filter Event.ofTag = [] ∧
      Noted (openTagEvents frames ++ e.toNode.tagEvents) round := by
  cases frames with
  | nil =>
    rw [complete_nil] at houtcome ⊢
    cases houtcome
    exact ⟨ofTag_checkTrailing before rest, .inl rfl⟩
  | cons frame frames =>
    cases houtcome
    exact ⟨rfl, openTagEvents_add frame frames e.toNode⟩

theorem noted_afterStartTag {head : Head} {isSelfClosing : Bool} {before rest : Text}
    {frames : List Frame} {round : Round State Element}
    (houtcome : (afterStartTag head isSelfClosing (.past before rest) frames).outcome =
      .ok round) :
    (afterStartTag head isSelfClosing (.past before rest) frames).log.filter Event.ofTag = [] ∧
      Noted (openTagEvents frames ++ head.tagEvents) round := by
  rw [← Node.tagEvents_leaf]
  cases isSelfClosing with
  | true => exact noted_complete houtcome
  | false =>
    cases houtcome
    exact ⟨rfl, rfl⟩

/-- A step notes what it adds to the tree. -/
theorem step_noted {before rest : Text} {frames : List Frame} {log : List Event}
    {round : Round State Element}
    (hstep : step g { cursor := .past before rest, frames } = ⟨log, .ok round⟩) :
    Noted (openTagEvents frames ++ log.filter Event.ofTag) round := by
  obtain ⟨gap, ahead, rfl, hgap, hstepped⟩ := step_cases g before rest frames
  rw [hstep] at hstepped
  generalize hresult : (⟨log, .ok round⟩ : Traced (Round State Element)) = result at hstepped
  cases hstepped with
  | ended =>
    cases frames with
    | nil =>
      cases hresult
      exact .inr ⟨rfl, rfl⟩
    | cons frame frames =>
      rw [finish_cons, Traced.ok_bind] at hresult
      cases hresult
      left
      rw [tagEvents_enclose, openTagEvents, Traced.log_pure, List.append_nil, List.filter_map]
      simp [Function.comp_def, Event.ofTag]
  | strayEndTag =>
    cases hresult
    exact .inr ⟨rfl, rfl⟩
  | @endTag frame frames name blanks hname hblanks tail =>
    rw [noteMismatch_eq, Traced.ok_bind] at hresult
    obtain ⟨rfl, houtcome⟩ := Traced.mk.inj hresult
    obtain ⟨hlog, hnoted⟩ := noted_complete houtcome.symm
    -- the element was noted when it was opened, wherever it ends
    have hsame : (if name = frame.head.tagName then []
        else [Event.mismatch name frame.head.tagName]).filter Event.ofTag = [] := by
      split <;> rfl
    rw [List.filter_append, hlog, hsame, List.append_nil, List.append_nil]
    exact hnoted
  | @startTag _ head text tail isSelfClosing hhead hkind hlocation =>
    obtain ⟨rfl, houtcome⟩ := Traced.mk.inj hresult
    obtain ⟨hlog, hnoted⟩ := noted_afterStartTag houtcome.symm
    rw [← List.cons_append, ← Head.tagEvents, List.filter_append, hlog, head.filter_tagEvents,
      List.append_nil]
    exact hnoted
  | @text _ text tail run hlayout =>
    cases frames with
    | nil =>
      cases hresult
      rfl
    | cons frame frames =>
      cases hresult
      exact openTagEvents_add frame frames (.text run)
  | flawed => cases hresult

theorem rounds_noted {source : Text} {s s' : State} {log : List Event}
    (hrounds : Rounds (step g) s log s') (hreading : Reading g source s) :
    openTagEvents s'.frames = openTagEvents s.frames ++ log.filter Event.ofTag := by
  induction hrounds with
  | refl => rw [List.filter_nil, List.append_nil]
  | head hstep _ ih =>
    have hadvanced := hreading.advances
    rw [hstep] at hadvanced
    cases hadvanced with
    | more hnext _ =>
      cases hreading with
      | intro hsource hframes =>
        have hnoted : openTagEvents _ = _ := step_noted hstep
        rw [ih hnext, hnoted, List.filter_append, List.append_assoc]

theorem Ended.isTagName_or_eq_emptyRoot {before rest : Text} {frames : List Frame}
    {last : List Event} {root : Element} (hended : Ended g before frames rest last root) :
    IsTagName root.tagName ∨
      root = Element.emptyRoot ∧ frames = [] ∧ last.filter Event.ofTag = [] := by
  cases hended with
  | empty => exact .inr ⟨rfl, rfl, rfl⟩
  | stray => exact .inr ⟨rfl, rfl, rfl⟩
  | unfinished _ hname => exact .inl hname
  | closed _ _ hname => exact .inl hname

theorem not_isTagName_emptyRoot : ¬ IsTagName Element.emptyRoot.tagName :=
  fun hname => hname.ne_nil rfl

/-- Start tags and attributes are noted as the tree has them, and none without a tree. -/
theorem tagEvents_of_parse {source : Text} {root : Element}
    (hparse : (parse g source).outcome = .ok root) :
    IsTagName root.tagName ∧
        (parse g source).log.filter Event.ofTag = root.toNode.tagEvents ∨
      root = Element.emptyRoot ∧ (parse g source).log.filter Event.ofTag = [] := by
  obtain ⟨before, rest, frames, log, last, _, hrounds, hstep, _, hended, hlog, _⟩ :=
    exists_ended hparse
  have hopen : openTagEvents frames = log.filter Event.ofTag :=
    rounds_noted hrounds (.intro rfl (.nil _ _))
  have hall : (parse g source).log.filter Event.ofTag =
      openTagEvents frames ++ last.filter Event.ofTag := by
    rw [hlog, List.filter_append, List.filter_append, hopen]
    exact List.append_nil _
  rw [hall]
  rcases hended.isTagName_or_eq_emptyRoot with hname | ⟨rfl, rfl, hlast⟩
  · rcases step_noted hstep with hnoted | ⟨rfl, _⟩
    · exact .inl ⟨hname, hnoted.symm⟩
    · exact absurd hname not_isTagName_emptyRoot
  · exact .inr ⟨rfl, hlast⟩

/-- A parse that meets no start tag returns the empty root, and no other does. -/
theorem eq_emptyRoot_iff_of_parse {source : Text} {root : Element}
    (hparse : (parse g source).outcome = .ok root) :
    root = Element.emptyRoot ↔ ∀ name kind, Event.startTag name kind ∉ (parse g source).log := by
  have hmem : ∀ name kind, Event.startTag name kind ∈ (parse g source).log ↔
      .startTag name kind ∈ (parse g source).log.filter Event.ofTag := by
    intro name kind
    exact ⟨fun hmem => List.mem_filter.mpr ⟨hmem, rfl⟩, fun hmem => List.mem_of_mem_filter hmem⟩
  simp only [hmem]
  rcases tagEvents_of_parse hparse with ⟨hname, htags⟩ | ⟨rfl, hnone⟩
  · constructor
    · rintro rfl
      exact absurd hname not_isTagName_emptyRoot
    · intro hnone
      refine absurd ?_ (hnone root.tagName root.kind)
      rw [htags, Element.toNode, Node.tagEvents_element, Head.tagEvents]
      simp
  · simp [hnone]

end Parser

end MarkupCompiler
