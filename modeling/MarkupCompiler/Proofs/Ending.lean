import MarkupCompiler.Proofs.Locality

/-!
# The last step of a parse

A parse that returns a tree ends in one of four ways: the source is over without any element, or
inside of elements, an end tag stands outside of all of them, or the root is closed
(`exists_ended`). A root is closed the same way whatever follows it.
-/

namespace MarkupCompiler.Parser

open Text Lexeme
open Traced (Rounds)

/-- The step at `gap` and `text` closes the root, and looks at what follows it. -/
def Closes (g : Grammar) (before : Text) (frames : List Frame) (gap text : Text) (log : List Event)
    (root : Element) : Prop :=
  ∀ after, step g { cursor := .past before (gap ++ (text ++ after)), frames } =
    ⟨log ++ (checkTrailing (.past (before ++ (gap ++ text)) after)).log, .ok (.done root)⟩

/-- What the last step of a parse comes to, by what is open and what is left to read. -/
inductive Ended (g : Grammar) (before : Text) : List Frame → Text → List Event → Element → Prop
  | empty {rest : Text} (hrest : Blank rest) : Ended g before [] rest [] Element.emptyRoot
  | unfinished {rest : Text} {frame : Frame} {frames : List Frame} (hrest : Blank rest)
      (hname : IsTagName (enclose frame.close frames).tagName) :
      Ended g before (frame :: frames) rest
        ((frame :: frames).map fun frame => .reported (missingEnd frame.head))
        (enclose frame.close frames)
  | stray {gap name blanks : Text} (hgap : Blank gap) (hname : IsTagName name)
      (hblanks : Blank blanks) (tail : Text) :
      Ended g before [] (gap ++ (endTag name blanks ++ tail))
        [.reported (strayEnd name (.between (before ++ gap) (endTag name blanks)))]
        Element.emptyRoot
  | closed {frames : List Frame} {gap text : Text} {log : List Event} {root : Element}
      (hgap : Blank gap) (hangle : ['<'] <+: text) (hname : IsTagName root.tagName)
      (hstop : root.location.stop = .after (before ++ (gap ++ text)))
      (hsilent : log.filterMap Event.reported? = [])
      (hcloses : Closes g before frames gap text log root) (after : Text) :
      Ended g before frames (gap ++ (text ++ after))
        (log ++ (checkTrailing (.past (before ++ (gap ++ text)) after)).log) root

variable {g : Grammar}

theorem HeadLayout.isTagName {before after tag : Text} {head : Head}
    (hlayout : HeadLayout g before after head tag) : IsTagName head.tagName := by
  cases hlayout with
  | intro hname _ _ _ => exact hname

theorem HeadLayout.begins_angle {before after tag : Text} {head : Head}
    (hlayout : HeadLayout g before after head tag) (tail : Text) : ['<'] <+: tag ++ tail := by
  cases hlayout
  exact ⟨_, rfl⟩

theorem FramesLayout.isTagName {frames : List Frame} {before after : Text}
    (hlayout : FramesLayout g frames before after) :
    ∀ frame ∈ frames, IsTagName frame.head.tagName := by
  induction hlayout with
  | nil => exact List.forall_mem_nil _
  | cons _ _ hhead _ _ _ ih => exact List.forall_mem_cons.mpr ⟨hhead.isTagName, ih⟩

theorem isTagName_enclose {e : Element} {frames : List Frame} (he : IsTagName e.tagName)
    (hframes : ∀ frame ∈ frames, IsTagName frame.head.tagName) :
    IsTagName (enclose e frames).tagName := by
  induction frames generalizing e with
  | nil => exact he
  | cons frame frames ih =>
    rw [List.forall_mem_cons] at hframes
    exact ih hframes.1 hframes.2

theorem closes_endTag (before : Text) {gap name blanks : Text} (frame : Frame) (hgap : Blank gap)
    (hname : IsTagName name) (hblanks : Blank blanks) :
    Closes g before [frame] gap (endTag name blanks)
      (if name = frame.head.tagName then [] else [.mismatch name frame.head.tagName])
      { frame.close with location.stop := .after (before ++ (gap ++ endTag name blanks)) } := by
  intro after
  have hstops : Stops isBlank (endTag name blanks ++ after) := stops_cons.mpr rfl
  rw [step_gap _ hgap hstops, step_endTag_cons g _ after frame [] hname hblanks, noteMismatch_eq,
    Traced.ok_bind, complete_nil, List.append_assoc]

theorem closes_startTag {before gap text tail : Text} {head : Head} (hgap : Blank gap)
    (hhead : HeadLayout g (before ++ gap) (closing true ++ tail) head text)
    (hkind : head.kind = .root)
    (hlocation : head.location = .between (before ++ gap) (text ++ closing true)) :
    Closes g before [] gap (text ++ closing true)
      (.startTag head.tagName head.kind :: head.attributes.map Attribute.event)
      { head with } := by
  intro after
  have hstart := step_startTag [] (hhead.replay after) hkind hlocation
  rw [List.append_assoc text, step_gap _ hgap (hhead.stops_isBlank _), hstart]
  simp only [afterStartTag, if_true, complete_nil, List.append_assoc, List.cons_append]

theorem ended_of_step {before rest : Text} {frames : List Frame} {last : List Event}
    {root : Element} (hframes : FramesLayout g frames before rest)
    (hstep : step g { cursor := .past before rest, frames } = ⟨last, .ok (.done root)⟩) :
    Ended g before frames rest last root := by
  obtain ⟨gap, ahead, rfl, hgap, hstepped⟩ := step_cases g before rest frames
  rw [hstep] at hstepped
  generalize hresult : (⟨last, .ok (.done root)⟩ : Traced (Round State Element)) = result
    at hstepped
  cases hstepped with
  | ended =>
    rw [List.append_nil] at hframes ⊢
    cases frames with
    | nil =>
      cases hresult
      exact .empty hgap
    | cons frame frames =>
      have hnames := hframes.isTagName
      rw [List.forall_mem_cons] at hnames
      rw [finish_cons, Traced.ok_bind] at hresult
      obtain ⟨rfl, houtcome⟩ := Traced.mk.inj hresult
      cases houtcome
      rw [Traced.log_pure, List.append_nil]
      exact .unfinished hgap (isTagName_enclose hnames.1 hnames.2)
  | strayEndTag hname hblanks tail =>
    cases hresult
    exact .stray hgap hname hblanks tail
  | @endTag frame frames name blanks hname hblanks tail =>
    rw [noteMismatch_eq, Traced.ok_bind] at hresult
    cases frames with
    | nil =>
      rw [complete_nil, List.append_assoc] at hresult
      cases hresult
      refine .closed hgap ⟨_, rfl⟩ (hframes.isTagName frame (by simp)) rfl ?_
        (closes_endTag before frame hgap hname hblanks) tail
      split <;> rfl
    | cons => cases hresult
  | @startTag _ head text tail isSelfClosing hhead hkind hlocation =>
    cases isSelfClosing with
    | false => cases hresult
    | true =>
      cases frames with
      | cons => cases hresult
      | nil =>
        have hcloses := closes_startTag hgap hhead hkind hlocation
        have hend := hcloses tail
        rw [List.append_assoc text, hstep] at hend
        cases hend
        rw [← List.append_assoc text]
        refine .closed hgap (hhead.begins_angle _) hhead.isTagName ?_ ?_ hcloses tail
        · rw [hlocation, Location.stop_between, List.append_assoc]
        · exact reported?_events _
  | text => cases frames <;> cases hresult
  | flawed => cases hresult

/-- A parse that returns a tree goes through rounds and a last step, and only that step reports. -/
theorem exists_ended {source : Text} {root : Element}
    (hparse : (parse g source).outcome = .ok root) :
    ∃ before rest frames log last, source = before ++ rest ∧
      Rounds (step g) { cursor := .past [] source } log { cursor := .past before rest, frames } ∧
      step g { cursor := .past before rest, frames } = ⟨last, .ok (.done root)⟩ ∧
      FramesLayout g frames before rest ∧ Ended g before frames rest last root ∧
      (parse g source).log = log ++ last ++ [.parsed root.tagName root.children.length] ∧
      (parse g source).reports = last.filterMap Event.reported? := by
  have hstart : Reading g source { cursor := .past [] source } := .intro rfl (.nil _ _)
  obtain ⟨log, s, last, hrounds, hlast⟩ :=
    Traced.exists_rounds (·.cursor.rest.length) (step g) (step_shrinks g)
      { cursor := .past [] source }
  obtain ⟨hreading, _⟩ := reading_of_rounds hrounds hstart
  rcases hlast with ⟨stop, _, hloop⟩ | ⟨root', hdone, _⟩
  · rw [parse_eq, hloop] at hparse
    cases hparse
  · obtain ⟨hok, hreports⟩ := parse_of_rounds hrounds hdone
    obtain rfl : root' = root := by simpa [hok] using hparse
    cases hreading with
    | @intro before rest frames hsource hframes =>
      refine ⟨before, rest, frames, log, last, hsource, hrounds, hdone, hframes,
        ended_of_step hframes hdone, ?_, hreports⟩
      rw [parse_eq_of_rounds hrounds hdone]

/-- A root that is closed is the tree also when something else follows it. -/
theorem Closes.parse {before gap text after : Text} {frames : List Frame}
    {log earlier : List Event} {root : Element}
    (hcloses : Closes g before frames gap text log root)
    (hsilent : log.filterMap Event.reported? = []) (hangle : ['<'] <+: text)
    (hrounds : Rounds (step g) { cursor := .past [] (before ++ (gap ++ (text ++ after))) } earlier
      { cursor := .past before (gap ++ (text ++ after)), frames })
    {after' : Text} (hopening : '<' ∈ g.delimiters.opening → after' <+: after) :
    (parse g (before ++ (gap ++ (text ++ after')))).outcome = .ok root ∧
      (parse g (before ++ (gap ++ (text ++ after')))).reports =
        (checkTrailing (.past (before ++ (gap ++ text)) after')).reports := by
  have hbegins : ∀ tail, ['<'] <+: text ++ tail :=
    fun tail => hangle.trans (List.prefix_append text tail)
  have hagrees : Agrees g (text ++ after) (text ++ after') :=
    agrees_of_tag (.inr (hbegins after)) (.inr (hbegins after')) fun hmem =>
      (List.prefix_append_right_inj text).mpr (hopening hmem)
  obtain ⟨hok, hreports⟩ :=
    parse_of_rounds (rounds_before hrounds (hagrees.append gap)) (hcloses after')
  refine ⟨hok, ?_⟩
  rw [hreports, List.filterMap_append, hsilent, List.nil_append]
  rfl

end MarkupCompiler.Parser
