import MarkupCompiler.Proofs.Completeness

/-!
# What follows a construct does not change it

A start tag, an end tag and an interpolation hold their own end, so that each is read the same
whatever follows. Plain text ends before the next tag or opening delimiter, so it is read the same
as long as what follows is the same up to the next tag. A run of the parser can therefore be
replayed in front of any other rest that agrees with its own so far (`rounds_replay`), and so can a
tree that lies in a text (`NodeLayout.replay`).
-/

namespace MarkupCompiler

open Text Lexeme

/-- The part of a text before its next tag. -/
def Text.upToTag (cs : Text) : Text :=
  cs.takeWhile (· != '<')

namespace Text

theorem upToTag_append_congr {tail tail' : Text} (hsame : upToTag tail = upToTag tail')
    (text : Text) : upToTag (text ++ tail) = upToTag (text ++ tail') := by
  unfold upToTag at hsame ⊢
  rw [List.takeWhile_append, List.takeWhile_append, hsame]

theorem upToTag_of_blank {gap tail : Text} (hgap : Blank gap)
    (htail : tail = [] ∨ ['<'] <+: tail) : upToTag (gap ++ tail) = gap := by
  refine takeWhile_append_of_stops ?_ (stops_of_begins_angle htail)
  intro c hc
  rw [bne_iff_ne]
  rintro rfl
  cases hgap '<' hc

theorem upToTag_eq_nil_iff {cs : Text} : upToTag cs = [] ↔ cs = [] ∨ ['<'] <+: cs := by
  constructor
  · intro hnil
    cases cs with
    | nil => exact .inl rfl
    | cons c cs =>
      by_cases hc : c = '<'
      · exact .inr (by simp [hc])
      · simp [upToTag, hc] at hnil
  · exact upToTag_of_blank blank_nil

/-- A pattern without an angle stands before the next tag, if anywhere. -/
theorem prefix_upToTag_iff {pattern cs : Text} (hangle : '<' ∉ pattern) :
    pattern <+: upToTag cs ↔ pattern <+: cs := by
  constructor
  · exact fun hprefix => hprefix.trans (List.takeWhile_prefix _)
  · rintro ⟨rest, rfl⟩
    rw [upToTag, List.takeWhile_append_of_pos (forall_ne_angle_iff.mpr hangle)]
    exact List.prefix_append _ _

end Text

namespace Lexeme

/-- Only what stands before the next tag counts for the size of a run of text. -/
theorem textSize_congr (opening : Text) (c : Char) {cs cs' : Text}
    (hsame : upToTag cs = upToTag cs') :
    textSize opening (c :: cs) = textSize opening (c :: cs') := by
  obtain ⟨run, rest, rfl, hrun, hrest⟩ := exists_run (· != '<') cs
  obtain ⟨run', rest', rfl, hrun', hrest'⟩ := exists_run (· != '<') cs'
  rw [upToTag, upToTag, takeWhile_append_of_stops hrun hrest,
    takeWhile_append_of_stops hrun' hrest'] at hsame
  rw [textSize_cons opening c hrun hrest, textSize_cons opening c hrun' hrest', hsame]

theorem endsText_of_textSize {opening more tail : Text} {c : Char}
    (hsize : textSize opening (c :: (more ++ tail)) = .ok (byteSize (c :: more))) :
    EndsText opening tail := by
  obtain ⟨more', tail', hsplit, _, hends, hsize'⟩ := textSize_cases opening c (more ++ tail)
  have hbytes : byteSize more = byteSize more' := by
    rw [hsize] at hsize'
    simpa using hsize'
  have hcut := cut_append more tail
  rw [hbytes, hsplit, cut_append] at hcut
  cases hcut
  exact hends

/-! ### Attributes -/

/-- The name that is read of an attribute goes on as far as it can. -/
theorem stops_of_attribute?_name {name tail : Text} (hname : IsAttributeName name)
    (hread : attribute? (name ++ tail) = .ok (some (byteSize name))) :
    Stops isAttributeNameChar tail := by
  obtain ⟨more, rest, rfl, hmore, hrest⟩ := exists_run isAttributeNameChar tail
  have hlonger : IsAttributeName (name ++ more) := by
    refine ⟨by simp [hname.1], ?_⟩
    exact List.forall_mem_append.mpr ⟨hname.2, hmore⟩
  rw [← List.append_assoc, attribute?_eq hlonger hrest] at hread
  have hempty : more = [] := by
    cases hassigned : assignmentSize rest with
    | error fault =>
      rw [hassigned] at hread
      cases hread
    | ok size =>
      rw [hassigned] at hread
      simp only [Except.map, byteSize_append, Except.ok.injEq, Option.some.injEq] at hread
      exact byteSize_eq_zero_iff.mp (by omega)
  rwa [hempty]

theorem stops_of_attribute?_bare {name before after value tail : Text}
    (hname : IsAttributeName name) (hbefore : Blank before) (hafter : Blank after)
    (hvalue : IsBareValue value)
    (hread : attribute? ((name ++ (before ++ '=' :: (after ++ value))) ++ tail) =
      .ok (some (byteSize (name ++ (before ++ '=' :: (after ++ value)))))) :
    Stops isBareValueChar tail := by
  obtain ⟨more, rest, rfl, hmore, hrest⟩ := exists_run isBareValueChar tail
  have hlonger : IsBareValue (value ++ more) := by
    refine ⟨by simp [hvalue.1], ?_⟩
    exact List.forall_mem_append.mpr ⟨hvalue.2, hmore⟩
  have hall := attribute?_assigned hname hbefore hafter (.bare hlonger)
    (valueSize_bare hlonger hrest)
  simp only [List.append_assoc, List.cons_append] at hread hall
  rw [hread] at hall
  have hempty : more = [] := by
    simp only [byteSize_append, byteSize_cons, Except.ok.injEq, Option.some.injEq] at hall
    exact byteSize_eq_zero_iff.mp (by omega)
  rwa [hempty]

theorem stops_ahead {p : Char → Bool} {gap tail : Text} {c : Char}
    (hstops : Stops p (gap ++ c :: tail)) (tail' : Text) : Stops p (gap ++ c :: tail') := by
  cases gap with
  | nil | cons => exact stops_cons.mpr (stops_cons.mp hstops)

/-- An attribute is read by what follows it up to the next character that is not blank. -/
theorem attribute?_replay {raw gap tail : Text} {c : Char} (hraw : IsAttribute raw)
    (hgap : Blank gap) (hblank : isBlank c = false) (hsign : c ≠ '=')
    (hread : attribute? (raw ++ (gap ++ c :: tail)) = .ok (some (byteSize raw))) (tail' : Text) :
    attribute? (raw ++ (gap ++ c :: tail')) = .ok (some (byteSize raw)) := by
  cases hraw with
  | name hname =>
    have hstops := stops_of_attribute?_name hname hread
    have hnone : assignmentSize (gap ++ c :: tail') = .ok none :=
      assignmentSize_of_stops hgap (stops_cons.mpr hblank) (stops_cons.mpr (by simpa using hsign))
    exact attribute?_name hname (stops_ahead hstops tail') hnone
  | assigned hname hbefore hafter hvalue =>
    refine attribute?_assigned hname hbefore hafter hvalue ?_
    cases hvalue with
    | quoted hquote hinner => exact valueSize_quoted hquote hinner _
    | bare hvalue =>
      have hstops := stops_of_attribute?_bare hname hbefore hafter hvalue hread
      exact valueSize_bare hvalue (stops_ahead hstops _)

end Lexeme

namespace Parser

open Traced (Rounds)

variable {g : Grammar}

/-- What follows a place among the attributes of a start tag, up to the next character that is not
blank, is the same whatever follows the tag. -/
theorem AttributesLayout.exists_ahead {before gap text tail : Text} {attributes : List Attribute}
    {isSelfClosing : Bool}
    (hlayout : AttributesLayout g (gap ++ (closing isSelfClosing ++ tail)) before attributes text)
    (hgap : Blank gap) :
    ∃ space c more, Blank space ∧ isBlank c = false ∧ c ≠ '=' ∧
      ∀ tail, text ++ (gap ++ (closing isSelfClosing ++ tail)) = space ++ c :: (more ++ tail) := by
  cases hlayout with
  | nil =>
    cases isSelfClosing with
    | true => exact ⟨gap, '/', ['>'], hgap, rfl, by decide, fun _ => rfl⟩
    | false => exact ⟨gap, '>', [], hgap, rfl, by decide, fun _ => rfl⟩
  | @cons _ space raw text _ hspace hraw _ _ =>
    have hblank := stops_isBlank_of_isAttribute hraw []
    obtain ⟨c, cs, rfl, hc⟩ := exists_cons_of_isAttribute hraw
    refine ⟨space, c, cs ++ (text ++ (gap ++ closing isSelfClosing)), hspace, stops_cons.mp hblank,
      ?_, by simp⟩
    rintro rfl
    cases hc

theorem AttributesLayout.replay {before gap text tail : Text} {attributes : List Attribute}
    {isSelfClosing : Bool}
    (hlayout : AttributesLayout g (gap ++ (closing isSelfClosing ++ tail)) before attributes text)
    (hgap : Blank gap) (tail' : Text) :
    AttributesLayout g (gap ++ (closing isSelfClosing ++ tail')) before attributes text := by
  induction hlayout with
  | nil before => exact .nil before
  | cons hspace hraw hread hlater ih =>
    obtain ⟨space, c, more, hspace', hblank, hsign, hahead⟩ := hlater.exists_ahead hgap
    refine .cons hspace hraw ?_ ih
    rw [hahead] at hread ⊢
    exact attribute?_replay hraw hspace' hblank hsign hread _

/-- A start tag is laid out the same whatever follows it. -/
theorem HeadLayout.replay {before text tail : Text} {head : Head} {isSelfClosing : Bool}
    (hlayout : HeadLayout g before (closing isSelfClosing ++ tail) head text) (tail' : Text) :
    HeadLayout g before (closing isSelfClosing ++ tail') head text := by
  cases hlayout with
  | intro hname hstop hattributes hgap =>
    obtain ⟨space, c, more, _, _, _, hahead⟩ := hattributes.exists_ahead hgap
    refine .intro hname ?_ (hattributes.replay hgap tail') hgap
    rw [hahead] at hstop ⊢
    exact stops_ahead hstop _

theorem InterpolationLayout.replay {after body : Text} (hlayout : InterpolationLayout g after body)
    (after' : Text) : InterpolationLayout g after' body where
  ne_nil := hlayout.ne_nil
  not_blank := hlayout.not_blank
  not_angle := hlayout.not_angle
  closing_absent := (hlayout.closing_absent.shorten (List.prefix_append _ _)).extend after'

/-- What stands before `tail'` cannot tell it from `tail`: both are the same up to the next tag, and
an opening delimiter that reaches over that tag is not new in `tail'`. -/
def Agrees (g : Grammar) (tail tail' : Text) : Prop :=
  upToTag tail = upToTag tail' ∧ ('<' ∈ g.delimiters.opening → tail' <+: tail)

theorem Agrees.append {tail tail' : Text} (hagrees : Agrees g tail tail') (text : Text) :
    Agrees g (text ++ tail) (text ++ tail') := by
  refine ⟨upToTag_append_congr hagrees.1 text, fun hangle => ?_⟩
  exact (List.prefix_append_right_inj text).mpr (hagrees.2 hangle)

theorem agrees_of_tag {tail tail' : Text} (htail : tail = [] ∨ ['<'] <+: tail)
    (htail' : tail' = [] ∨ ['<'] <+: tail')
    (hopening : '<' ∈ g.delimiters.opening → tail' <+: tail) : Agrees g tail tail' := by
  refine ⟨?_, hopening⟩
  rw [upToTag_eq_nil_iff.mpr htail, upToTag_eq_nil_iff.mpr htail']

theorem Agrees.opens {tail tail' : Text} (hagrees : Agrees g tail tail')
    (hopens : g.delimiters.opening <+: tail') : g.delimiters.opening <+: tail := by
  by_cases hangle : '<' ∈ g.delimiters.opening
  · exact hopens.trans (hagrees.2 hangle)
  · rwa [← prefix_upToTag_iff hangle, hagrees.1, prefix_upToTag_iff hangle]

theorem PlainLayout.replay {after after' content : Text} (hlayout : PlainLayout g after content)
    (hagrees : Agrees g after after') : PlainLayout g after' content := by
  have hsize : textSize g.delimiters.opening (content ++ after') = .ok (byteSize content) := by
    have hsize := hlayout.size
    obtain ⟨c, more, rfl⟩ := List.exists_cons_of_ne_nil hlayout.ne_nil
    rw [List.cons_append] at hsize ⊢
    rw [← textSize_congr g.delimiters.opening c (upToTag_append_congr hagrees.1 more), hsize]
  refine ⟨hlayout.ne_nil, hlayout.not_blank, hlayout.no_angle, ?_, ?_, hsize⟩
  · intro hne hopens
    exact hlayout.not_opening hne ((hagrees.append content).opens hopens)
  · obtain ⟨c, more, rfl⟩ := List.exists_cons_of_ne_nil hlayout.ne_nil
    exact endsText_of_textSize hsize

theorem TextLayout.replay {before after after' text : Text} {run : TextRun}
    (hlayout : TextLayout g before after run text) (hagrees : Agrees g after after') :
    TextLayout g before after' run text := by
  cases hlayout with
  | plain hcontent => exact .plain (hcontent.replay hagrees)
  | interpolation hbody => exact .interpolation (hbody.replay after')

mutual

theorem NodeLayout.replay {kind : ElementKind} {before after after' text : Text} {node : Node}
    (hagrees : Agrees g after after') :
    NodeLayout g kind before after node text → NodeLayout g kind before after' node text
  | .text hlayout => .text (hlayout.replay hagrees)
  | .selfClosed hhead hkind hlocation => .selfClosed (hhead.replay after') hkind hlocation
  | .closed hhead hkind hlocation hchildren hgap hname hblanks =>
    .closed (hhead.replay _) hkind hlocation
      (hchildren.replay ((hagrees.append _).append _)) hgap hname hblanks

theorem NodesLayout.replay {before after after' text : Text} {nodes : List Node}
    (hagrees : Agrees g after after') :
    NodesLayout g before after nodes text → NodesLayout g before after' nodes text
  | .nil _ _ => .nil _ _
  | .cons hgap hnode hlater =>
    .cons hgap (hnode.replay (hagrees.append _)) (hlater.replay hagrees)

end

/-! ### Steps and rounds -/

/-- The parser reads `text` and goes on, in front of every rest that agrees with `tail`. -/
def Replays (g : Grammar) (before text tail : Text) (frames : List Frame) (log : List Event)
    (frames' : List Frame) : Prop :=
  ∀ tail', Agrees g tail tail' →
    step g { cursor := .past before (text ++ tail'), frames } =
      ⟨log, .ok (.more { cursor := .past (before ++ text) tail', frames := frames' })⟩

/-- Blanks before a construct are read with it. -/
theorem Replays.exists_gap {before gap text tail : Text} {frames frames' : List Frame}
    {log : List Event} (hgap : Blank gap) (hstops : ∀ tail', Stops isBlank (text ++ tail'))
    (hreplays : Replays g (before ++ gap) text tail frames log frames') :
    ∃ text' tail' last, gap ++ (text ++ tail) = text' ++ tail' ∧
      ({ cursor := .past (before ++ gap ++ text) tail, frames := frames' } : State) =
        { cursor := .past (before ++ text') tail', frames := last } ∧
      Replays g before text' tail' frames log last := by
  refine ⟨gap ++ text, tail, frames', by simp, by rw [List.append_assoc], ?_⟩
  intro tail' hagrees
  rw [List.append_assoc, step_gap frames hgap (hstops tail'), hreplays tail' hagrees,
    List.append_assoc]

/-- An element that is complete and not the root goes into the open one around it. -/
theorem exists_of_complete {e : Element} {c : Cursor} {frames : List Frame} {s : State}
    (hcomplete : (complete e c frames).outcome = .ok (.more s)) :
    ∃ frame frames', frames = frame :: frames' ∧
      s = { cursor := c, frames := frame.add e.toNode :: frames' } := by
  cases frames with
  | nil =>
    rw [complete] at hcomplete
    cases hcheck : (checkTrailing c).outcome <;> simp [bind, Traced.bind, hcheck] at hcomplete
  | cons frame frames =>
    cases hcomplete
    exact ⟨frame, frames, rfl, rfl⟩

theorem step_replay {before rest : Text} {frames : List Frame} {log : List Event} {s : State}
    (hstep : step g { cursor := .past before rest, frames } = ⟨log, .ok (.more s)⟩) :
    ∃ text tail frames', rest = text ++ tail ∧
      s = { cursor := .past (before ++ text) tail, frames := frames' } ∧
      Replays g before text tail frames log frames' := by
  obtain ⟨gap, ahead, rfl, hgap, hstepped⟩ := step_cases g before rest frames
  rw [hstep] at hstepped
  generalize hresult : (⟨log, .ok (.more s)⟩ : Traced (Round State Element)) = result at hstepped
  -- a step that goes on has read a tag, or a text, to its end
  cases hstepped with
  | ended =>
    cases frames with
    | nil => cases hresult
    | cons frame frames =>
      rw [finish_cons] at hresult
      cases hresult
  | strayEndTag => cases hresult
  | @endTag frame frames name blanks hname hblanks tail =>
    rw [noteMismatch_eq, Traced.ok_bind] at hresult
    obtain ⟨hlog, houtcome⟩ := Traced.mk.inj hresult
    obtain ⟨around, frames, rfl, rfl⟩ := exists_of_complete houtcome.symm
    refine Replays.exists_gap hgap (fun _ => stops_cons.mpr rfl) ?_
    intro tail' _
    rw [step_endTag_cons g _ tail' frame _ hname hblanks, noteMismatch_eq, Traced.ok_bind, hlog]
    rfl
  | @startTag _ head text tail isSelfClosing hhead hkind hlocation =>
    obtain ⟨hlog, houtcome⟩ := Traced.mk.inj hresult
    have hstart := fun tail' => step_startTag frames (hhead.replay tail') hkind hlocation
    have hstops : ∀ tail', Stops isBlank (text ++ closing isSelfClosing ++ tail') := by
      intro tail'
      rw [List.append_assoc]
      exact hhead.stops_isBlank _
    rw [← List.append_assoc text]
    cases isSelfClosing with
    | true =>
      obtain ⟨around, frames, rfl, rfl⟩ := exists_of_complete houtcome.symm
      refine Replays.exists_gap hgap hstops ?_
      intro tail' _
      rw [List.append_assoc, hstart tail', hlog]
      rfl
    | false =>
      cases houtcome
      refine Replays.exists_gap hgap hstops ?_
      intro tail' _
      rw [List.append_assoc, hstart tail', hlog]
      rfl
  | @text _ text tail run hlayout =>
    have hread : ∀ tail', Agrees g tail tail' → _ :=
      fun tail' hagrees => step_text frames (hlayout.replay hagrees)
    cases frames with
    | nil | cons =>
      cases hresult
      exact Replays.exists_gap hgap hlayout.stops_isBlank hread
  | flawed => cases hresult

/-- The rounds of a parse, replayed in front of another rest. -/
theorem rounds_replay {before rest : Text} {frames : List Frame} {log : List Event} {s : State}
    (hrounds : Rounds (step g) { cursor := .past before rest, frames } log s) :
    ∃ text tail frames', rest = text ++ tail ∧
      s = { cursor := .past (before ++ text) tail, frames := frames' } ∧
      ∀ tail', Agrees g tail tail' →
        Rounds (step g) { cursor := .past before (text ++ tail'), frames } log
          { cursor := .past (before ++ text) tail', frames := frames' } := by
  generalize hs : ({ cursor := .past before rest, frames } : State) = first at hrounds
  induction hrounds generalizing before rest frames with
  | refl =>
    subst hs
    exact ⟨[], rest, frames, rfl, by simp, fun tail' _ => by simpa using .refl _⟩
  | head hstep _ ih =>
    subst hs
    obtain ⟨text, tail, frames', rfl, rfl, hreplays⟩ := step_replay hstep
    obtain ⟨more, tail, last, rfl, rfl, hlater⟩ := ih rfl
    refine ⟨text ++ more, tail, last, by simp, by simp, ?_⟩
    intro tail' hagrees
    -- the rest of the first round is what the later rounds read, and then the new rest
    have hfirst := hreplays (more ++ tail') (hagrees.append more)
    have hrounds := hlater tail' hagrees
    rw [List.append_assoc] at hrounds ⊢
    exact .head hfirst hrounds

/-- What a parse has read so far is read the same in front of another rest. -/
theorem rounds_before {before rest rest' : Text} {frames : List Frame} {log : List Event}
    (hrounds : Rounds (step g) { cursor := .past [] (before ++ rest) } log
      { cursor := .past before rest, frames })
    (hagrees : Agrees g rest rest') :
    Rounds (step g) { cursor := .past [] (before ++ rest') } log
      { cursor := .past before rest', frames } := by
  obtain ⟨text, tail, frames', hsource, hstate, hreplay⟩ := rounds_replay hrounds
  obtain ⟨hcursor, rfl⟩ := State.mk.inj hstate
  obtain rfl : rest = tail := congrArg Cursor.rest hcursor
  obtain rfl : before = text := List.append_cancel_right hsource
  exact hreplay rest' hagrees

end Parser

end MarkupCompiler
