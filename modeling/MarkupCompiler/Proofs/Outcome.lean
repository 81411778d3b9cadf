import MarkupCompiler.Proofs.Layout

/-!
# What a parse comes to

The consumed text is laid out as the open elements after every step, and only the last step reports
anything. So a parse ends in one of five ways, which `parse_cases` lists: a flaw, no element at all,
a stray end tag before any element, a complete root, or open elements that are folded together.
-/

namespace MarkupCompiler.Parser

open Text Lexeme

/-- What is reported about an end tag without an open element. -/
def strayEnd (name : Text) (location : Location) : Diagnostic where
  cause := .strayEndTag
  detail := some ([' ', '<', '/'] ++ name ++ ['>'])
  location := location

/-- What is reported about an element without an end tag. -/
def missingEnd (head : Head) : Diagnostic where
  cause := .missingEndTag
  detail := some ([' ', '<'] ++ head.tagName ++ ['>'])
  location := head.location

/-- The tree around an element, with the open elements around it closed as they are. -/
def enclose (e : Element) : List Frame → Element
  | [] => e
  | frame :: frames => enclose (frame.add e.toNode).close frames

variable {g : Grammar}

/-! ### The ends of a parse -/

theorem foldUnfinished_eq (e : Element) (frames : List Frame) :
    foldUnfinished e frames =
      ⟨frames.map fun frame => .reported (missingEnd frame.head), .ok (enclose e frames)⟩ := by
  induction frames generalizing e with
  | nil => rfl
  | cons frame frames ih =>
    rw [foldUnfinished, ih]
    rfl

theorem finish_cons (frame : Frame) (frames : List Frame) :
    finish (frame :: frames) =
      ⟨(frame :: frames).map fun frame => .reported (missingEnd frame.head),
        .ok (enclose frame.close frames)⟩ := by
  rw [finish, foldUnfinished_eq]
  rfl

theorem checkTrailing_endTag (before tail : Text) {gap name blanks : Text} (hgap : Blank gap)
    (hname : IsTagName name) (hblanks : Blank blanks) :
    checkTrailing (.past before (gap ++ (endTag name blanks ++ tail))) =
      ⟨[.reported (strayEnd name (.between (before ++ gap) (endTag name blanks)))], .ok ()⟩ := by
  have hstops : Stops isBlank (endTag name blanks ++ tail) := stops_cons.mpr rfl
  simp only [checkTrailing, Cursor.skipBlanks_past hgap hstops, Traced.check_ok, pure_bind,
    Cursor.rest_past, endTag?_append hname hblanks tail, Cursor.peek_past rfl]
  rfl

/-- Only an end tag after the root is reported. -/
theorem checkTrailing_cases (before rest : Text) :
    ∃ gap ahead, rest = gap ++ ahead ∧ Blank gap ∧ Stops isBlank ahead ∧
      ((∃ name blanks tail, ahead = endTag name blanks ++ tail ∧ IsTagName name ∧ Blank blanks ∧
          checkTrailing (.past before rest) =
            ⟨[.reported (strayEnd name (.between (before ++ gap) (endTag name blanks)))],
              .ok ()⟩) ∨
        (endTag? ahead = .ok none ∧ checkTrailing (.past before rest) =
          ⟨if ahead.isEmpty then [] else [.afterRoot (.after (before ++ gap))], .ok ()⟩)) := by
  obtain ⟨gap, ahead, rfl, hgap, hstops⟩ := exists_run isBlank rest
  refine ⟨gap, ahead, rfl, hgap, hstops, ?_⟩
  rcases endTag?_cases ahead with hnone | ⟨name, blanks, tail, rfl, hname, hblanks, _⟩
  · refine .inr ⟨hnone, ?_⟩
    simp only [checkTrailing, Cursor.skipBlanks_past hgap hstops, Traced.check_ok, pure_bind,
      Cursor.rest_past, hnone]
    cases ahead <;> rfl
  · exact .inl ⟨name, blanks, tail, rfl, hname, hblanks,
      checkTrailing_endTag before tail hgap hname hblanks⟩

theorem checkTrailing_outcome (before rest : Text) :
    (checkTrailing (.past before rest)).outcome = .ok () := by
  obtain ⟨gap, ahead, _, _, _, ⟨_, _, _, _, _, _, hcheck⟩ | ⟨_, hcheck⟩⟩ :=
    checkTrailing_cases before rest
  · rw [hcheck]
  · rw [hcheck]

theorem cause_of_checkTrailing {before rest : Text} {d : Diagnostic}
    (hd : d ∈ (checkTrailing (.past before rest)).reports) : d.cause = .strayEndTag := by
  obtain ⟨_, ahead, _, _, _, ⟨name, blanks, _, _, _, _, hcheck⟩ | ⟨_, hcheck⟩⟩ :=
    checkTrailing_cases before rest
  · rw [hcheck] at hd
    rw [List.mem_singleton.mp hd]
    rfl
  · rw [hcheck] at hd
    cases ahead <;> cases hd

theorem complete_nil (e : Element) (before rest : Text) :
    complete e (.past before rest) [] =
      ⟨(checkTrailing (.past before rest)).log, .ok (.done e)⟩ := by
  have houtcome := checkTrailing_outcome before rest
  rw [complete]
  generalize checkTrailing (.past before rest) = check at houtcome ⊢
  obtain ⟨log, outcome⟩ := check
  subst houtcome
  rw [Traced.ok_bind]
  simp [pure, Traced.pure]

theorem noteMismatch_eq (found expected : Text) :
    noteMismatch found expected =
      ⟨if found = expected then [] else [.mismatch found expected], .ok ()⟩ := by
  unfold noteMismatch
  split <;> rfl

/-! ### One step -/

/-- The trees that a parse of `source` can return, with what it reports. -/
inductive Parsed (g : Grammar) (source : Text) : List Diagnostic → Element → Prop
  | empty : Parsed g source [] Element.emptyRoot
  | stray {before name blanks tail : Text}
      (hsource : source = before ++ (endTag name blanks ++ tail)) (hname : IsTagName name)
      (hblanks : Blank blanks) :
      Parsed g source [strayEnd name (.between before (endTag name blanks))] Element.emptyRoot
  | complete {before text after : Text} {e : Element} (hsource : source = before ++ (text ++ after))
      (hlayout : NodeLayout g .root before after e.toNode text) :
      Parsed g source (checkTrailing (.past (before ++ text) after)).reports e
  | unfinished {before gap : Text} {frame : Frame} {frames : List Frame}
      (hsource : source = before ++ gap) (hgap : Blank gap)
      (hframes : FramesLayout g (frame :: frames) before gap) :
      Parsed g source ((frame :: frames).map fun frame => missingEnd frame.head)
        (enclose frame.close frames)

/-- A state of the parse of `source`: what is consumed is laid out. -/
inductive Reading (g : Grammar) (source : Text) : State → Prop
  | intro {before rest : Text} {frames : List Frame} (hsource : source = before ++ rest)
      (hframes : FramesLayout g frames before rest) :
      Reading g source { cursor := .past before rest, frames }

/-- What a step of the parse of `source` comes to. -/
inductive Advanced (g : Grammar) (source : Text) : Traced (Round State Element) → Prop
  | more {log : List Event} {s : State} (hreading : Reading g source s)
      (hsilent : log.filterMap Event.reported? = []) : Advanced g source ⟨log, .ok (.more s)⟩
  | done {log : List Event} {e : Element}
      (hparsed : Parsed g source (log.filterMap Event.reported?) e) :
      Advanced g source ⟨log, .ok (.done e)⟩
  | flawed {before rest : Text} {kind : ElementKind} {log : List Event} {d : Diagnostic}
      (hsource : source = before ++ rest) (hflaw : Flaw g before kind rest log d)
      (hsilent : log.filterMap Event.reported? = []) :
      Advanced g source ⟨log, .error (.problem d)⟩

theorem reported?_events (attributes : List Attribute) :
    (attributes.map Attribute.event).filterMap Event.reported? = [] := by
  induction attributes with
  | nil => rfl
  | cons a attributes ih =>
    rw [List.map_cons, Attribute.event, List.filterMap_cons_none rfl, ih]

theorem reported?_missingEnds (frames : List Frame) :
    (frames.map fun frame => Event.reported (missingEnd frame.head)).filterMap Event.reported? =
      frames.map fun frame => missingEnd frame.head := by
  rw [List.filterMap_map]
  exact congrFun List.filterMap_eq_map' frames

theorem Flaw.silent {before rest : Text} {kind : ElementKind} {log : List Event} {d : Diagnostic}
    (hflaw : Flaw g before kind rest log d) : log.filterMap Event.reported? = [] := by
  cases hflaw with
  | endTag | startTag | interpolation => rfl
  | endInTag | malformedAttribute => exact reported?_events _

/-- A complete element is the root, or goes into the innermost open element. -/
theorem advanced_complete {source outer gap text after : Text} {frames : List Frame} {e : Element}
    {log : List Event} (hsource : source = outer ++ (gap ++ (text ++ after))) (hgap : Blank gap)
    (hframes : FramesLayout g frames outer (gap ++ (text ++ after)))
    (hnode : NodeLayout g (kindWithin frames) (outer ++ gap) after e.toNode text)
    (hsilent : log.filterMap Event.reported? = []) :
    Advanced g source
      ⟨log ++ (complete e (.past (outer ++ (gap ++ text)) after) frames).log,
        (complete e (.past (outer ++ (gap ++ text)) after) frames).outcome⟩ := by
  cases frames with
  | nil =>
    rw [complete_nil]
    apply Advanced.done
    have hparsed : Parsed g source (checkTrailing (.past (outer ++ gap ++ text) after)).reports e :=
      .complete (by simpa using hsource) hnode
    simpa [hsilent, Traced.reports] using hparsed
  | cons frame frames =>
    apply Advanced.more
    · exact .intro (by simpa using hsource) (hframes.add hgap hnode)
    · simpa [complete] using hsilent

theorem step_advances {before rest : Text} {frames : List Frame}
    (hframes : FramesLayout g frames before rest) :
    Advanced g (before ++ rest) (step g { cursor := .past before rest, frames }) := by
  obtain ⟨gap, ahead, rfl, hgap, hstepped⟩ := step_cases g before rest frames
  generalize step g { cursor := .past before (gap ++ ahead), frames } = result at hstepped ⊢
  cases hstepped with
  | ended =>
    cases frames with
    | nil => exact .done .empty
    | cons frame frames =>
      rw [List.append_nil] at hframes ⊢
      rw [finish_cons, Traced.ok_bind, Traced.log_pure, List.append_nil]
      apply Advanced.done
      rw [reported?_missingEnds]
      exact .unfinished rfl hgap hframes
  | strayEndTag hname hblanks tail =>
    apply Advanced.done
    exact .stray (List.append_assoc before gap _).symm hname hblanks
  | @endTag frame frames name blanks hname hblanks tail =>
    obtain ⟨outer, space, text, hconsumed, hspace, houter, hnode⟩ :=
      hframes.close hgap hname hblanks
    -- the closed element begins right after the elements around it, which are laid out as before
    rw [noteMismatch_eq, Traced.ok_bind, List.append_assoc, hconsumed]
    refine advanced_complete ?_ hspace houter ?_ ?_
    · rw [← List.append_assoc gap, ← List.append_assoc before, hconsumed]
      simp
    · rw [List.append_assoc, hconsumed] at hnode
      exact hnode
    · split <;> rfl
  | @startTag _ head text tail isSelfClosing hhead hkind hlocation =>
    cases isSelfClosing with
    | true =>
      have hnode : NodeLayout g (kindWithin frames) (before ++ gap) tail (.element head [])
          (text ++ closing true) := .selfClosed hhead hkind hlocation
      rw [List.append_assoc, ← List.cons_append]
      refine advanced_complete (by simp) hgap (by simpa using hframes) hnode ?_
      exact reported?_events _
    | false =>
      apply Advanced.more
      · refine .intro ?_ ?_
        · simp
        · rw [List.append_assoc]
          exact hframes.push hgap hhead hkind hlocation
      · simp only [afterStartTag, Bool.false_eq_true, if_false, Traced.log_pure, List.append_nil]
        exact reported?_events head.attributes
  | @text _ text tail run hlayout =>
    cases frames with
    | nil =>
      exact .more (.intro (by simp) (.nil _ _)) rfl
    | cons frame frames =>
      apply Advanced.more
      · refine .intro (by simp) ?_
        rw [List.append_assoc]
        exact hframes.add hgap (.text hlayout)
      · rfl
  | flawed hflaw => exact .flawed (by simp) hflaw hflaw.silent

/-! ### The whole parse -/

theorem Reading.advances {source : Text} {s : State} (hreading : Reading g source s) :
    Advanced g source (step g s) := by
  cases hreading with
  | intro hsource hframes =>
    rw [hsource]
    exact step_advances hframes

theorem reading_of_rounds {source : Text} {s s' : State} {log : List Event}
    (hrounds : Traced.Rounds (step g) s log s') (hreading : Reading g source s) :
    Reading g source s' ∧ log.filterMap Event.reported? = [] := by
  induction hrounds with
  | refl => exact ⟨hreading, rfl⟩
  | head hstep _ ih =>
    have hadvanced := hreading.advances
    rw [hstep] at hadvanced
    cases hadvanced with
    | more hnext hsilent =>
      obtain ⟨hlast, hlater⟩ := ih hnext
      exact ⟨hlast, by rw [List.filterMap_append, hsilent, hlater, List.append_nil]⟩

theorem parse_eq (g : Grammar) (source : Text) :
    parse g source =
      Traced.loop (·.cursor.rest.length) (step g) (step_shrinks g) { cursor := .past [] source } >>=
        fun root => ⟨[.parsed root.tagName root.children.length], .ok root⟩ := rfl

theorem parse_eq_of_rounds {source : Text} {log last : List Event} {s : State} {root : Element}
    (hrounds : Traced.Rounds (step g) { cursor := .past [] source } log s)
    (hstep : step g s = ⟨last, .ok (.done root)⟩) :
    parse g source =
      ⟨log ++ last ++ [.parsed root.tagName root.children.length], .ok root⟩ := by
  rw [parse_eq, Traced.loop_of_rounds hrounds,
    Traced.loop_of_done (congrArg Traced.outcome hstep), hstep]
  rfl

/-- The rounds of a parse report nothing, so that its reports are those of the last step. -/
theorem parse_of_rounds {source : Text} {log last : List Event} {s : State} {root : Element}
    (hrounds : Traced.Rounds (step g) { cursor := .past [] source } log s)
    (hstep : step g s = ⟨last, .ok (.done root)⟩) :
    (parse g source).outcome = .ok root ∧
      (parse g source).reports = last.filterMap Event.reported? := by
  have hstart : Reading g source { cursor := .past [] source } := .intro rfl (.nil _ _)
  obtain ⟨_, hsilent⟩ := reading_of_rounds hrounds hstart
  rw [parse_eq_of_rounds hrounds hstep]
  refine ⟨rfl, ?_⟩
  rw [Traced.reports, List.filterMap_append, List.filterMap_append, hsilent,
    List.filterMap_cons_none rfl, List.filterMap_nil, List.append_nil, List.nil_append]

/-- A parse returns a tree or stops at a flaw; only a parse that returns a tree reports anything. -/
theorem parse_cases (g : Grammar) (source : Text) :
    (∃ root, (parse g source).outcome = .ok root ∧
        Parsed g source (parse g source).reports root) ∨
      ∃ before rest kind log d, source = before ++ rest ∧ Flaw g before kind rest log d ∧
        (parse g source).outcome = .error (.problem d) ∧ (parse g source).reports = [] := by
  have hstart : Reading g source { cursor := .past [] source } := .intro rfl (.nil _ _)
  obtain ⟨log, s, last, hrounds, hlast⟩ :=
    Traced.exists_rounds (·.cursor.rest.length) (step g) (step_shrinks g)
      { cursor := .past [] source }
  obtain ⟨hreading, hsilent⟩ := reading_of_rounds hrounds hstart
  have hadvanced := hreading.advances
  rcases hlast with ⟨stop, hstop, hloop⟩ | ⟨root, hdone, _⟩
  · right
    have hparse : parse g source = ⟨log ++ last, .error stop⟩ := by
      rw [parse_eq, hloop]
      rfl
    rw [hstop] at hadvanced
    cases hadvanced with
    | flawed hsource hflaw hquiet =>
      refine ⟨_, _, _, _, _, hsource, hflaw, by rw [hparse], ?_⟩
      rw [hparse, Traced.reports, List.filterMap_append, hsilent, hquiet, List.append_nil]
  · left
    obtain ⟨hok, hreports⟩ := parse_of_rounds hrounds hdone
    rw [hdone] at hadvanced
    cases hadvanced with
    | done hparsed =>
      rw [hreports]
      exact ⟨root, hok, hparsed⟩

theorem parsed_of_parse {source : Text} {root : Element}
    (hparse : (parse g source).outcome = .ok root) :
    Parsed g source (parse g source).reports root := by
  rcases parse_cases g source with ⟨root', hok, hparsed⟩ | ⟨_, _, _, _, _, _, _, hflaw, _⟩
  · obtain rfl : root' = root := by simpa [hparse] using hok.symm
    exact hparsed
  · rw [hparse] at hflaw
    cases hflaw

theorem exists_layout_of_silent {source : Text} {root : Element}
    (hparse : (parse g source).outcome = .ok root) (hreports : (parse g source).reports = []) :
    root = Element.emptyRoot ∨ ∃ before text after, source = before ++ (text ++ after) ∧
      NodeLayout g .root before after root.toNode text := by
  have hparsed := parsed_of_parse hparse
  generalize (parse g source).reports = reports at hreports hparsed
  cases hparsed with
  | empty => exact .inl rfl
  | stray => cases hreports
  | unfinished => cases hreports
  | complete hsource hlayout => exact .inr ⟨_, _, _, hsource, hlayout⟩

end MarkupCompiler.Parser
