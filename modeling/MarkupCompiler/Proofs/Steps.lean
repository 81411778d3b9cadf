import MarkupCompiler.Proofs.TagBody
import MarkupCompiler.Tree.Parser

/-!
# One construct at a time

Each construct of a template has a layout in the text around it. A step of the parser reads what is
laid out at its cursor (`step_endTag_cons`, `step_startTag`, `step_text`), and `step_cases` lists
all that a step can come to, with the places of the flaws that stop it.
-/

namespace MarkupCompiler

open Text Lexeme

/-- The run of plain text read from `content`, right after `before`. -/
def TextRun.readPlain (before content : Text) : TextRun where
  kind := .plain
  content := content
  location := .between before content

/-- The interpolation read from `body` between delimiters, right after `before`. -/
def TextRun.readInterpolation (d : Delimiters) (before body : Text) : TextRun where
  kind := .interpolation
  content := trim body
  location := .between before (d.opening ++ (body ++ d.closing))

namespace Parser

/-- Plain text that is read as one run when `after` follows it. -/
structure PlainLayout (g : Grammar) (after content : Text) : Prop where
  ne_nil : content ≠ []
  not_blank : Stops isBlank content
  no_angle : '<' ∉ content
  not_opening : g.delimiters.opening ≠ [] → ¬ g.delimiters.opening <+: content ++ after
  ends : EndsText g.delimiters.opening after
  size : textSize g.delimiters.opening (content ++ after) = .ok (byteSize content)

/-- The text of an interpolation that is read up to `after`. -/
structure InterpolationLayout (g : Grammar) (after body : Text) : Prop where
  ne_nil : g.delimiters.opening ≠ []
  not_blank : Stops isBlank g.delimiters.opening
  not_angle : Stops (· == '<') g.delimiters.opening
  closing_absent : Absent g.delimiters.closing body (g.delimiters.closing ++ after)

/-- A run of text, in the text between `before` and `after`. -/
inductive TextLayout (g : Grammar) (before after : Text) : TextRun → Text → Prop
  | plain {content : Text} (hcontent : PlainLayout g after content) :
      TextLayout g before after (.readPlain before content) content
  | interpolation {body : Text} (hbody : InterpolationLayout g after body) :
      TextLayout g before after (.readInterpolation g.delimiters before body)
        (g.delimiters.opening ++ (body ++ g.delimiters.closing))

/-- The kind of an element inside of the open ones. -/
def kindWithin (frames : List Frame) : ElementKind :=
  if frames.isEmpty then .root else .element

variable {g : Grammar}

/-! ### What is laid out is read -/

/-- Blanks before a construct only move it. -/
theorem step_gap (frames : List Frame) {before gap rest : Text} (hgap : Blank gap)
    (hrest : Stops isBlank rest) :
    step g { cursor := .past before (gap ++ rest), frames } =
      step g { cursor := .past (before ++ gap) rest, frames } := by
  simp only [step, Cursor.skipBlanks_past hgap hrest,
    Cursor.skipBlanks_of_stops (before ++ gap) hrest]

theorem step_eq_readEndTag (g : Grammar) (before tail : Text) (frames : List Frame) :
    step g { cursor := .past before ('<' :: '/' :: tail), frames } =
      readEndTag (.past before ('<' :: '/' :: tail)) frames := by
  have hblank : Stops isBlank ('<' :: '/' :: tail) := stops_cons.mpr rfl
  simp only [step, Cursor.skipBlanks_of_stops before hblank]
  rfl

theorem step_eq_readStartTag (g : Grammar) (before : Text) (frames : List Frame) {tail : Text}
    (htail : Stops (· == '/') tail) :
    step g { cursor := .past before ('<' :: tail), frames } =
      readStartTag g (.past before ('<' :: tail)) frames := by
  have hblank : Stops isBlank ('<' :: tail) := stops_cons.mpr rfl
  have hnot : ['<', '/'].isPrefixOf ('<' :: tail) = false := by
    cases tail with
    | nil => rfl
    | cons c tail =>
      have hc : c ≠ '/' := by simpa using stops_cons.mp htail
      simp [List.isPrefixOf, Ne.symm hc]
  simp only [step, Cursor.skipBlanks_of_stops before hblank, Traced.check_ok, pure_bind,
    Cursor.rest_past, hnot]
  rfl

theorem step_eq_readInterpolation (before : Text) (frames : List Frame) {rest : Text}
    (hne : g.delimiters.opening ≠ []) (hopens : g.delimiters.opening <+: rest)
    (hblank : Stops isBlank rest) (hangle : Stops (· == '<') rest) :
    step g { cursor := .past before rest, frames } =
      readInterpolation g (.past before rest) frames := by
  cases rest with
  | nil => exact absurd (List.prefix_nil.mp hopens) hne
  | cons c rest =>
    have hc : c ≠ '<' := by simpa using stops_cons.mp hangle
    simp [step, Cursor.skipBlanks_of_stops before hblank, Traced.check_ok, Ne.symm hc, hopens, hne]

theorem step_eq_readText (before : Text) (frames : List Frame) {c : Char} {rest : Text}
    (hblank : Stops isBlank (c :: rest)) (hangle : c ≠ '<')
    (hopening : g.delimiters.opening ≠ [] → ¬ g.delimiters.opening <+: c :: rest) :
    step g { cursor := .past before (c :: rest), frames } =
      readText g (.past before (c :: rest)) frames := by
  have hnot : (!g.delimiters.opening.isEmpty && g.delimiters.opening.isPrefixOf (c :: rest)) =
      false := by
    by_cases hempty : g.delimiters.opening = []
    · simp [hempty]
    · have hnot := hopening hempty
      rw [← List.isPrefixOf_iff_prefix, Bool.not_eq_true] at hnot
      simp [hnot]
  simp only [step, Cursor.skipBlanks_of_stops before hblank, Traced.check_ok, pure_bind,
    Cursor.rest_past, hnot]
  simp [List.isPrefixOf, Ne.symm hangle]

/-- An end tag without an open element is reported, and ends the parse. -/
theorem step_endTag_nil (g : Grammar) (before tail : Text) {name blanks : Text}
    (hname : IsTagName name) (hblanks : Blank blanks) :
    step g { cursor := .past before (endTag name blanks ++ tail), frames := [] } = (do
      reportStrayEnd name (.between before (endTag name blanks))
      return .done Element.emptyRoot) := by
  have hread := endTag?_append hname hblanks tail
  rw [endTag_append] at hread
  rw [endTag_append, step_eq_readEndTag]
  simp only [readEndTag, Cursor.rest_past, hread, Traced.check_ok, pure_bind]
  rw [← endTag_append, Cursor.moveBy_past rfl]
  rfl

theorem step_endTag_cons (g : Grammar) (before tail : Text) (frame : Frame) (frames : List Frame)
    {name blanks : Text} (hname : IsTagName name) (hblanks : Blank blanks) :
    step g { cursor := .past before (endTag name blanks ++ tail), frames := frame :: frames } = (do
      noteMismatch name frame.head.tagName
      let e := frame.close
      complete { e with location.stop := .after (before ++ endTag name blanks) }
        (.past (before ++ endTag name blanks) tail) frames) := by
  have hread := endTag?_append hname hblanks tail
  rw [endTag_append] at hread
  rw [endTag_append, step_eq_readEndTag]
  simp only [readEndTag, Cursor.rest_past, hread, Traced.check_ok, pure_bind]
  rw [← endTag_append, Cursor.moveBy_past rfl]
  rfl

theorem step_text (frames : List Frame) {before after text : Text} {run : TextRun}
    (hlayout : TextLayout g before after run text) :
    step g { cursor := .past before (text ++ after), frames } = (do
      let frames ← attach (.text run) frames
      return .more { cursor := .past (before ++ text) after, frames }) := by
  cases hlayout with
  | plain hcontent =>
    have hsize := hcontent.size
    obtain ⟨c, more, rfl⟩ := List.exists_cons_of_ne_nil hcontent.ne_nil
    have hblank : Stops isBlank (c :: (more ++ after)) :=
      stops_cons.mpr (stops_cons.mp hcontent.not_blank)
    have hangle : c ≠ '<' := fun heq => hcontent.no_angle (by simp [heq])
    have hread := step_eq_readText before frames hblank hangle hcontent.not_opening
    rw [List.cons_append, hread]
    rw [← List.cons_append]
    simp only [readText, Cursor.rest_past, hsize, Traced.check_ok, pure_bind,
      Cursor.moveBy_past rfl]
    rfl
  | @interpolation body hbody =>
    have hread := interpolation?_append hbody.closing_absent
    have hmove : (Cursor.past before
          ((g.delimiters.opening ++ (body ++ g.delimiters.closing)) ++ after)).moveBy
          (byteSize (g.delimiters.opening ++ (body ++ g.delimiters.closing))) =
        .ok (g.delimiters.opening ++ (body ++ g.delimiters.closing), _) :=
      Cursor.moveBy_past rfl
    simp only [List.append_assoc] at hmove ⊢
    rw [step_eq_readInterpolation before frames hbody.ne_nil (List.prefix_append _ _)
      ((stops_append_iff hbody.ne_nil).mpr hbody.not_blank)
      ((stops_append_iff hbody.ne_nil).mpr hbody.not_angle)]
    simp only [readInterpolation, Cursor.rest_past, hread, Traced.check_ok, pure_bind, hmove]
    rfl

/-- Goes on after a start tag: with the element complete, or open. -/
def afterStartTag (head : Head) (isSelfClosing : Bool) (c : Cursor) (frames : List Frame) :
    Traced (Round State Element) :=
  if isSelfClosing then complete { head with } c frames
  else return .more { cursor := c, frames := { head } :: frames }

theorem readStartTag_name (g : Grammar) (before : Text) (frames : List Frame) {name rest : Text}
    (hname : IsTagName name) (hstop : Stops isNameChar rest) :
    readStartTag g (.past before ('<' :: (name ++ rest))) frames = (do
      Traced.emit (.startTag name (kindWithin frames))
      let body ← readTagBody g (.after before) (.past (before ++ '<' :: name) rest)
      let head : Head :=
        { kind := kindWithin frames, tagName := name, attributes := body.attributes
          location := body.cursor.locationFrom (.after before) }
      afterStartTag head body.isSelfClosing body.cursor frames) := by
  have hmove : (Cursor.past before (('<' :: name) ++ rest)).moveBy (byteSize ('<' :: name)) =
      .ok ('<' :: name, .past (before ++ '<' :: name) rest) := Cursor.moveBy_past rfl
  have hangle : cut 1 ('<' :: name) = .ok (['<'], name) := cut_first '<' name
  rw [List.cons_append] at hmove
  simp only [readStartTag, Cursor.rest_past, tagOpening?_append hname hstop, hmove, Traced.check_ok,
    pure_bind, hangle]
  rfl

theorem stops_slash_of_isTagName {name : Text} (hname : IsTagName name) (rest : Text) :
    Stops (· == '/') (name ++ rest) := by
  obtain ⟨⟨c, hc, halpha⟩, _⟩ := hname
  cases name with
  | nil => cases hc
  | cons d name =>
    obtain rfl : d = c := by simpa using hc
    rw [List.cons_append, stops_cons, beq_eq_false_iff_ne]
    rintro rfl
    cases halpha

theorem step_startTag (frames : List Frame) {before tail text : Text} {head : Head}
    {isSelfClosing : Bool} (hlayout : HeadLayout g before (closing isSelfClosing ++ tail) head text)
    (hkind : head.kind = kindWithin frames)
    (hlocation : head.location = .between before (text ++ closing isSelfClosing)) :
    step g { cursor := .past before (text ++ (closing isSelfClosing ++ tail)), frames } =
      ⟨.startTag head.tagName head.kind :: (head.attributes.map Attribute.event ++
          (afterStartTag head isSelfClosing
            (.past (before ++ (text ++ closing isSelfClosing)) tail) frames).log),
        (afterStartTag head isSelfClosing
          (.past (before ++ (text ++ closing isSelfClosing)) tail) frames).outcome⟩ := by
  cases hlayout with
  | @intro attributes gap hname hstop hattributes hgap =>
    have hrest : '<' :: (head.tagName ++ (attributes ++ gap)) ++ (closing isSelfClosing ++ tail) =
        '<' :: (head.tagName ++ (attributes ++ (gap ++ (closing isSelfClosing ++ tail)))) := by simp
    have hend : before ++ '<' :: head.tagName ++ (attributes ++ (gap ++ closing isSelfClosing)) =
        before ++ ('<' :: (head.tagName ++ (attributes ++ gap)) ++ closing isSelfClosing) := by simp
    have hbody := readTagBody_of_layout (.after before) hattributes hgap
    rw [hend] at hbody
    rw [hrest, step_eq_readStartTag g before frames (stops_slash_of_isTagName hname _),
      readStartTag_name g before frames hname hstop, hbody]
    have hhead : ({ kind := head.kind, tagName := head.tagName, attributes := head.attributes
                    location := .between before
                      ('<' :: (head.tagName ++ (attributes ++ gap)) ++ closing isSelfClosing) } :
        Head) = head := by
      rw [← hlocation]
    simp only [Traced.ok_bind, Cursor.locationFrom_past, ← hkind, hhead]
    rfl

/-! ### All that a step can come to -/

/-- A flaw that stops the parse at a construct right after `before`: what stands there, what was
noted before the flaw was met, and what is said about it. -/
inductive Flaw (g : Grammar) (before : Text) (kind : ElementKind) :
    Text → List Event → Diagnostic → Prop
  | endTag {tail : Text} (hnone : endTag? ('<' :: '/' :: tail) = .ok none) :
      Flaw g before kind ('<' :: '/' :: tail) []
        { cause := .malformedEndTag, location := .between before ['<', '/'] }
  | startTag {tail : Text} (htail : Stops (· == '/') tail)
      (hnone : tagOpening? ('<' :: tail) = none) :
      Flaw g before kind ('<' :: tail) []
        { cause := .malformedStartTag, location := .between before ['<'] }
  | endInTag {name text gap : Text} {attributes : List Attribute} (hname : IsTagName name)
      (hlayout : AttributesLayout g gap (before ++ '<' :: name) attributes text)
      (hgap : Blank gap) :
      Flaw g before kind ('<' :: (name ++ (text ++ gap)))
        (.startTag name kind :: attributes.map Attribute.event)
        { cause := .endInTag, location := .between before ('<' :: (name ++ (text ++ gap))) }
  | malformedAttribute {name text gap tail : Text} {c : Char} {attributes : List Attribute}
      (hname : IsTagName name)
      (hlayout : AttributesLayout g (gap ++ c :: tail) (before ++ '<' :: name) attributes text)
      (hgap : Blank gap) :
      Flaw g before kind ('<' :: (name ++ (text ++ (gap ++ c :: tail))))
        (.startTag name kind :: attributes.map Attribute.event)
        { cause := .malformedAttribute
          location := .between (before ++ '<' :: (name ++ (text ++ gap))) [c] }
  | interpolation {tail : Text} (hne : g.delimiters.opening ≠ [])
      (hnone : interpolation? g.delimiters (g.delimiters.opening ++ tail) = .ok none) :
      Flaw g before kind (g.delimiters.opening ++ tail) []
        { cause := .missingInterpolationEnd
          location := .between before (g.delimiters.opening ++ tail) }

/-- What one step of the parser comes to, by what stands right after `before`. -/
inductive Stepped (g : Grammar) (before : Text) :
    List Frame → Text → Traced (Round State Element) → Prop
  | ended (frames : List Frame) :
      Stepped g before frames [] (do return .done (← finish frames))
  | strayEndTag {name blanks : Text} (hname : IsTagName name) (hblanks : Blank blanks)
      (tail : Text) :
      Stepped g before [] (endTag name blanks ++ tail) (do
        reportStrayEnd name (.between before (endTag name blanks))
        return .done Element.emptyRoot)
  | endTag (frame : Frame) (frames : List Frame) {name blanks : Text} (hname : IsTagName name)
      (hblanks : Blank blanks) (tail : Text) :
      Stepped g before (frame :: frames) (endTag name blanks ++ tail) (do
        noteMismatch name frame.head.tagName
        let e := frame.close
        complete { e with location.stop := .after (before ++ Lexeme.endTag name blanks) }
          (.past (before ++ Lexeme.endTag name blanks) tail) frames)
  | startTag {frames : List Frame} {head : Head} {text tail : Text} {isSelfClosing : Bool}
      (hlayout : HeadLayout g before (closing isSelfClosing ++ tail) head text)
      (hkind : head.kind = kindWithin frames)
      (hlocation : head.location = .between before (text ++ closing isSelfClosing)) :
      Stepped g before frames (text ++ (closing isSelfClosing ++ tail))
        ⟨.startTag head.tagName head.kind :: (head.attributes.map Attribute.event ++
            (afterStartTag head isSelfClosing
              (.past (before ++ (text ++ closing isSelfClosing)) tail) frames).log),
          (afterStartTag head isSelfClosing
            (.past (before ++ (text ++ closing isSelfClosing)) tail) frames).outcome⟩
  | text (frames : List Frame) {text tail : Text} {run : TextRun}
      (hlayout : TextLayout g before tail run text) :
      Stepped g before frames (text ++ tail) (do
        let frames ← attach (.text run) frames
        return .more { cursor := .past (before ++ text) tail, frames })
  | flawed {frames : List Frame} {rest : Text} {log : List Event} {d : Diagnostic}
      (hflaw : Flaw g before (kindWithin frames) rest log d) :
      Stepped g before frames rest ⟨log, .error (.problem d)⟩

theorem stepped_endTag (g : Grammar) (before tail : Text) (frames : List Frame) :
    Stepped g before frames ('<' :: '/' :: tail)
      (step g { cursor := .past before ('<' :: '/' :: tail), frames }) := by
  rcases endTag?_cases ('<' :: '/' :: tail) with
    hnone | ⟨name, blanks, rest, hsplit, hname, hblanks, _⟩
  · have hpeek : (Cursor.past before (['<', '/'] ++ tail)).peek 2 =
        .ok (.between before ['<', '/']) := Cursor.peek_past (by decide)
    have hfail : step g { cursor := .past before ('<' :: '/' :: tail), frames } =
        ⟨[], .error (.problem
          { cause := .malformedEndTag, location := .between before ['<', '/'] })⟩ := by
      simp only [List.cons_append, List.nil_append] at hpeek
      rw [step_eq_readEndTag]
      simp only [readEndTag, Cursor.rest_past, hnone, Traced.check_ok, pure_bind, failAhead, hpeek]
      rfl
    rw [hfail]
    exact .flawed (.endTag hnone)
  · rw [hsplit]
    cases frames with
    | nil =>
      rw [step_endTag_nil g before rest hname hblanks]
      exact .strayEndTag hname hblanks rest
    | cons frame frames =>
      rw [step_endTag_cons g before rest frame frames hname hblanks]
      exact .endTag frame frames hname hblanks rest

theorem stepped_startTag (g : Grammar) (before : Text) (frames : List Frame) {tail : Text}
    (htail : Stops (· == '/') tail) :
    Stepped g before frames ('<' :: tail)
      (step g { cursor := .past before ('<' :: tail), frames }) := by
  rcases tagOpening?_cases tail with hnone | ⟨name, rest, rfl, hname, hstop, _⟩
  · have hpeek : (Cursor.past before (['<'] ++ tail)).peek 1 =
        .ok (.between before ['<']) := Cursor.peek_past (by decide)
    have hfail : step g { cursor := .past before ('<' :: tail), frames } =
        ⟨[], .error (.problem
          { cause := .malformedStartTag, location := .between before ['<'] })⟩ := by
      rw [List.singleton_append] at hpeek
      rw [step_eq_readStartTag g before frames htail]
      simp only [readStartTag, Cursor.rest_past, hnone, failAhead, Traced.check_ok, pure_bind,
        hpeek]
      rfl
    rw [hfail]
    exact .flawed (.startTag htail hnone)
  · have hread := readStartTag_name g before frames hname hstop
    have hbody := readTagBody_cases g (.after before) (before ++ '<' :: name) rest
    have hstep := step_eq_readStartTag g before frames htail
    rw [hread] at hstep
    generalize readTagBody g (.after before) (.past (before ++ '<' :: name) rest) = body
      at hbody hstep
    cases hbody with
    | @closed text gap rest attributes isSelfClosing hlayout hgap =>
      let head : Head :=
        { kind := kindWithin frames, tagName := name, attributes
          location := .between before ('<' :: (name ++ (text ++ gap)) ++ closing isSelfClosing) }
      have hhead : HeadLayout g before (closing isSelfClosing ++ rest) head
          ('<' :: (name ++ (text ++ gap))) :=
        .intro hname hstop hlayout hgap
      have hrest : '<' :: (name ++ (text ++ (gap ++ (closing isSelfClosing ++ rest)))) =
          '<' :: (name ++ (text ++ gap)) ++ (closing isSelfClosing ++ rest) := by simp
      rw [hrest, step_startTag frames hhead rfl rfl]
      exact .startTag hhead rfl rfl
    | @endInTag text gap attributes hlayout hgap =>
      rw [hstep]
      have hplace : before ++ '<' :: name ++ (text ++ gap) =
          before ++ '<' :: (name ++ (text ++ gap)) := by simp
      rw [hplace]
      exact .flawed (.endInTag hname hlayout hgap)
    | @malformed text gap rest c attributes hlayout hgap =>
      rw [hstep]
      have hplace : before ++ '<' :: name ++ (text ++ gap) =
          before ++ '<' :: (name ++ (text ++ gap)) := by simp
      rw [hplace]
      exact .flawed (.malformedAttribute hname hlayout hgap)

theorem stepped_interpolation (before : Text) (frames : List Frame) {rest : Text}
    (hne : g.delimiters.opening ≠ []) (hopens : g.delimiters.opening <+: rest)
    (hblank : Stops isBlank rest) (hangle : Stops (· == '<') rest) :
    Stepped g before frames rest (step g { cursor := .past before rest, frames }) := by
  rcases interpolation?_cases hopens with hnone | ⟨body, tail, hsplit, habsent, _⟩
  · obtain ⟨tail, rfl⟩ := hopens
    have hpeek : (Cursor.past before ((g.delimiters.opening ++ tail) ++ [])).peek
        (byteSize (g.delimiters.opening ++ tail)) =
        .ok (.between before (g.delimiters.opening ++ tail)) := Cursor.peek_past rfl
    have hfail : step g { cursor := .past before (g.delimiters.opening ++ tail), frames } =
        ⟨[], .error (.problem
          { cause := .missingInterpolationEnd
            location := .between before (g.delimiters.opening ++ tail) })⟩ := by
      rw [List.append_nil] at hpeek
      rw [step_eq_readInterpolation before frames hne (List.prefix_append _ _) hblank hangle]
      simp only [readInterpolation, Cursor.rest_past, hnone, failAhead, Traced.check_ok, pure_bind,
        hpeek]
      rfl
    rw [hfail]
    exact .flawed (.interpolation hne hnone)
  · rw [hsplit, stops_append_iff hne] at hblank hangle
    have hlayout : InterpolationLayout g tail body := ⟨hne, hblank, hangle, habsent⟩
    have htext : rest = g.delimiters.opening ++ (body ++ g.delimiters.closing) ++ tail := by
      simp [hsplit]
    rw [htext, step_text frames (.interpolation hlayout)]
    exact .text frames (.interpolation hlayout)

theorem stepped_plain (before : Text) (frames : List Frame) {c : Char} {rest : Text}
    (hblank : Stops isBlank (c :: rest)) (hangle : c ≠ '<')
    (hopening : g.delimiters.opening ≠ [] → ¬ g.delimiters.opening <+: c :: rest) :
    Stepped g before frames (c :: rest)
      (step g { cursor := .past before (c :: rest), frames }) := by
  obtain ⟨more, tail, rfl, hmore, hends, hsize⟩ := textSize_cases g.delimiters.opening c rest
  have hlayout : PlainLayout g tail (c :: more) :=
    { ne_nil := by simp
      not_blank := stops_cons.mpr (stops_cons.mp hblank)
      no_angle := by simp [hmore, Ne.symm hangle]
      not_opening := hopening
      ends := hends
      size := hsize }
  rw [← List.cons_append, step_text frames (.plain hlayout)]
  exact .text frames (.plain hlayout)

/-- A step skips blanks and reads one construct, or stops at a flaw. -/
theorem step_cases (g : Grammar) (before rest : Text) (frames : List Frame) :
    ∃ gap ahead, rest = gap ++ ahead ∧ Blank gap ∧
      Stepped g (before ++ gap) frames ahead
        (step g { cursor := .past before rest, frames }) := by
  obtain ⟨gap, ahead, rfl, hgap, hstops⟩ := exists_run isBlank rest
  refine ⟨gap, ahead, rfl, hgap, ?_⟩
  rw [step_gap frames hgap hstops]
  cases ahead with
  | nil => exact .ended frames
  | cons c ahead =>
    by_cases hangle : c = '<'
    · subst hangle
      by_cases hslash : ∃ tail, ahead = '/' :: tail
      · obtain ⟨tail, rfl⟩ := hslash
        exact stepped_endTag g _ tail frames
      · apply stepped_startTag
        intro d hd
        rw [beq_eq_false_iff_ne]
        rintro rfl
        exact hslash ⟨ahead.tail, List.eq_cons_of_mem_head? hd⟩
    · by_cases hopens : g.delimiters.opening ≠ [] ∧ g.delimiters.opening <+: c :: ahead
      · exact stepped_interpolation _ frames hopens.1 hopens.2 hstops
          (stops_cons.mpr (by simpa using hangle))
      · exact stepped_plain _ frames hstops hangle (not_and.mp hopens)

end Parser

end MarkupCompiler
