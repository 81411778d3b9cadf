import MarkupCompiler.Proofs.Lexemes
import MarkupCompiler.Proofs.Place
import MarkupCompiler.Proofs.Rounds
import MarkupCompiler.Tree.Parser.TagBody

/-!
# The inside of a start tag

How the attributes of a start tag lie in its text, and that this is exactly what is read: attributes
that lie so are read in one round each (`rounds_of_attributesLayout`), and what is read lies so
(`readTagBody_cases`).
-/

namespace MarkupCompiler

open Text Lexeme

/-- The attribute read from `raw`, right after `before`. -/
def Attribute.read (g : Grammar) (before raw : Text) : Attribute where
  isDynamic := g.isBinding raw
  raw := raw
  location := .between before raw

/-- What is noted of an attribute as it is read. -/
def Attribute.event (a : Attribute) : Event :=
  .attributeRead a.raw a.isDynamic

namespace Parser

/-- The end of a start tag. -/
def closing (isSelfClosing : Bool) : Text :=
  if isSelfClosing then ['/', '>'] else ['>']

/-- The attributes in `text`, which stands between `before` and `after`. -/
inductive AttributesLayout (g : Grammar) (after : Text) : Text → List Attribute → Text → Prop
  | nil (before : Text) : AttributesLayout g after before [] []
  | cons {before gap raw text : Text} {attributes : List Attribute} (hgap : Blank gap)
      (hraw : IsAttribute raw)
      (hread : attribute? (raw ++ (text ++ after)) = .ok (some (byteSize raw)))
      (hlater : AttributesLayout g after (before ++ (gap ++ raw)) attributes text) :
      AttributesLayout g after before (.read g (before ++ gap) raw :: attributes)
        (gap ++ (raw ++ text))

/-- A start tag up to its closing angle, in the text between `before` and `after`. -/
inductive HeadLayout (g : Grammar) (before after : Text) (head : Head) : Text → Prop
  | intro {attributes gap : Text} (hname : IsTagName head.tagName)
      (hstop : Stops isNameChar (attributes ++ (gap ++ after)))
      (hattributes : AttributesLayout g (gap ++ after) (before ++ '<' :: head.tagName)
        head.attributes attributes)
      (hgap : Blank gap) :
      HeadLayout g before after head ('<' :: (head.tagName ++ (attributes ++ gap)))

/-! ### One round -/

theorem tagClosing?_append (isSelfClosing : Bool) (tail : Text) :
    tagClosing? (closing isSelfClosing ++ tail) = some (byteSize (closing isSelfClosing)) := by
  cases isSelfClosing <;> rfl

theorem byteSize_closing_eq_two_iff (isSelfClosing : Bool) :
    byteSize (closing isSelfClosing) = 2 ↔ isSelfClosing = true := by
  cases isSelfClosing <;> decide

theorem stops_isBlank_closing (isSelfClosing : Bool) (tail : Text) :
    Stops isBlank (closing isSelfClosing ++ tail) := by
  cases isSelfClosing <;> exact stops_cons.mpr rfl

theorem tagClosing?_cases (cs : Text) :
    tagClosing? cs = none ∨ ∃ isSelfClosing tail, cs = closing isSelfClosing ++ tail := by
  unfold tagClosing?
  split
  · rename_i tail
    exact .inr ⟨true, tail, rfl⟩
  · rename_i tail
    exact .inr ⟨false, tail, rfl⟩
  · exact .inl rfl

theorem exists_cons_of_isAttribute {raw : Text} (hraw : IsAttribute raw) :
    ∃ c cs, raw = c :: cs ∧ isAttributeNameChar c = true := by
  have hname : ∀ {name : Text}, IsAttributeName name →
      ∃ c cs, name = c :: cs ∧ isAttributeNameChar c = true := by
    rintro name ⟨hne, hchars⟩
    obtain ⟨c, cs, rfl⟩ := List.exists_cons_of_ne_nil hne
    exact ⟨c, cs, rfl, hchars c (by simp)⟩
  cases hraw with
  | name h => exact hname h
  | assigned h _ _ _ =>
    obtain ⟨c, cs, rfl, hc⟩ := hname h
    exact ⟨c, _, rfl, hc⟩

theorem stops_isBlank_of_isAttribute {raw : Text} (hraw : IsAttribute raw) (tail : Text) :
    Stops isBlank (raw ++ tail) := by
  obtain ⟨c, cs, rfl, hc⟩ := exists_cons_of_isAttribute hraw
  rw [List.cons_append, stops_cons]
  by_contra hblank
  have hnot := not_isAttributeNameChar_of_isBlank (by simpa using hblank)
  rw [hc] at hnot
  cases hnot

theorem tagClosing?_of_isAttribute {raw : Text} (hraw : IsAttribute raw) (tail : Text) :
    tagClosing? (raw ++ tail) = none := by
  obtain ⟨c, cs, rfl, hc⟩ := exists_cons_of_isAttribute hraw
  rcases tagClosing?_cases ((c :: cs) ++ tail) with hnone | ⟨isSelfClosing, rest, hsplit⟩
  · exact hnone
  · cases isSelfClosing <;>
      · obtain ⟨rfl, _⟩ := List.cons.inj hsplit
        cases hc

variable {g : Grammar} {start : Position}

theorem readAttribute_past {before raw tail : Text}
    (hread : attribute? (raw ++ tail) = .ok (some (byteSize raw))) :
    readAttribute g (.past before (raw ++ tail)) =
      ⟨[.attributeRead raw (g.isBinding raw)],
        .ok (.read g before raw, .past (before ++ raw) tail)⟩ := by
  simp only [readAttribute, Cursor.rest_past, hread, Traced.check_ok, pure_bind,
    Cursor.moveBy_past rfl]
  rfl

theorem tagStep_attribute (g : Grammar) (start : Position) (before : Text)
    (attributes : List Attribute) {gap raw tail : Text} (hgap : Blank gap) (hraw : IsAttribute raw)
    (hread : attribute? (raw ++ tail) = .ok (some (byteSize raw))) :
    tagStep g start { cursor := .past before (gap ++ (raw ++ tail)), attributes } =
      ⟨[.attributeRead raw (g.isBinding raw)],
        .ok (.more
          { cursor := .past (before ++ (gap ++ raw)) tail
            attributes := .read g (before ++ gap) raw :: attributes })⟩ := by
  have hne : (raw ++ tail).isEmpty = false := by
    obtain ⟨c, cs, rfl, _⟩ := exists_cons_of_isAttribute hraw
    rfl
  simp only [tagStep, Cursor.skipBlanks_past hgap (stops_isBlank_of_isAttribute hraw tail),
    Traced.check_ok, pure_bind, Cursor.rest_past, hne, Bool.false_eq_true, if_false,
    tagClosing?_of_isAttribute hraw tail, readAttribute_past hread, List.append_assoc]
  rfl

theorem tagStep_closing (g : Grammar) (start : Position) (before : Text)
    (attributes : List Attribute) {gap : Text} (hgap : Blank gap) (isSelfClosing : Bool)
    (tail : Text) :
    tagStep g start
        { cursor := .past before (gap ++ (closing isSelfClosing ++ tail)), attributes } =
      ⟨[], .ok (.done
        { cursor := .past (before ++ (gap ++ closing isSelfClosing)) tail
          attributes := attributes.reverse
          isSelfClosing })⟩ := by
  have hne : (closing isSelfClosing ++ tail).isEmpty = false := by
    cases isSelfClosing <;> rfl
  simp only [tagStep, Cursor.skipBlanks_past hgap (stops_isBlank_closing isSelfClosing tail),
    Traced.check_ok, pure_bind, Cursor.rest_past, hne, Bool.false_eq_true, if_false,
    tagClosing?_append, Cursor.moveBy_past rfl, byteSize_closing_eq_two_iff, Bool.decide_eq_true,
    List.append_assoc]
  rfl

/-- What a round inside a start tag comes to. -/
inductive TagStepped (g : Grammar) (start : Position) (before : Text)
    (attributes : List Attribute) : Text → Traced (Round TagState TagBody) → Prop
  | closed {gap : Text} (hgap : Blank gap) (isSelfClosing : Bool) (tail : Text) :
      TagStepped g start before attributes (gap ++ (closing isSelfClosing ++ tail))
        ⟨[], .ok (.done
          { cursor := .past (before ++ (gap ++ closing isSelfClosing)) tail
            attributes := attributes.reverse
            isSelfClosing })⟩
  | more {gap raw tail : Text} (hgap : Blank gap) (hraw : IsAttribute raw)
      (hread : attribute? (raw ++ tail) = .ok (some (byteSize raw))) :
      TagStepped g start before attributes (gap ++ (raw ++ tail))
        ⟨[.attributeRead raw (g.isBinding raw)],
          .ok (.more
            { cursor := .past (before ++ (gap ++ raw)) tail
              attributes := .read g (before ++ gap) raw :: attributes })⟩
  | endInTag {gap : Text} (hgap : Blank gap) :
      TagStepped g start before attributes gap
        (Traced.fail { cause := .endInTag, location := { start, stop := .after (before ++ gap) } })
  | malformed {gap tail : Text} {c : Char} (hgap : Blank gap) :
      TagStepped g start before attributes (gap ++ c :: tail)
        (Traced.fail { cause := .malformedAttribute, location := .between (before ++ gap) [c] })

theorem tagStep_cases (g : Grammar) (start : Position) (before rest : Text)
    (attributes : List Attribute) :
    TagStepped g start before attributes rest
      (tagStep g start { cursor := .past before rest, attributes }) := by
  obtain ⟨gap, rest, rfl, hgap, hrest⟩ := exists_run isBlank rest
  cases rest with
  | nil =>
    have hfail : tagStep g start { cursor := .past before (gap ++ []), attributes } =
        Traced.fail
          { cause := .endInTag, location := { start, stop := .after (before ++ gap) } } := by
      simp only [tagStep, Cursor.skipBlanks_past hgap hrest, Traced.check_ok, pure_bind,
        Cursor.rest_past]
      rfl
    rw [hfail, List.append_nil]
    exact .endInTag hgap
  | cons c rest =>
    rcases tagClosing?_cases (c :: rest) with hnone | ⟨isSelfClosing, tail, hsplit⟩
    · rcases attribute?_cases (c :: rest) with
        ⟨hstops, hattribute⟩ | ⟨raw, tail, hsplit, hraw, hread⟩
      · -- what is no attribute is one byte long, so that its place can be named
        have hpeek : (Cursor.past (before ++ gap) ([c] ++ rest)).peek 1 =
            .ok (.between (before ++ gap) [c]) := by
          apply Cursor.peek_past
          have hsize := utf8Size_of_not_isAttributeNameChar (stops_cons.mp hstops)
          simp [hsize]
        have hfail : tagStep g start { cursor := .past before (gap ++ c :: rest), attributes } =
            Traced.fail
              { cause := .malformedAttribute, location := .between (before ++ gap) [c] } := by
          rw [List.singleton_append] at hpeek
          simp only [tagStep, Cursor.skipBlanks_past hgap hrest, Traced.check_ok, pure_bind,
            Cursor.rest_past, List.isEmpty_cons, Bool.false_eq_true, if_false, hnone,
            readAttribute, hattribute, failAhead, hpeek]
          rfl
        rw [hfail]
        exact .malformed hgap
      · rw [hsplit] at hread ⊢
        rw [tagStep_attribute g start before attributes hgap hraw hread]
        exact .more hgap hraw hread
    · rw [hsplit, tagStep_closing g start before attributes hgap]
      exact .closed hgap isSelfClosing tail

/-! ### All rounds -/

theorem rounds_of_attributesLayout (start : Position) {before after text : Text}
    {attributes : List Attribute} (hlayout : AttributesLayout g after before attributes text)
    (earlier : List Attribute) :
    Traced.Rounds (tagStep g start)
      { cursor := .past before (text ++ after), attributes := earlier }
      (attributes.map Attribute.event)
      { cursor := .past (before ++ text) after, attributes := attributes.reverse ++ earlier } := by
  induction hlayout generalizing earlier with
  | nil before =>
    rw [List.append_nil]
    exact .refl _
  | @cons before gap raw text attributes hgap hraw hread hlater ih =>
    have hround := tagStep_attribute g start before earlier hgap hraw hread
    have hrounds := ih (.read g (before ++ gap) raw :: earlier)
    simp only [List.append_assoc] at hround hrounds ⊢
    simp only [List.map_cons, List.reverse_cons, List.append_assoc, List.singleton_append]
    exact .head hround hrounds

/-- A start tag that is laid out to its end is read to its end. -/
theorem readTagBody_of_layout (start : Position) {before text gap tail : Text}
    {attributes : List Attribute} {isSelfClosing : Bool}
    (hlayout : AttributesLayout g (gap ++ (closing isSelfClosing ++ tail)) before attributes text)
    (hgap : Blank gap) :
    readTagBody g start (.past before (text ++ (gap ++ (closing isSelfClosing ++ tail)))) =
      ⟨attributes.map Attribute.event, .ok
        { cursor := .past (before ++ (text ++ (gap ++ closing isSelfClosing))) tail
          attributes
          isSelfClosing }⟩ := by
  have hrounds := rounds_of_attributesLayout start hlayout []
  have hdone := tagStep_closing g start (before ++ text) (attributes.reverse ++ []) hgap
    isSelfClosing tail
  rw [readTagBody, Traced.loop_of_rounds hrounds,
    Traced.loop_of_done (congrArg Traced.outcome hdone), hdone]
  simp

/-- What reading the inside of a start tag comes to. -/
inductive TagRead (g : Grammar) (start : Position) (before : Text) : Text → Traced TagBody → Prop
  | closed {text gap tail : Text} {attributes : List Attribute} {isSelfClosing : Bool}
      (hlayout : AttributesLayout g (gap ++ (closing isSelfClosing ++ tail)) before attributes text)
      (hgap : Blank gap) :
      TagRead g start before (text ++ (gap ++ (closing isSelfClosing ++ tail)))
        ⟨attributes.map Attribute.event, .ok
          { cursor := .past (before ++ (text ++ (gap ++ closing isSelfClosing))) tail
            attributes
            isSelfClosing }⟩
  | endInTag {text gap : Text} {attributes : List Attribute}
      (hlayout : AttributesLayout g gap before attributes text) (hgap : Blank gap) :
      TagRead g start before (text ++ gap)
        ⟨attributes.map Attribute.event, .error (.problem
          { cause := .endInTag, location := { start, stop := .after (before ++ (text ++ gap)) } })⟩
  | malformed {text gap tail : Text} {c : Char} {attributes : List Attribute}
      (hlayout : AttributesLayout g (gap ++ c :: tail) before attributes text) (hgap : Blank gap) :
      TagRead g start before (text ++ (gap ++ c :: tail))
        ⟨attributes.map Attribute.event, .error (.problem
          { cause := .malformedAttribute, location := .between (before ++ (text ++ gap)) [c] })⟩

/-- The rounds inside a start tag read attributes, one after another. -/
theorem attributesLayout_of_rounds {before rest : Text} {earlier : List Attribute}
    {log : List Event} {s : TagState}
    (hrounds : Traced.Rounds (tagStep g start)
      { cursor := .past before rest, attributes := earlier } log s) :
    ∃ attributes text after, rest = text ++ after ∧
      AttributesLayout g after before attributes text ∧ log = attributes.map Attribute.event ∧
      s = { cursor := .past (before ++ text) after
            attributes := attributes.reverse ++ earlier } := by
  generalize hs : ({ cursor := .past before rest, attributes := earlier } : TagState) = first
    at hrounds
  induction hrounds generalizing before rest earlier with
  | refl =>
    refine ⟨[], [], rest, rfl, .nil before, rfl, ?_⟩
    simp [← hs]
  | head hstep _ ih =>
    subst hs
    have hcases := tagStep_cases g start before rest earlier
    rw [hstep] at hcases
    cases hcases with
    | more hgap hraw hread =>
      obtain ⟨attributes, text, after, rfl, hlater, rfl, rfl⟩ := ih rfl
      refine ⟨_, _, after, ?_, .cons hgap hraw hread hlater, rfl, ?_⟩
      · simp
      · simp

theorem readTagBody_cases (g : Grammar) (start : Position) (before rest : Text) :
    TagRead g start before rest (readTagBody g start (.past before rest)) := by
  obtain ⟨log, s, last, hrounds, hlast⟩ :=
    Traced.exists_rounds (·.cursor.rest.length) (tagStep g start) (tagStep_shrinks g start)
      { cursor := .past before rest }
  obtain ⟨attributes, text, after, rfl, hlayout, rfl, rfl⟩ := attributesLayout_of_rounds hrounds
  have hcases := tagStep_cases g start (before ++ text) after (attributes.reverse ++ [])
  rw [readTagBody]
  rcases hlast with ⟨stop, hstop, hloop⟩ | ⟨body, hdone, hloop⟩
  · rw [hloop]
    rw [hstop] at hcases
    cases hcases with
    | endInTag hgap =>
      rw [List.append_assoc, List.append_nil]
      exact .endInTag hlayout hgap
    | malformed hgap =>
      rw [List.append_assoc, List.append_nil]
      exact .malformed hlayout hgap
  · rw [hloop]
    rw [hdone] at hcases
    cases hcases with
    | closed hgap isSelfClosing tail =>
      rw [List.append_nil, List.reverse_append, List.reverse_reverse, List.append_assoc]
      exact .closed hlayout hgap

end Parser

end MarkupCompiler
