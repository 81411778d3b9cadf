import MarkupCompiler.Proofs.Ending
import MarkupCompiler.Proofs.Tiling

/-!
# Missing end tags

When a source ends inside of elements, these are the last children of each other from the root on,
and each is reported where its start tag stands. The tree is the one that the same source has with
the end tags written after it, but for where these elements stop (`parse_endTags`).
-/

namespace MarkupCompiler

open Text Lexeme

/-- The heads of an element, of its last child, of the last child of that and so on, at most `n`. -/
def Element.spine : Nat → Element → List Head
  | 0, _ => []
  | n + 1, e =>
    e.toHead :: match e.children.getLast? with
      | some (.element head children) => spine n { head with children }
      | _ => []

/-- The same tree with other stops of the elements on its spine, outermost first. -/
def Element.withStops : List Position → Element → Element
  | [], e => e
  | stop :: stops, e =>
    { e with
      location.stop := stop
      children := match e.children.getLast? with
        | some (.element head children) =>
          e.children.dropLast ++ [(withStops stops { head with children }).toNode]
        | _ => e.children }

/-- The location of a head covers a start tag with its name and attributes, and nothing else. -/
def Head.CoversTag (source : Text) (h : Head) : Prop :=
  h.location.IsSpan source ∧ ∃ attributes gap,
    h.location.slice source = .ok ('<' :: (h.tagName ++ (attributes ++ (gap ++ ['>'])))) ∧
    Laid source (h.location.start.advance ('<' :: h.tagName))
      (h.attributes.map fun a => (a.raw, a.location)) attributes ∧
    Blank gap

namespace Parser

open Traced (Rounds)

/-- End tags one after another, each with its name and the blanks in it. -/
def endTags (tags : List (Text × Text)) : Text :=
  tags.flatMap fun tag => endTag tag.1 tag.2

/-- The positions after each of the end tags that follow `before`, last one first. -/
def stopsAfter (before : Text) : List (Text × Text) → List Position
  | [] => []
  | tag :: tags =>
    stopsAfter (before ++ endTag tag.1 tag.2) tags ++ [.after (before ++ endTag tag.1 tag.2)]

theorem length_stopsAfter (before : Text) (tags : List (Text × Text)) :
    (stopsAfter before tags).length = tags.length := by
  induction tags generalizing before with
  | nil => rfl
  | cons tag tags ih => simp [stopsAfter, ih]

/-! ### The spine of open elements -/

theorem Frame.close_add (frame : Frame) (node : Node) :
    (frame.add node).close = { frame.head with children := frame.children.reverse ++ [node] } := by
  simp [Frame.add, Frame.close]

theorem spine_enclose (n : Nat) (e : Element) (frames : List Frame) :
    (enclose e frames).spine (n + frames.length) =
      (frames.map Frame.head).reverse ++ e.spine n := by
  induction frames generalizing e n with
  | nil => simp [enclose]
  | cons frame frames ih =>
    have hinner : (frame.add e.toNode).close.spine (n + 1) = frame.head :: e.spine n := by
      simp [Frame.close_add, Element.spine, Element.toNode]
    rw [enclose, List.length_cons, Nat.add_comm frames.length 1, ← Nat.add_assoc, ih, hinner]
    simp

/-- The heads of the open elements, outermost first. -/
theorem spine_unfinished (frame : Frame) (frames : List Frame) :
    (enclose frame.close frames).spine (frames.length + 1) =
      ((frame :: frames).map Frame.head).reverse := by
  have hinnermost : frame.close.spine 1 = [frame.head] := by
    rw [Element.spine]
    split <;> rfl
  rw [Nat.add_comm, spine_enclose, hinnermost]
  simp

theorem withStops_add (stop : Position) (stops : List Position) (frame : Frame) (e : Element) :
    (frame.add e.toNode).close.withStops (stop :: stops) =
      (frame.add (e.withStops stops).toNode).close.withStops [stop] := by
  simp [Frame.close_add, Element.withStops, Element.toNode]

/-- The outer stops go to the elements around, and the inner ones to the element itself. -/
theorem withStops_enclose {stops : List Position} (inner : List Position) (e : Element)
    {frames : List Frame} (hlength : stops.length = frames.length) :
    (enclose e frames).withStops (stops ++ inner) =
      (enclose (e.withStops inner) frames).withStops stops := by
  induction frames generalizing e stops inner with
  | nil =>
    obtain rfl := List.length_eq_zero_iff.mp hlength
    rfl
  | cons frame frames ih =>
    rcases List.eq_nil_or_concat' stops with rfl | ⟨outer, stop, rfl⟩
    · cases hlength
    have houter : outer.length = frames.length := by simpa using hlength
    rw [enclose, enclose, List.append_assoc, List.singleton_append, ih _ _ houter, withStops_add,
      ← ih _ _ houter]

theorem withStops_singleton (stop : Position) (e : Element) :
    e.withStops [stop] = { e with location.stop := stop } := by
  rw [Element.withStops]
  congr 1
  split
  · rename_i head children hlast
    exact List.dropLast_append_getLast? _ hlast
  · rfl

variable {g : Grammar}

/-! ### Where a source ends inside of elements -/

theorem HeadLayout.coversTag {source before tail tag : Text} {head : Head}
    (hlayout : HeadLayout g before (closing false ++ tail) head tag)
    (hlocation : head.location = .between before (tag ++ closing false))
    (hsource : source = before ++ (tag ++ (closing false ++ tail))) : head.CoversTag source := by
  cases hlayout with
  | @intro attributes gap _ _ hattributes hgap =>
    have hsplit : source =
        before ++ ('<' :: (head.tagName ++ (attributes ++ gap)) ++ closing false ++ tail) := by
      simpa using hsource
    refine ⟨?_, attributes, gap, ?_, ?_, hgap⟩
    · rw [hlocation, hsplit]
      exact Location.isSpan_between _ _ _
    · have hslice := Location.slice_between before
        ('<' :: (head.tagName ++ (attributes ++ gap)) ++ closing false) tail
      rw [hlocation, hsplit]
      simpa [closing] using hslice
    · rw [hlocation, Location.start_between, Position.advance_after]
      exact laid_of_attributesLayout hattributes (by simpa using hsource)

theorem FramesLayout.coversTag {source before after : Text} {frames : List Frame}
    (hlayout : FramesLayout g frames before after) (hsource : source = before ++ after) :
    ∀ head ∈ frames.map Frame.head, head.CoversTag source := by
  induction hlayout with
  | nil => simp
  | cons _ _ hhead _ hlocation _ ih =>
    rw [List.map_cons, List.forall_mem_cons]
    refine ⟨?_, ih (by simpa using hsource)⟩
    exact hhead.coversTag hlocation (by simpa using hsource)

/-- Missing end tags are reported by the last step alone, at the end of the source. -/
theorem exists_unfinished {source : Text} {root : Element} {d : Diagnostic}
    (hparse : (parse g source).outcome = .ok root) (hd : d ∈ (parse g source).reports)
    (hcause : d.cause = .missingEndTag) :
    ∃ log before gap frame frames, source = before ++ gap ∧ Blank gap ∧
      Rounds (step g) { cursor := .past [] source } log
        { cursor := .past before gap, frames := frame :: frames } ∧
      FramesLayout g (frame :: frames) before gap ∧ root = enclose frame.close frames ∧
      (parse g source).reports = (frame :: frames).map fun frame => missingEnd frame.head := by
  obtain ⟨before, rest, frames, log, last, hsource, hrounds, _, hframes, hended, _, hreports⟩ :=
    exists_ended hparse
  rw [hreports] at hd ⊢
  cases hended with
  | empty => cases hd
  | stray =>
    rw [List.mem_singleton.mp hd] at hcause
    cases hcause
  | @unfinished _ frame frames hrest _ =>
    exact ⟨log, before, rest, frame, frames, hsource, hrest, hrounds, hframes, rfl,
      reported?_missingEnds _⟩
  | closed _ _ _ _ hsilent _ after =>
    rw [List.filterMap_append, hsilent, List.nil_append] at hd
    rw [cause_of_checkTrailing hd] at hcause
    cases hcause

/-! ### The end tags written after it -/

theorem step_endTags (before : Text) {gap : Text} (hgap : Blank gap) (frame : Frame)
    (frames : List Frame) {tag : Text × Text} (htag : IsTagName tag.1 ∧ Blank tag.2)
    (tags : List (Text × Text)) :
    ∃ log, log.filterMap Event.reported? = [] ∧
      step g { cursor := .past before (gap ++ endTags (tag :: tags)), frames := frame :: frames } =
        let stop := before ++ gap ++ endTag tag.1 tag.2
        let completed := complete (frame.close.withStops [.after stop])
          (.past stop (endTags tags)) frames
        ⟨log ++ completed.log, completed.outcome⟩ := by
  have hstops : Stops isBlank (endTag tag.1 tag.2 ++ endTags tags) := stops_cons.mpr rfl
  refine ⟨if tag.1 = frame.head.tagName then [] else [.mismatch tag.1 frame.head.tagName], ?_, ?_⟩
  · split <;> rfl
  · rw [endTags, List.flatMap_cons, ← endTags, step_gap _ hgap hstops,
      step_endTag_cons g _ _ frame frames htag.1 htag.2, noteMismatch_eq, Traced.ok_bind]
    simp only [withStops_singleton]

/-- Each end tag closes the innermost open element, and the last of them ends the parse. -/
theorem exists_rounds_endTags (before : Text) {gap : Text} (hgap : Blank gap) (frame : Frame)
    (frames : List Frame) {tags : List (Text × Text)} (hlength : tags.length = frames.length + 1)
    (htags : ∀ tag ∈ tags, IsTagName tag.1 ∧ Blank tag.2) :
    ∃ log s last, last.filterMap Event.reported? = [] ∧
      Rounds (step g)
        { cursor := .past before (gap ++ endTags tags), frames := frame :: frames } log s ∧
      step g s = ⟨last, .ok (.done
        ((enclose frame.close frames).withStops (stopsAfter (before ++ gap) tags)))⟩ := by
  induction frames generalizing before gap frame tags with
  | nil =>
    obtain ⟨tag, rfl⟩ := List.length_eq_one_iff.mp hlength
    obtain ⟨log, hlog, hstep⟩ := step_endTags (g := g) before hgap frame [] (htags tag (by simp)) []
    simp only [complete_nil] at hstep
    refine ⟨[], _, _, ?_, .refl _, hstep⟩
    have htrailing := checkTrailing_reports_of_blank (before ++ gap ++ endTag tag.1 tag.2) blank_nil
    rw [List.filterMap_append, hlog, List.nil_append]
    exact htrailing
  | cons around frames ih =>
    obtain ⟨tag, tags, rfl⟩ := List.exists_cons_of_length_eq_add_one hlength
    rw [List.forall_mem_cons] at htags
    have hlength' : tags.length = frames.length + 1 := by simpa using hlength
    obtain ⟨first, _, hstep⟩ :=
      step_endTags (g := g) before hgap frame (around :: frames) htags.1 tags
    obtain ⟨log, s, last, hlast, hrounds, hdone⟩ :=
      ih (before ++ gap ++ endTag tag.1 tag.2) blank_nil
        (around.add (frame.close.withStops [.after (before ++ gap ++ endTag tag.1 tag.2)]).toNode)
        hlength' htags.2
    refine ⟨first ++ [] ++ log, s, last, hlast, .head hstep hrounds, ?_⟩
    -- closing the element first and then folding it is folding it first and then closing it
    have hstops : (stopsAfter (before ++ gap ++ endTag tag.1 tag.2) tags).length =
        (around :: frames).length := by
      rw [length_stopsAfter, hlength', List.length_cons]
    rw [hdone, stopsAfter, withStops_enclose _ _ hstops, List.append_nil, enclose]

/-- The end of a source and end tags are seen alike from what stands before them. -/
theorem agrees_endTags {tags : List (Text × Text)} {n : Nat} (hangle : '<' ∉ g.delimiters.opening)
    (hlength : tags.length = n + 1) (gap : Text) : Agrees g gap (gap ++ endTags tags) := by
  obtain ⟨tag, tags, rfl⟩ := List.exists_cons_of_length_eq_add_one hlength
  have hbegins : ['<'] <+: endTags (tag :: tags) := ⟨_, rfl⟩
  have hagrees : Agrees g [] (endTags (tag :: tags)) :=
    agrees_of_tag (.inl rfl) (.inr hbegins) fun hmem => absurd hmem hangle
  simpa using hagrees.append gap

/-- **Recovery from missing end tags.** The reports name the elements on the spine that the source
leaves open, innermost first, each at its start tag. With as many end tags after it, of whatever
names, the source has the same tree but for the stops of these elements, and nothing is reported. -/
theorem parse_endTags {source : Text} {root : Element} {k : Nat}
    (hangle : '<' ∉ g.delimiters.opening) (hparse : (parse g source).outcome = .ok root)
    (hcount : (parse g source).reports.countP (fun d => d.cause = .missingEndTag) = k)
    (hk : 1 ≤ k) :
    (root.spine k).length = k ∧
      (parse g source).reports = (root.spine k).reverse.map missingEnd ∧
      (∀ head ∈ root.spine k, head.CoversTag source) ∧
      ∀ tags : List (Text × Text), tags.length = k →
        (∀ tag ∈ tags, IsTagName tag.1 ∧ Blank tag.2) →
        (parse g (source ++ endTags tags)).outcome = .ok (root.withStops (stopsAfter source tags)) ∧
          (parse g (source ++ endTags tags)).reports = [] := by
  obtain ⟨d, hd, hcause⟩ := List.countP_pos_iff.mp (hcount ▸ hk)
  obtain ⟨log, before, gap, frame, frames, rfl, hgap, hrounds, hframes, rfl, hreports⟩ :=
    exists_unfinished hparse hd (of_decide_eq_true hcause)
  have hlength : k = frames.length + 1 := by
    rw [← hcount, hreports, List.countP_map]
    exact List.countP_eq_length.mpr fun _ _ => rfl
  subst hlength
  rw [spine_unfinished]
  refine ⟨by simp, by simp [hreports], ?_, ?_⟩
  · intro head hhead
    exact hframes.coversTag rfl head (List.mem_reverse.mp hhead)
  · intro tags htags hnames
    obtain ⟨more, s, last, hlast, hlater, hstep⟩ :=
      exists_rounds_endTags before hgap frame frames htags hnames
    have hearlier := rounds_before hrounds (agrees_endTags hangle htags gap)
    rw [← List.append_assoc] at hearlier
    obtain ⟨hok, hsilent⟩ := parse_of_rounds (hearlier.trans hlater) hstep
    exact ⟨hok, hsilent.trans hlast⟩

/-- Half an opening delimiter stands before the end of the source, and the names do not match. -/
theorem parse_endTags_unclosed_list :
    let source := "<ul a=b> <br/>\u00e9<li >x\x7b ".toList
    let tags := [("p".toList, []), ("li".toList, [' '])]
    ∃ root, (parse {} source).outcome = .ok root ∧
      (root.spine 2).map Head.tagName = ["ul".toList, "li".toList] ∧
      (parse {} source).reports = (root.spine 2).reverse.map missingEnd ∧
      (∀ head ∈ root.spine 2, head.CoversTag source) ∧
      (parse {} (source ++ endTags tags)).outcome = .ok (root.withStops (stopsAfter source tags)) ∧
      (parse {} (source ++ endTags tags)).reports = [] := by
  intro source tags
  have hnames : (parse {} source).outcome.toOption.map (fun e => (e.spine 2).map Head.tagName) =
      some ["ul".toList, "li".toList] := by
    decide +kernel
  have hcount : (parse {} source).reports.countP (fun d => d.cause = .missingEndTag) = 2 := by
    decide +kernel
  have htags : ∀ tag ∈ tags, IsTagName tag.1 ∧ Blank tag.2 := by decide
  cases hparse : (parse {} source).outcome with
  | error stop =>
    rw [hparse] at hnames
    cases hnames
  | ok root =>
    rw [hparse] at hnames
    obtain ⟨_, hreports, hcovers, hclosed⟩ := parse_endTags (by decide) hparse hcount (by decide)
    exact ⟨root, rfl, Option.some.inj hnames, hreports, hcovers, hclosed tags rfl htags⟩

end Parser

end MarkupCompiler
