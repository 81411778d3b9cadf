import MarkupCompiler.Proofs.TagEvents
import MarkupCompiler.Proofs.Trailing

/-!
# What a parse reports

A parse that fails reports nothing. One that returns a tree reports nothing, a single end tag that
closes nothing, or the elements that have no end tag (`reports_of_parse`).
-/

namespace MarkupCompiler.Parser

open Text Lexeme
open Traced (Rounds)

/-- What may be reported beside a tree. With a stray end tag the tree is that of the source cut
before the end tag, of which nothing is reported: the empty root or one with all its end tags. -/
inductive Reported (g : Grammar) (source : Text) (root : Element) : List Diagnostic → Prop
  | nothing : Reported g source root []
  | stray {front name blanks : Text} {earlier : List Event} (hname : IsTagName name)
      (hblanks : Blank blanks) (hbegins : front ++ endTag name blanks <+: source)
      (hlog : (parse g source).log =
        earlier ++ [.reported (strayEnd name (.between front (endTag name blanks))),
          .parsed root.tagName root.children.length])
      (hempty : root = Element.emptyRoot ↔ ∀ tag kind, Event.startTag tag kind ∉ earlier)
      (hfront : (parse g front).outcome = .ok root) (hsilent : (parse g front).reports = []) :
      Reported g source root [strayEnd name (.between front (endTag name blanks))]
  | missing {heads : List Head} (hheads : heads ≠ []) (hroot : root.isEmptyRoot = false) :
      Reported g source root (heads.map missingEnd)

variable {g : Grammar}

theorem isEmptyRoot_of_isTagName {root : Element} (hname : IsTagName root.tagName) :
    root.isEmptyRoot = false := by
  have hne : root.tagName.isEmpty = false := List.isEmpty_eq_false_iff.mpr hname.ne_nil
  rw [Element.isEmptyRoot, hne, Bool.and_false]

/-- A parse that has met only text returns the empty root when the source ends there. -/
theorem parse_of_blank {before gap rest : Text} {log : List Event} (hgap : Blank gap)
    (hangle : ['<'] <+: rest)
    (hrounds : Rounds (step g) { cursor := .past [] (before ++ (gap ++ rest)) } log
      { cursor := .past before (gap ++ rest) }) :
    (parse g (before ++ gap)).outcome = .ok Element.emptyRoot ∧
      (parse g (before ++ gap)).reports = [] := by
  have hagrees : Agrees g rest [] :=
    agrees_of_tag (.inr hangle) (.inl rfl) fun _ => List.nil_prefix
  have hstep : step g { cursor := .past before (gap ++ []) } = ⟨[], .ok (.done .emptyRoot)⟩ := by
    rw [step_gap [] hgap (stops_nil _)]
    rfl
  have hend := parse_of_rounds (rounds_before hrounds (hagrees.append gap)) hstep
  rwa [List.append_nil] at hend

theorem reported_stray {source front name blanks : Text} {root : Element} {earlier : List Event}
    (hname : IsTagName name) (hblanks : Blank blanks)
    (hbegins : front ++ endTag name blanks <+: source)
    (hparse : (parse g source).outcome = .ok root)
    (hlog : (parse g source).log =
      earlier ++ [.reported (strayEnd name (.between front (endTag name blanks)))] ++
        [.parsed root.tagName root.children.length])
    (hfront : (parse g front).outcome = .ok root ∧ (parse g front).reports = []) :
    Reported g source root [strayEnd name (.between front (endTag name blanks))] := by
  rw [List.append_assoc] at hlog
  refine .stray hname hblanks hbegins hlog ?_ hfront.1 hfront.2
  rw [eq_emptyRoot_iff_of_parse hparse, hlog]
  simp

/-- After a closed root only an end tag is reported, and the root is complete without it. -/
theorem reported_closed {before gap text after : Text} {frames : List Frame}
    {earlier log : List Event} {root : Element}
    (hcloses : Closes g before frames gap text log root)
    (hsilent : log.filterMap Event.reported? = []) (hangle : ['<'] <+: text)
    (hrounds : Rounds (step g) { cursor := .past [] (before ++ (gap ++ (text ++ after))) } earlier
      { cursor := .past before (gap ++ (text ++ after)), frames })
    (hparse : (parse g (before ++ (gap ++ (text ++ after)))).outcome = .ok root)
    (hlog : (parse g (before ++ (gap ++ (text ++ after)))).log =
      earlier ++ (log ++ (checkTrailing (.past (before ++ (gap ++ text)) after)).log) ++
        [.parsed root.tagName root.children.length]) :
    Reported g (before ++ (gap ++ (text ++ after))) root
      (checkTrailing (.past (before ++ (gap ++ text)) after)).reports := by
  by_cases hahead : ∃ space name blanks, EndTagAhead after space name blanks
  · obtain ⟨space, name, blanks, hahead⟩ := hahead
    obtain ⟨tail, htail⟩ := hahead.begins
    rw [List.append_assoc] at htail
    subst htail
    have hcheck := checkTrailing_endTag (before ++ (gap ++ text)) tail hahead.gap_blank
      hahead.isTagName hahead.blanks_blank
    -- without the end tag only the blanks before it follow the root
    have hfront := hcloses.parse hsilent hangle hrounds fun _ => List.prefix_append space _
    rw [checkTrailing_reports_of_blank _ hahead.gap_blank] at hfront
    rw [hcheck, ← List.append_assoc earlier] at hlog
    rw [hcheck]
    refine reported_stray hahead.isTagName hahead.blanks_blank ⟨tail, by simp⟩ hparse hlog ?_
    simpa using hfront
  · simp only [not_exists] at hahead
    rw [checkTrailing_reports_eq_nil hahead]
    exact .nothing

/-- **Reports beside a tree.** Nothing is reported by a parse that fails. A parse that returns a
tree reports nothing, one end tag that closes nothing, or one or more missing end tags. -/
theorem reports_of_parse (g : Grammar) (source : Text) :
    (∀ stop, (parse g source).outcome = .error stop → (parse g source).reports = []) ∧
      ∀ root, (parse g source).outcome = .ok root →
        Reported g source root (parse g source).reports := by
  constructor
  · intro stop hparse
    rcases parse_cases g source with ⟨root, hok, _⟩ | ⟨_, _, _, _, _, _, _, _, hreports⟩
    · rw [hok] at hparse
      cases hparse
    · exact hreports
  · intro root hparse
    obtain ⟨before, rest, frames, log, last, rfl, hrounds, _, _, hended, hlog, hreports⟩ :=
      exists_ended hparse
    rw [hreports]
    cases hended with
    | empty => exact .nothing
    | @unfinished _ frame frames _ hname =>
      have hheads : ((frame :: frames).map fun frame => missingEnd frame.head) =
          ((frame :: frames).map Frame.head).map missingEnd := by
        rw [List.map_map]
        rfl
      rw [reported?_missingEnds, hheads]
      exact .missing (by simp) (isEmptyRoot_of_isTagName hname)
    | @stray gap name blanks hgap hname hblanks tail =>
      refine reported_stray hname hblanks ⟨tail, by simp⟩ hparse hlog ?_
      exact parse_of_blank hgap ⟨_, rfl⟩ hrounds
    | closed _ hangle _ _ hsilent hcloses after =>
      rw [List.filterMap_append, hsilent, List.nil_append]
      exact reported_closed hcloses hsilent hangle hrounds hparse hlog

/-- An end tag after the root is reported, and a start tag that is not finished stops the parse. -/
theorem reports_of_parse_list :
    let source := "x<ul><li a>é\n</p></ul> </b >y".toList
    (∃ root front name blanks, (parse {} source).outcome = .ok root ∧ root ≠ Element.emptyRoot ∧
      front ++ endTag name blanks <+: source ∧
      (parse {} source).reports = [strayEnd name (.between front (endTag name blanks))] ∧
      (parse {} front).outcome = .ok root ∧ (parse {} front).reports = []) ∧
    (∃ stop, (parse {} (source.take 9)).outcome = .error stop) ∧
      (parse {} (source.take 9)).reports = [] := by
  intro source
  have hname : (parse {} source).outcome.toOption.map (·.tagName) = some "ul".toList := by
    decide +kernel
  have hcauses : (parse {} source).reports.map Diagnostic.cause = [.strayEndTag] := by
    decide +kernel
  have hfails : (parse {} (source.take 9)).outcome.toOption = none := by decide +kernel
  constructor
  · obtain ⟨root, hparse, hroot⟩ := Traced.exists_ok_of_map hname
    have hne : root ≠ Element.emptyRoot := by
      rintro rfl
      cases hroot
    have hreported := (reports_of_parse {} source).2 root hparse
    generalize (parse {} source).reports = reports at hreported hcauses
    cases hreported with
    | nothing => cases hcauses
    | @missing heads _ _ => cases heads <;> cases hcauses
    | stray _ _ hbegins _ _ hfront hsilent =>
      exact ⟨root, _, _, _, hparse, hne, hbegins, rfl, hfront, hsilent⟩
  · cases hparse : (parse {} (source.take 9)).outcome with
    | ok root =>
      rw [hparse] at hfails
      cases hfails
    | error stop => exact ⟨⟨stop, rfl⟩, (reports_of_parse {} _).1 stop hparse⟩

end MarkupCompiler.Parser
