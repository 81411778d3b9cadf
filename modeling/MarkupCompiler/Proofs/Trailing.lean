import MarkupCompiler.Proofs.Ending

/-!
# What follows the root

The root of a source is complete where its location stops. Whatever follows it there, the tree is
the same in all its locations, and only an end tag right after blanks is reported
(`parse_append_of_closed`).
-/

namespace MarkupCompiler.Parser

open Text Lexeme

/-- After blanks, `rest` begins with an end tag. -/
structure EndTagAhead (rest gap name blanks : Text) : Prop where
  gap_blank : Blank gap
  isTagName : IsTagName name
  blanks_blank : Blank blanks
  begins : gap ++ endTag name blanks <+: rest

variable {g : Grammar}

theorem EndTagAhead.reports {rest gap name blanks : Text}
    (hahead : EndTagAhead rest gap name blanks) (before : Text) :
    (checkTrailing (.past before rest)).reports =
      [strayEnd name (.between (before ++ gap) (endTag name blanks))] := by
  obtain ⟨tail, rfl⟩ := hahead.begins
  rw [List.append_assoc, checkTrailing_endTag before tail hahead.gap_blank hahead.isTagName
    hahead.blanks_blank]
  rfl

theorem checkTrailing_reports_eq_nil {rest : Text}
    (hnone : ∀ gap name blanks, ¬ EndTagAhead rest gap name blanks) (before : Text) :
    (checkTrailing (.past before rest)).reports = [] := by
  obtain ⟨gap, ahead, rfl, hgap, _, hcheck⟩ := checkTrailing_cases before rest
  rcases hcheck with ⟨name, blanks, tail, rfl, hname, hblanks, _⟩ | ⟨_, hcheck⟩
  · refine absurd ⟨hgap, hname, hblanks, ?_⟩ (hnone gap name blanks)
    rw [← List.append_assoc]
    exact List.prefix_append _ _
  · rw [hcheck, Traced.reports]
    split <;> rfl

/-- A tree of which nothing is reported is that of a closed root. -/
theorem exists_closed {source : Text} {root : Element}
    (hparse : (parse g source).outcome = .ok root) (hreports : (parse g source).reports = [])
    (hroot : root.isEmptyRoot = false) :
    ∃ before gap text after frames earlier log, source = before ++ (gap ++ (text ++ after)) ∧
      Traced.Rounds (step g) { cursor := .past [] source } earlier
        { cursor := .past before (gap ++ (text ++ after)), frames } ∧
      Closes g before frames gap text log root ∧ log.filterMap Event.reported? = [] ∧
      ['<'] <+: text ∧ root.location.stop = .after (before ++ (gap ++ text)) := by
  obtain ⟨before, rest, frames, earlier, last, hsource, hrounds, _, _, hended, _, hlast⟩ :=
    exists_ended hparse
  rw [hreports] at hlast
  cases hended with
  | empty => cases hroot
  | stray => cases hroot
  | unfinished => cases hlast
  | closed _ hangle _ hstop hsilent hcloses after =>
    exact ⟨before, _, _, after, frames, earlier, _, hsource, hrounds, hcloses, hsilent, hangle,
      hstop⟩

/-- **Input after the root.** Let nothing be reported of a source with an element. Its root is the
tree of all texts that begin with the source up to the end of the root. Of what follows there, an
end tag is reported that is the first thing but for blanks, and nothing else is. -/
theorem parse_append_of_closed {source : Text} {root : Element}
    (hangle : '<' ∉ g.delimiters.opening) (hparse : (parse g source).outcome = .ok root)
    (hreports : (parse g source).reports = []) (hroot : root.isEmptyRoot = false) :
    ∃ front back, cut root.location.stop.offset source = .ok (front, back) ∧
      ∀ after, (parse g (front ++ after)).outcome = .ok root ∧
        (∀ gap name blanks, EndTagAhead after gap name blanks →
          (parse g (front ++ after)).reports =
            [strayEnd name (.between (front ++ gap) (endTag name blanks))]) ∧
        ((∀ gap name blanks, ¬ EndTagAhead after gap name blanks) →
          (parse g (front ++ after)).reports = []) := by
  obtain ⟨before, gap, text, back, frames, earlier, log, rfl, hrounds, hcloses, hsilent, hbegins,
    hstop⟩ := exists_closed hparse hreports hroot
  have hfront : ∀ tail, before ++ (gap ++ text) ++ tail = before ++ (gap ++ (text ++ tail)) := by
    simp
  refine ⟨before ++ (gap ++ text), back, ?_, ?_⟩
  · rw [hstop, ← hfront]
    exact cut_append _ back
  · intro after
    have hopening : '<' ∈ g.delimiters.opening → after <+: back := fun hmem => absurd hmem hangle
    obtain ⟨hok, htrailing⟩ := hcloses.parse hsilent hbegins hrounds hopening
    rw [hfront, htrailing]
    exact ⟨hok, fun _ _ _ hahead => hahead.reports _,
      fun hnone => checkTrailing_reports_eq_nil hnone _⟩

/-- The text after a root gives way to an end tag, and to a start tag that is not finished. -/
theorem parse_append_of_closed_list :
    let source := "é <ul a=b>\n x\x7b<li/> </p> y".toList
    let front := "é <ul a=b>\n x\x7b<li/> </p>".toList
    ∃ root, (parse {} source).outcome = .ok root ∧
      (parse {} (front ++ "\t</ul\n>".toList)).outcome = .ok root ∧
      (parse {} (front ++ "\t</ul\n>".toList)).reports =
        [strayEnd "ul".toList (.between (front ++ ['\t']) (endTag "ul".toList ['\n']))] ∧
      (parse {} (front ++ "<p".toList)).outcome = .ok root := by
  intro source front
  have hstop : (parse {} source).outcome.toOption.map
      (fun root => (root.isEmptyRoot, root.location.stop.offset)) = some (false, 25) := by
    decide +kernel
  have hreports : (parse {} source).reports = [] := by decide +kernel
  obtain ⟨root, hparse, hroot⟩ := Traced.exists_ok_of_map hstop
  obtain ⟨hroot, hoffset⟩ := Prod.mk.inj hroot
  obtain ⟨front', back, hcut, hafter⟩ := parse_append_of_closed (by decide) hparse hreports hroot
  rw [hoffset, show cut 25 source = .ok (front, " y".toList) by decide +kernel] at hcut
  cases hcut
  refine ⟨root, hparse, (hafter _).1, (hafter _).2.1 _ _ _ ?_, (hafter _).1⟩
  exact ⟨by decide, by decide, by decide, List.prefix_rfl⟩

end MarkupCompiler.Parser
