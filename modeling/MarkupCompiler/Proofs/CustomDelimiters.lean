import MarkupCompiler.CommandLine.Failure
import MarkupCompiler.Proofs.Completeness
import MarkupCompiler.Proofs.Tiling

/-!
# Custom delimiters

Blanks are skipped before a construct, and a tag is looked for before an interpolation. So the
delimiters that the command accepts are those that interpolate exactly when the opening one begins
with neither a blank nor an angle (`interpolates_iff`).
-/

namespace MarkupCompiler

open Text Lexeme CommandLine

theorem CommandLine.ne_nil_of_readDelimiters {cs : Text} {d : Delimiters}
    (hread : readDelimiters cs = .ok d) : d.opening ≠ [] ∧ d.closing ≠ [] := by
  unfold readDelimiters at hread
  split at hread
  · split at hread
    · cases hread
    · rename_i hempty
      cases hread
      simpa [not_or] using hempty
  · cases hread

namespace Parser

/-- An expression between delimiters, alone inside of an element. -/
def interpolated (d : Delimiters) (expression : Text) : Text :=
  ['<', 'p', '>'] ++ (d.opening ++ (expression ++ (d.closing ++ ['<', '/', 'p', '>'])))

/-- The expression is read as the only child of the element around it, and nothing is reported. -/
def Interpolates (g : Grammar) (expression : Text) : Prop :=
  let parsed := parse g (interpolated g.delimiters expression)
  ∃ root run, parsed.outcome = .ok root ∧ parsed.reports = [] ∧ root.kind = .root ∧
    root.tagName = ['p'] ∧ root.children = [.text run] ∧
    run.kind = .interpolation ∧ run.content = trim expression

variable {g : Grammar}

theorem interpolates_of_layout {expression : Text}
    (hlayout : InterpolationLayout g ['<', '/', 'p', '>'] expression) :
    Interpolates g expression := by
  let inner := g.delimiters.opening ++ (expression ++ g.delimiters.closing)
  let run : TextRun := .readInterpolation g.delimiters ['<', 'p', '>'] expression
  let head : Head :=
    { kind := .root, tagName := ['p']
      location := .between []
        (['<', 'p'] ++ (closing false ++ (inner ++ ([] ++ endTag ['p'] [])))) }
  have hname : IsTagName ['p'] := by decide
  have htag : HeadLayout g [] (closing false ++ (inner ++ ([] ++ (endTag ['p'] [] ++ [])))) head
      ('<' :: (head.tagName ++ ([] ++ []))) :=
    .intro hname (stops_cons.mpr rfl) (.nil _) blank_nil
  have hrun : NodeLayout g .element ['<', 'p', '>'] ['<', '/', 'p', '>'] (.text run) inner :=
    .text (.interpolation hlayout)
  have hchildren : NodesLayout g ['<', 'p', '>'] ['<', '/', 'p', '>'] [.text run] inner := by
    have hall : NodesLayout g ['<', 'p', '>'] ['<', '/', 'p', '>'] [.text run]
        ([] ++ (inner ++ [])) := .cons blank_nil hrun (.nil _ _)
    simpa using hall
  have hroot : NodeLayout g .root [] [] (⟨head, [.text run]⟩ : Element).toNode
      (['<', 'p'] ++ (closing false ++ (inner ++ ([] ++ endTag ['p'] [])))) :=
    .closed htag rfl rfl hchildren blank_nil hname blank_nil
  have hparse := parse_of_layout blank_nil hroot
  have hsource :
      [] ++ ((['<', 'p'] ++ (closing false ++ (inner ++ ([] ++ endTag ['p'] [])))) ++ []) =
        interpolated g.delimiters expression := by
    simp [interpolated, inner, closing, endTag]
  rw [hsource, checkTrailing_reports_of_blank _ blank_nil] at hparse
  exact ⟨_, run, hparse.1, hparse.2, rfl, rfl, rfl, rfl, rfl⟩

/-- An interpolation in a complete tree was read at an opening delimiter. -/
theorem exists_interpolationLayout {source : Text} {root : Element} {run : TextRun}
    (hparse : (parse g source).outcome = .ok root) (hreports : (parse g source).reports = [])
    (hmem : .text run ∈ root.children) (hkind : run.kind = .interpolation) :
    ∃ after body, InterpolationLayout g after body := by
  rcases exists_layout_of_silent hparse hreports with rfl | ⟨_, _, _, _, hlayout⟩
  · cases hmem
  · obtain ⟨head, children⟩ := root
    cases hlayout with
    | selfClosed => cases hmem
    | closed _ _ _ hchildren _ _ _ =>
      obtain ⟨_, back, _, _, hnode⟩ := hchildren.exists_of_mem hmem
      cases hnode with
      | text hrun =>
        cases hrun with
        | plain => cases hkind
        | @interpolation body hbody => exact ⟨back, body, hbody⟩

theorem Interpolates.stops {expression : Text} (h : Interpolates g expression) :
    Stops isBlank g.delimiters.opening ∧ Stops (· == '<') g.delimiters.opening := by
  obtain ⟨root, run, hparse, hreports, _, _, hchildren, hkind, _⟩ := h
  have hmem : .text run ∈ root.children := by rw [hchildren]; exact List.mem_singleton_self _
  obtain ⟨_, _, hlayout⟩ := exists_interpolationLayout hparse hreports hmem hkind
  exact ⟨hlayout.not_blank, hlayout.not_angle⟩

/-- Delimiters that the command accepts interpolate every expression without the closing one, as
long as the opening one begins with neither a blank nor an angle, and else none. -/
theorem interpolates_iff {cs expression : Text} {d : Delimiters} (markers : List Char)
    (hread : readDelimiters cs = .ok d) (habsent : Absent d.closing expression d.closing) :
    Interpolates { delimiters := d, markers } expression ↔
      Stops isBlank d.opening ∧ Stops (· == '<') d.opening := by
  constructor
  · exact Interpolates.stops
  · rintro ⟨hblank, hangle⟩
    apply interpolates_of_layout
    exact ⟨(ne_nil_of_readDelimiters hread).1, hblank, hangle, habsent.extend _⟩

/-- The expression holds the opening delimiter, and ends with half of the closing one. -/
theorem interpolates_iff_brackets :
    let d : Delimiters := { opening := ['[', '['], closing := [']', ']'] }
    readDelimiters "[[ ]]".toList = .ok d ∧ Absent d.closing " a[[0] ".toList d.closing ∧
      Interpolates { delimiters := d, markers := ['@'] } " a[[0] ".toList := by
  intro d
  have hread : readDelimiters "[[ ]]".toList = .ok d := rfl
  have habsent : Absent d.closing " a[[0] ".toList d.closing := by decide
  exact ⟨hread, habsent, (interpolates_iff ['@'] hread habsent).mpr ⟨by decide, by decide⟩⟩

/-- The command accepts delimiters that look like a tag or begin with a tab, and neither of them
interpolates. -/
theorem not_interpolates_tag_or_tab :
    let tag : Delimiters := { opening := ['<', '%'], closing := ['%', '>'] }
    let tab : Delimiters := { opening := ['\t', '['], closing := [']'] }
    (readDelimiters "<% %>".toList = .ok tag ∧ Absent tag.closing ['a'] tag.closing ∧
        ¬ Interpolates { delimiters := tag } ['a']) ∧
      readDelimiters "\t[ ]".toList = .ok tab ∧ Absent tab.closing ['a'] tab.closing ∧
        ¬ Interpolates { delimiters := tab } ['a'] := by
  intro tag tab
  refine ⟨⟨rfl, by decide, ?_⟩, rfl, by decide, ?_⟩
  · intro h
    exact absurd h.stops.2 (by decide)
  · intro h
    exact absurd h.stops.1 (by decide)

end Parser

end MarkupCompiler
