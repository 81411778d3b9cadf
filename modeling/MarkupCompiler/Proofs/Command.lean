import MarkupCompiler.CommandLine.Console
import MarkupCompiler.CommandLine.Run
import MarkupCompiler.Proofs.Compilation

/-!
# The command and the compiler

The command goes through the stages of a compilation with a reporter of its own, and shows what it
is asked to between them. It comes to code exactly when a compilation does, and to the same code.
Else it reports the flaw of the compilation, alone or before the others that the parse reported
(`compileShowing_agrees`). This holds however trees and reports are written.
-/

namespace MarkupCompiler.CommandLine

/-- A reporter that has shown the diagnostics, oldest first, and nothing else: each under its cause,
with its message as the label of the bytes that it is about. -/
def Reporter.shown (p : Presentation) (name source : Text) (ds : List Diagnostic) : Reporter where
  name
  source
  count := ds.length
  lines := ds.flatMap fun d => p.render
    { name, source
      message := d.cause.name
      range := (d.location.start.offset, d.location.stop.offset)
      label := d.message }

/-- What is shown of a tree before it is normalized; the rest is shown after. -/
def Display.before (display : Display) (p : Presentation) (root : Element) : Text :=
  (if display.outline then root.outline 0 ++ ['\n'] else []) ++
    if display.parsed then
      "=============== AST ==============\n".toList ++ p.document root ++
        "=========== End of AST ===========\n".toList
    else []

def Display.after (display : Display) (p : Presentation) (root : Element) : Text :=
  if display.normalized then
    "======= Transformed =========\n".toList ++ p.document root ++
      "======== End of Transform ========\n".toList
  else []

/-- The flaw stops the parse, or the normalization of a tree about which nothing was reported. -/
def StopsAt (o : Options) (source : Text) (d : Diagnostic) : Prop :=
  (Parser.parse o.grammar source).outcome = .error (.problem d) ∨
    ∃ root, (Parser.parse o.grammar source).outcome = .ok root ∧
      (Parser.parse o.grammar source).reports = [] ∧
        (normalize o root).2.outcome = .error (.problem d)

theorem not_stopsAt {o : Options} {source : Text} {root : Element} {d d' : Diagnostic}
    {later : List Diagnostic} (hparse : (Parser.parse o.grammar source).outcome = .ok root)
    (hreports : (Parser.parse o.grammar source).reports = d' :: later) : ¬ StopsAt o source d := by
  rintro (hstop | ⟨_, _, hnone, _⟩)
  · rw [hparse] at hstop
    cases hstop
  · rw [hreports] at hnone
    cases hnone

theorem Reporter.report_shown (p : Presentation) (name source : Text) (ds : List Diagnostic)
    (d : Diagnostic) :
    (Reporter.shown p name source ds).report p d = .shown p name source (ds ++ [d]) := by
  simp [Reporter.report, Reporter.describe, Reporter.shown, Location.range]

theorem Session.foldl_report (p : Presentation) (output name source : Text)
    (ds later : List Diagnostic) :
    later.foldl (Session.report p) { output, reporter := .shown p name source ds } =
      { output, reporter := .shown p name source (ds ++ later) } := by
  induction later generalizing ds with
  | nil => rw [List.foldl_nil, List.append_nil]
  | cons d later ih =>
    rw [List.foldl_cons, Session.report, Reporter.report_shown, ih, List.append_assoc,
      List.singleton_append]

theorem foldl_report_new (p : Presentation) (name source : Text) (ds : List Diagnostic) :
    ds.foldl (Session.report p) { reporter := { name, source } } =
      { reporter := .shown p name source ds } :=
  Session.foldl_report p [] name source [] ds

/-- A flaw that stops a stage before anything was reported is the only one shown. -/
theorem Session.fail_problem (p : Presentation) (output name source : Text) (d : Diagnostic) :
    Session.fail p { output, reporter := .shown p name source [] } (.problem d) =
      ({ output, reporter := .shown p name source [d] }, .error (.compilation name d.cause)) := by
  rw [Session.fail, Session.report, Reporter.report_shown]
  rfl

theorem Session.printIf_eq (s : Session) (wanted : Bool) (cs : Text) :
    s.printIf wanted cs = s.print (if wanted then cs else []) := by
  cases wanted <;> simp [Session.printIf, Session.print]

/-! ### The stages of the command -/

variable {p : Presentation} {o : Options} {name source : Text} {root : Element} {d : Diagnostic}

theorem compileShowing_of_stop (name : Text) (display : Display)
    (hparse : (Parser.parse o.grammar source).outcome = .error (.problem d))
    (hreports : (Parser.parse o.grammar source).reports = []) :
    compileShowing p o display name source =
      ({ reporter := .shown p name source [d] }, .error (.compilation name d.cause)) := by
  simp only [compileShowing, hreports, hparse, List.foldl_nil]
  exact Session.fail_problem p [] name source d

theorem compileShowing_of_reports (name : Text) (display : Display) {later : List Diagnostic}
    (hparse : (Parser.parse o.grammar source).outcome = .ok root)
    (hreports : (Parser.parse o.grammar source).reports = d :: later) :
    compileShowing p o display name source =
      ({ reporter := .shown p name source (d :: later) },
        .error (.reported (later.length + 1) name)) := by
  simp only [compileShowing, hreports, hparse, foldl_report_new]
  rfl

/-- Without a report, all that happens between the stages is that something is shown. -/
theorem compileShowing_of_silent (name : Text) (display : Display)
    (hparse : (Parser.parse o.grammar source).outcome = .ok root)
    (hreports : (Parser.parse o.grammar source).reports = []) :
    compileShowing p o display name source =
      let s : Session := { output := display.before p root, reporter := .shown p name source [] }
      match (normalize o root).2.outcome with
      | .error stop => s.fail p stop
      | .ok () =>
        let s := s.print (display.after p (normalize o root).1)
        match (generate o (normalize o root).1).outcome with
        | .error stop => s.fail p stop
        | .ok code => (s.print code, .ok ()) := by
  simp only [compileShowing, hreports, hparse, List.foldl_nil, Session.printIf_eq]
  rfl

theorem compileShowing_of_missingValue (name : Text) (display : Display) {a : Attribute}
    (hparse : (Parser.parse o.grammar source).outcome = .ok root)
    (hreports : (Parser.parse o.grammar source).reports = [])
    (hstop : (normalize o root).2.outcome = .error (.problem a.missingValue)) :
    compileShowing p o display name source =
      ({ output := display.before p root, reporter := .shown p name source [a.missingValue] },
        .error (.compilation name .attributeSyntax)) := by
  rw [compileShowing_of_silent name display hparse hreports, hstop]
  exact Session.fail_problem p _ name source a.missingValue

theorem compileShowing_of_assigned (name : Text) (display : Display)
    (hparse : (Parser.parse o.grammar source).outcome = .ok root)
    (hreports : (Parser.parse o.grammar source).reports = [])
    (hok : (normalize o root).2.outcome = .ok ()) :
    compileShowing p o display name source =
      ({ output := display.before p root ++ display.after p (normalize o root).1 ++
          moduleCode o.target (normalize o root).1
         reporter := .shown p name source [] }, .ok ()) := by
  rw [compileShowing_of_silent name display hparse hreports, hok]
  simp only [generate_normalize hparse o]
  rfl

/-! ### The command beside a compilation -/

/-- The ways a run of the command can end, each with what a compilation comes to then. -/
inductive Shown (p : Presentation) (o : Options) (name source : Text) :
    Except Stop Text → (Display → Session × Except Failure Unit) → Prop
  | stopped {d : Diagnostic} (hstops : StopsAt o source d) (output : Display → Text) :
      Shown p o name source (.error (.problem d)) fun display =>
        ({ output := output display, reporter := .shown p name source [d] },
          .error (.compilation name d.cause))
  | rejected {root : Element} {d : Diagnostic} {later : List Diagnostic}
      (hparse : (Parser.parse o.grammar source).outcome = .ok root)
      (hreports : (Parser.parse o.grammar source).reports = d :: later) :
      Shown p o name source (.error (.problem d)) fun _ =>
        ({ reporter := .shown p name source (d :: later) },
          .error (.reported (later.length + 1) name))
  | generated {root : Element} (hparse : (Parser.parse o.grammar source).outcome = .ok root)
      (code : Text) :
      Shown p o name source (.ok code) fun display =>
        ({ output := display.before p root ++ display.after p (normalize o root).1 ++ code
           reporter := .shown p name source [] }, .ok ())

theorem compileShowing_cases (p : Presentation) (o : Options) (name source : Text) :
    Shown p o name source (compile o source).outcome
      fun display => compileShowing p o display name source := by
  have hcompiled := compile_cases o source
  generalize (compile o source).outcome = outcome at hcompiled
  cases hcompiled with
  | stopped hparse _ =>
    -- a parse that stops has reported nothing, so that its flaw is the only one
    rcases Parser.parse_cases o.grammar source with ⟨_, hok, _⟩ | ⟨_, _, _, _, _, _, _, _, hreports⟩
    · rw [hok] at hparse
      cases hparse
    · simp only [compileShowing_of_stop name _ hparse hreports]
      exact .stopped (.inl hparse) fun _ => []
  | rejected hparse hreports _ =>
    simp only [compileShowing_of_reports name _ hparse hreports]
    exact .rejected hparse hreports
  | @unassigned root a hparse hreports hfirst =>
    have hstop := normalize_outcome o root
    rw [hfirst] at hstop
    simp only [compileShowing_of_missingValue name _ hparse hreports hstop]
    exact .stopped (.inr ⟨root, hparse, hreports, hstop⟩) fun display => display.before p root
  | @generated root hparse hreports hassigned =>
    have hok : (normalize o root).2.outcome = .ok () := by
      rw [normalize_of_assigned o hassigned]
      rfl
    simp only [compileShowing_of_assigned name _ hparse hreports hok]
    exact .generated hparse _

namespace Shown

variable {outcome : Except Stop Text} {run : Display → Session × Except Failure Unit}

theorem ok_iff (hshown : Shown p o name source outcome run) (display : Display) :
    (run display).2 = .ok () ↔ ∃ code, outcome = .ok code := by
  cases hshown <;> simp

theorem eq_of_ok (hshown : Shown p o name source outcome run) (display : Display) {code : Text}
    (hcode : outcome = .ok code) :
    ∃ root, (Parser.parse o.grammar source).outcome = .ok root ∧
      run display =
        ({ output := display.before p root ++ display.after p (normalize o root).1 ++ code
           reporter := .shown p name source [] }, .ok ()) := by
  cases hshown with
  | stopped => cases hcode
  | rejected => cases hcode
  | generated hparse =>
    cases hcode
    exact ⟨_, hparse, rfl⟩

theorem output_eq_code (hshown : Shown p o name source outcome run) {code : Text}
    (hcode : outcome = .ok code) : (run {}).1.output = code := by
  obtain ⟨root, _, hrun⟩ := hshown.eq_of_ok {} hcode
  rw [hrun]
  rfl

theorem exists_problem (hshown : Shown p o name source outcome run) {stop : Stop}
    (hstop : outcome = .error stop) : ∃ d, stop = .problem d := by
  cases hshown with
  | stopped => exact ⟨_, (Except.error.inj hstop).symm⟩
  | rejected => exact ⟨_, (Except.error.inj hstop).symm⟩
  | generated => cases hstop

/-- The flaw that stops a stage is the only one to be reported. -/
theorem reports_of_stopsAt (hshown : Shown p o name source outcome run) (display : Display)
    (hproblem : outcome = .error (.problem d)) (hstops : StopsAt o source d) :
    (run display).1.reporter = .shown p name source [d] ∧
      (run display).2 = .error (.compilation name d.cause) := by
  cases hshown with
  | stopped =>
    cases hproblem
    exact ⟨rfl, rfl⟩
  | rejected hparse hreports => exact absurd hstops (not_stopsAt hparse hreports)
  | generated => cases hproblem

theorem reports_of_not_stopsAt (hshown : Shown p o name source outcome run) (display : Display)
    (hproblem : outcome = .error (.problem d)) (hstops : ¬ StopsAt o source d) :
    ∃ later, (Parser.parse o.grammar source).reports = d :: later ∧
      (run display).1.reporter = .shown p name source (d :: later) ∧
        (run display).2 = .error (.reported (later.length + 1) name) := by
  cases hshown with
  | stopped hstopsAt =>
    cases hproblem
    exact absurd hstopsAt hstops
  | rejected _ hreports =>
    cases hproblem
    exact ⟨_, hreports, rfl, rfl⟩
  | generated => cases hproblem

theorem errors_eq (hshown : Shown p o name source outcome run) (display display' : Display) :
    (run display).2 = (run display').2 ∧
      (run display).1.reporter = (run display').1.reporter := by
  cases hshown <;> exact ⟨rfl, rfl⟩

end Shown

/-- **The command agrees with the compiler.** It succeeds exactly when a compilation does, and then
what it has been asked to show is followed by the code. Else a flaw that stops a stage is reported
alone, and flaws that the parse reported are reported again, the one of the compilation first. What
is shown changes neither. -/
theorem compileShowing_agrees (p : Presentation) (o : Options) (display : Display)
    (name source : Text) :
    let parsed := Parser.parse o.grammar source
    let compiled := (compile o source).outcome
    let run := fun display => compileShowing p o display name source
    ((run display).2 = .ok () ↔ ∃ code, compiled = .ok code) ∧
      (∀ code, compiled = .ok code → (run {}).1.output = code ∧
        ∃ root, parsed.outcome = .ok root ∧ run display =
          ({ output := display.before p root ++ display.after p (normalize o root).1 ++ code
             reporter := .shown p name source [] }, .ok ())) ∧
      (∀ stop, compiled = .error stop → ∃ d, stop = .problem d ∧
        (StopsAt o source d →
          (run display).1.reporter = .shown p name source [d] ∧
          ∃ f, (run display).2 = .error f ∧
            f.message = "failed to compile " ++ String.ofList name ++ ": " ++ d.cause.name) ∧
        (¬ StopsAt o source d →
          ∃ later, parsed.reports = d :: later ∧
            (run display).1.reporter = .shown p name source parsed.reports ∧
            ∃ f, (run display).2 = .error f ∧
              f.message = toString parsed.reports.length ++ " error(s) found in " ++
                String.ofList name)) ∧
      ∀ display', (run display).2 = (run display').2 ∧
        (run display).1.reporter = (run display').1.reporter := by
  intro parsed compiled run
  have hshown : Shown p o name source compiled run := compileShowing_cases p o name source
  refine ⟨hshown.ok_iff display, ?_, ?_, hshown.errors_eq display⟩
  · intro code hcode
    exact ⟨hshown.output_eq_code hcode, hshown.eq_of_ok display hcode⟩
  · intro stop hstop
    obtain ⟨d, rfl⟩ := hshown.exists_problem hstop
    refine ⟨d, rfl, fun hstops => ?_, fun hstops => ?_⟩
    · obtain ⟨hreporter, hfailure⟩ := hshown.reports_of_stopsAt display hstop hstops
      exact ⟨hreporter, _, hfailure, rfl⟩
    · obtain ⟨later, hreports, hreporter, hfailure⟩ :=
        hshown.reports_of_not_stopsAt display hstop hstops
      refine ⟨later, hreports, ?_, _, hfailure, ?_⟩
      · rw [hreporter, ← hreports]
      · rw [hreports]
        rfl

/-- Code alone without a flag, and with one, two elements that are left open. -/
theorem compileShowing_agrees_unclosed :
    let closed := "<p :a='b'>c</p>".toList
    let unclosed := "<ul>\n<li d>".toList
    let run := fun display source => compileShowing console {} display "e.html".toList source
    (run {} closed).1.output =
        ("import \x7b h \x7d from 'vue'\nexport function render() \x7b\n".toList ++
          "  const vm = this\n  return h('p', \x7b a: vm.b \x7d, ['c'])\n\x7d\n".toList) ∧
      (run { outline := true } unclosed).1.reporter.lines =
        ["error: MissingEndTag", "e.html:2:1", "error: MissingEndTag", "e.html:1:1"] ∧
      ∃ f, (run { outline := true } unclosed).2 = .error f ∧
        f.message = "2 error(s) found in e.html" := by
  intro closed unclosed run
  constructor
  · have hcode : (compile {} closed).outcome.toOption.map id = some
        ("import \x7b h \x7d from 'vue'\nexport function render() \x7b\n".toList ++
          "  const vm = this\n  return h('p', \x7b a: vm.b \x7d, ['c'])\n\x7d\n".toList) := by
      decide +kernel
    obtain ⟨_, hcompile, rfl⟩ := Traced.exists_ok_of_map hcode
    obtain ⟨_, hsuccess, _⟩ := compileShowing_agrees console {} {} "e.html".toList closed
    exact (hsuccess _ hcompile).1
  · have hreports : (Parser.parse {} unclosed).reports =
        [{ cause := .missingEndTag, detail := some " <li>".toList
           location := .between "<ul>\n".toList "<li d>".toList },
          { cause := .missingEndTag, detail := some " <ul>".toList
            location := .between [] "<ul>".toList }] := by
      decide +kernel
    have hname : (Parser.parse {} unclosed).outcome.toOption.map (·.tagName) = some ['u', 'l'] := by
      decide +kernel
    obtain ⟨root, hparse, _⟩ := Traced.exists_ok_of_map hname
    obtain ⟨_, _, hfailure, _⟩ :=
      compileShowing_agrees console {} { outline := true } "e.html".toList unclosed
    obtain ⟨d, hd, _, hrejected⟩ := hfailure _ (compile_of_report hparse hreports)
    cases hd
    obtain ⟨_, _, hreporter, f, hf, hmessage⟩ := hrejected (not_stopsAt hparse hreports)
    refine ⟨?_, f, hf, ?_⟩
    · rw [hreporter, hreports]
      decide +kernel
    · rw [hmessage, hreports]
      decide +kernel

end MarkupCompiler.CommandLine
