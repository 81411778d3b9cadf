import MarkupCompiler.Proofs.Normalization
import MarkupCompiler.Proofs.Outcome
import MarkupCompiler.Proofs.Writing

/-!
# No stage faults

A compilation ends with code or with a flaw of the template: no text is cut past its end or inside a
character, interpolations are read at their delimiters, and blocks are balanced. For each stage that
is read off what the stage comes to.
-/

namespace MarkupCompiler

/-- The template is to blame for the stop. -/
def Stop.IsProblem : Stop → Prop
  | .problem _ => True
  | .fault _ => False

theorem Parser.isProblem_of_parse {g : Grammar} {source : Text} {stop : Stop}
    (hstop : (parse g source).outcome = .error stop) : stop.IsProblem := by
  rcases parse_cases g source with ⟨root, hok, _⟩ | ⟨_, _, _, _, d, _, _, hflaw, _⟩
  · rw [hok] at hstop
    cases hstop
  · rw [hflaw] at hstop
    cases hstop
    exact trivial

theorem isProblem_of_rejectReported {reports : List Diagnostic} {stop : Stop}
    (hstop : (rejectReported reports).outcome = .error stop) : stop.IsProblem := by
  cases reports with
  | nil => cases hstop
  | cons d reports =>
    cases hstop
    exact trivial

theorem isProblem_of_normalize {o : Options} {root : Element} {stop : Stop}
    (hstop : (normalize o root).2.outcome = .error stop) : stop.IsProblem := by
  rw [normalize_outcome] at hstop
  split at hstop
  · cases hstop
    exact trivial
  · cases hstop

theorem isProblem_of_refusal {heads : List Head} {stop : Stop} (hstop : refusal heads = some stop) :
    stop.IsProblem := by
  obtain ⟨head, _, rfl⟩ := Option.map_eq_some_iff.mp hstop
  exact trivial

theorem isProblem_of_generate {o : Options} {root : Element} {stop : Stop}
    (hstop : (generate o root).outcome = .error stop) : stop.IsProblem := by
  rw [generate_eq] at hstop
  split at hstop
  · rename_i stop' hrefused
    cases hstop
    split at hrefused
    · cases hrefused
    · exact isProblem_of_refusal hrefused
  · cases hstop

/-- A compilation comes to code, or stops at a flaw of the template. -/
theorem compile_eq_ok_or_problem (o : Options) (source : Text) :
    (∃ code, (compile o source).outcome = .ok code) ∨
      ∃ d, (compile o source).outcome = .error (.problem d) := by
  have hstops : ∀ stop, (compile o source).outcome = .error stop → stop.IsProblem := by
    intro stop hstop
    simp only [compile, Traced.outcome_bind_eq_error_iff] at hstop
    rcases hstop with hparse | ⟨root, _, hreject | ⟨_, _, hnormalize | ⟨_, _, hgenerate⟩⟩⟩
    · exact Parser.isProblem_of_parse hparse
    · exact isProblem_of_rejectReported hreject
    · exact isProblem_of_normalize hnormalize
    · exact isProblem_of_generate hgenerate
  cases houtcome : (compile o source).outcome with
  | ok code => exact .inl ⟨code, rfl⟩
  | error stop =>
    cases stop with
    | problem d => exact .inr ⟨d, rfl⟩
    | fault fault => exact (hstops _ houtcome).elim

end MarkupCompiler
