import MarkupCompiler.Traced

/-!
# Runs of a loop, round by round

A loop that ends goes through rounds that go on, and one last round that does not (`exists_rounds`).
Rounds that are known to happen can be taken off the front of a loop (`loop_of_rounds`).
-/

namespace MarkupCompiler.Traced

variable {α β σ : Type}

theorem check_ok (a : α) : check (.ok a) = pure a := rfl

@[simp]
theorem log_pure (a : α) : (pure a : Traced α).log = [] := rfl

theorem ok_bind (log : List Event) (a : α) (f : α → Traced β) :
    ((⟨log, .ok a⟩ : Traced α) >>= f) = ⟨log ++ (f a).log, (f a).outcome⟩ := rfl

theorem outcome_bind_eq_error_iff {x : Traced α} {f : α → Traced β} {stop : Stop} :
    (x >>= f).outcome = .error stop ↔
      x.outcome = .error stop ∨ ∃ a, x.outcome = .ok a ∧ (f a).outcome = .error stop := by
  change (Traced.bind x f).outcome = .error stop ↔ _
  unfold Traced.bind
  cases x.outcome <;> simp

theorem exists_ok_of_map {x : Traced α} {f : α → β} {b : β}
    (hmap : x.outcome.toOption.map f = some b) : ∃ a, x.outcome = .ok a ∧ f a = b := by
  cases houtcome : x.outcome with
  | error stop =>
    rw [houtcome] at hmap
    cases hmap
  | ok a =>
    rw [houtcome] at hmap
    exact ⟨a, rfl, Option.some.inj hmap⟩

/-- The rounds from one state to another, with the events that they note. -/
inductive Rounds (step : σ → Traced (Round σ α)) : σ → List Event → σ → Prop
  | refl (s : σ) : Rounds step s [] s
  | head {s s' s'' : σ} {log later : List Event} (hstep : step s = ⟨log, .ok (.more s')⟩)
      (hlater : Rounds step s' later s'') : Rounds step s (log ++ later) s''

variable {size : σ → Nat} {step : σ → Traced (Round σ α)}
  {shrinks : ∀ s s', (step s).outcome = .ok (.more s') → size s' < size s}

theorem Rounds.single {s s' : σ} {log : List Event} (hstep : step s = ⟨log, .ok (.more s')⟩) :
    Rounds step s log s' := by
  rw [← List.append_nil log]
  exact .head hstep (.refl s')

theorem Rounds.trans {s s' s'' : σ} {log later : List Event} (hfirst : Rounds step s log s')
    (hlater : Rounds step s' later s'') : Rounds step s (log ++ later) s'' := by
  induction hfirst with
  | refl => exact hlater
  | head hstep _ ih =>
    rw [List.append_assoc]
    exact .head hstep (ih hlater)

theorem loop_of_rounds {s s' : σ} {log : List Event} (hrounds : Rounds step s log s') :
    loop size step shrinks s =
      ⟨log ++ (loop size step shrinks s').log, (loop size step shrinks s').outcome⟩ := by
  induction hrounds with
  | refl => rfl
  | head hstep _ ih =>
    rw [loop_of_more (congrArg Traced.outcome hstep), ih, hstep]
    simp

/-- Every loop is rounds that go on and a last one, which stops or is done. -/
theorem exists_rounds (size : σ → Nat) (step : σ → Traced (Round σ α))
    (shrinks : ∀ s s', (step s).outcome = .ok (.more s') → size s' < size s) (s : σ) :
    ∃ log s' last, Rounds step s log s' ∧
      ((∃ stop, step s' = ⟨last, .error stop⟩ ∧
          loop size step shrinks s = ⟨log ++ last, .error stop⟩) ∨
        ∃ a, step s' = ⟨last, .ok (.done a)⟩ ∧
          loop size step shrinks s = ⟨log ++ last, .ok a⟩) := by
  let P (s : σ) (x : Traced α) : Prop :=
    ∃ log s' last, Rounds step s log s' ∧
      ((∃ stop, step s' = ⟨last, .error stop⟩ ∧ x = ⟨log ++ last, .error stop⟩) ∨
        ∃ a, step s' = ⟨last, .ok (.done a)⟩ ∧ x = ⟨log ++ last, .ok a⟩)
  refine loop_induction (P := P) ?_ ?_ ?_ s
  · intro s stop hstop
    refine ⟨[], s, (step s).log, .refl s, .inl ⟨stop, ?_, rfl⟩⟩
    rw [← hstop]
  · intro s a hdone
    refine ⟨[], s, (step s).log, .refl s, .inr ⟨a, ?_, rfl⟩⟩
    rw [← hdone]
  · rintro s s' _ hmore ⟨log, s'', last, hrounds, hlast⟩
    have hstep : step s = ⟨(step s).log, .ok (.more s')⟩ := by rw [← hmore]
    refine ⟨(step s).log ++ log, s'', last, .head hstep hrounds, ?_⟩
    rcases hlast with ⟨stop, hstop, rfl⟩ | ⟨a, hdone, rfl⟩
    · exact .inl ⟨stop, hstop, by simp⟩
    · exact .inr ⟨a, hdone, by simp⟩

end MarkupCompiler.Traced
