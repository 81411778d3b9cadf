import MarkupCompiler.Event

/-!
Computations that leave a trace of events, whether they end with a result or stop. `Traced.loop`
repeats a step that makes a measure smaller.
-/

namespace MarkupCompiler

/-- The events in order, and the result if the computation came to one. -/
structure Traced (α : Type) where
  log : List Event
  outcome : Except Stop α

/-- What one round of a loop comes to. -/
inductive Round (σ α : Type) where
  | more (state : σ)
  | done (result : α)

namespace Traced

variable {α β σ : Type}

protected def pure (a : α) : Traced α :=
  ⟨[], .ok a⟩

protected def bind (x : Traced α) (f : α → Traced β) : Traced β :=
  match x.outcome with
  | .ok a =>
    let y := f a
    ⟨x.log ++ y.log, y.outcome⟩
  | .error stop => ⟨x.log, .error stop⟩

instance : Monad Traced where
  pure := Traced.pure
  bind := Traced.bind

instance : LawfulMonad Traced := LawfulMonad.mk' Traced
  (fun x => by
    obtain ⟨log, outcome⟩ := x
    cases outcome <;> simp [Functor.map, Traced.bind, Traced.pure])
  (fun a f => by simp [pure, bind, Traced.bind, Traced.pure])
  (fun x f g => by
    obtain ⟨log, outcome⟩ := x
    cases outcome with
    | error stop => rfl
    | ok a => cases h : (f a).outcome <;> simp [bind, Traced.bind, h])

/-- Notes an event. -/
def emit (event : Event) : Traced Unit :=
  ⟨[event], .ok ()⟩

def report (d : Diagnostic) : Traced Unit :=
  emit (.reported d)

/-- Stops because of a flaw of the template. -/
def fail (d : Diagnostic) : Traced α :=
  ⟨[], .error (.problem d)⟩

/-- A checked operation, which stops on a fault. -/
def check (x : Except Fault α) : Traced α :=
  match x with
  | .ok a => ⟨[], .ok a⟩
  | .error fault => ⟨[], .error (.fault fault)⟩

/-- The diagnostics that were reported, oldest first. -/
def reports (x : Traced α) : List Diagnostic :=
  x.log.filterMap Event.reported?

/-- Repeats `step` until it is done. -/
def loop (size : σ → Nat) (step : σ → Traced (Round σ α))
    (shrinks : ∀ s s', (step s).outcome = .ok (.more s') → size s' < size s) (s : σ) : Traced α :=
  match h : step s with
  | ⟨log, .error stop⟩ => ⟨log, .error stop⟩
  | ⟨log, .ok (.done a)⟩ => ⟨log, .ok a⟩
  | ⟨log, .ok (.more s')⟩ =>
    have := shrinks s s' (by rw [h])
    let later := loop size step shrinks s'
    ⟨log ++ later.log, later.outcome⟩
termination_by size s

theorem outcome_bind_eq_ok_iff {x : Traced α} {f : α → Traced β} {b : β} :
    (x >>= f).outcome = .ok b ↔ ∃ a, x.outcome = .ok a ∧ (f a).outcome = .ok b := by
  change (Traced.bind x f).outcome = .ok b ↔ _
  unfold Traced.bind
  cases h : x.outcome <;> simp

theorem outcome_map_eq_ok_iff {x : Traced α} {f : α → β} {b : β} :
    (f <$> x).outcome = .ok b ↔ ∃ a, x.outcome = .ok a ∧ f a = b := by
  rw [map_eq_pure_bind, outcome_bind_eq_ok_iff]
  simp [pure, Traced.pure]

@[simp]
theorem outcome_pure (a : α) : (pure a : Traced α).outcome = .ok a := rfl

@[simp]
theorem outcome_fail (d : Diagnostic) : (fail d : Traced α).outcome = .error (.problem d) := rfl

theorem outcome_check_eq_ok_iff {x : Except Fault α} {a : α} :
    (check x).outcome = .ok a ↔ x = .ok a := by
  cases x <;> simp [check]

variable {size : σ → Nat} {step : σ → Traced (Round σ α)}
  {shrinks : ∀ s s', (step s).outcome = .ok (.more s') → size s' < size s}

theorem loop_of_stop {s : σ} {stop : Stop} (h : (step s).outcome = .error stop) :
    loop size step shrinks s = ⟨(step s).log, .error stop⟩ := by
  rw [loop]
  split <;> simp_all

theorem loop_of_done {s : σ} {a : α} (h : (step s).outcome = .ok (.done a)) :
    loop size step shrinks s = ⟨(step s).log, .ok a⟩ := by
  rw [loop]
  split <;> simp_all

theorem loop_of_more {s s' : σ} (h : (step s).outcome = .ok (.more s')) :
    loop size step shrinks s =
      ⟨(step s).log ++ (loop size step shrinks s').log, (loop size step shrinks s').outcome⟩ := by
  rw [loop]
  split <;> simp_all

/-- What holds of the last round and passes from each round to the one before it holds of the
whole loop. -/
theorem loop_induction {P : σ → Traced α → Prop}
    (stopped : ∀ s stop, (step s).outcome = .error stop → P s ⟨(step s).log, .error stop⟩)
    (done : ∀ s a, (step s).outcome = .ok (.done a) → P s ⟨(step s).log, .ok a⟩)
    (more : ∀ s s' (later : Traced α), (step s).outcome = .ok (.more s') → P s' later →
      P s ⟨(step s).log ++ later.log, later.outcome⟩)
    (s : σ) : P s (loop size step shrinks s) := by
  cases h : (step s).outcome with
  | error stop =>
    rw [loop_of_stop h]
    exact stopped s stop h
  | ok round =>
    cases round with
    | done a =>
      rw [loop_of_done h]
      exact done s a h
    | more s' =>
      have hlt := shrinks s s' h
      rw [loop_of_more h]
      exact more s s' _ h (loop_induction stopped done more s')
termination_by size s

end Traced

end MarkupCompiler
