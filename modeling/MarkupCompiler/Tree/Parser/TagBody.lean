import MarkupCompiler.Source.Cursor
import MarkupCompiler.Source.Lexeme
import MarkupCompiler.Traced

/-!
The rest of a start tag after its name: attributes, one by one, up to the closing angle.
-/

namespace MarkupCompiler.Parser

/-- A start tag under way, its attributes newest first. -/
structure TagState where
  cursor : Cursor
  attributes : List Attribute := []

/-- The rest of a start tag after its name. -/
structure TagBody where
  cursor : Cursor
  attributes : List Attribute
  isSelfClosing : Bool

/-- Stops at the next `size` bytes. -/
def failAhead {α : Type} (cause : Cause) (c : Cursor) (size : Nat) : Traced α := do
  let location ← Traced.check (c.peek size)
  Traced.fail { cause, location }

def readAttribute (g : Grammar) (c : Cursor) : Traced (Attribute × Cursor) := do
  match ← Traced.check (Lexeme.attribute? c.rest) with
  | none => failAhead .malformedAttribute c 1
  | some size =>
    let (raw, c') ← Traced.check (c.moveBy size)
    let isDynamic := g.isBinding raw
    Traced.emit (.attributeRead raw isDynamic)
    return ({ isDynamic, raw, location := c'.locationFrom c.position }, c')

/-- One attribute of a start tag that began at `start`, or its end. -/
def tagStep (g : Grammar) (start : Position) (s : TagState) : Traced (Round TagState TagBody) := do
  let c ← Traced.check s.cursor.skipBlanks
  if c.rest.isEmpty then
    Traced.fail { cause := .endInTag, location := c.locationFrom start }
  else
    match Lexeme.tagClosing? c.rest with
    | some size =>
      let (_, c) ← Traced.check (c.moveBy size)
      return .done
        { cursor := c, attributes := s.attributes.reverse, isSelfClosing := size = 2 }
    | none =>
      let (attr, c) ← readAttribute g c
      return .more { cursor := c, attributes := attr :: s.attributes }

theorem length_rest_lt_of_readAttribute {g : Grammar} {c c' : Cursor} {attr : Attribute}
    (h : (readAttribute g c).outcome = .ok (attr, c')) : c'.rest.length < c.rest.length := by
  unfold readAttribute at h
  simp only [Traced.outcome_bind_eq_ok_iff, Traced.outcome_check_eq_ok_iff] at h
  obtain ⟨size?, hmatch, h⟩ := h
  cases size? with
  | none => simp [failAhead, Traced.outcome_bind_eq_ok_iff] at h
  | some size =>
    simp only [Traced.outcome_bind_eq_ok_iff, Traced.outcome_check_eq_ok_iff,
      Traced.outcome_pure, Except.ok.injEq, Prod.mk.injEq] at h
    obtain ⟨⟨raw, c₁⟩, hmove, _, _, _, rfl⟩ := h
    exact Cursor.length_rest_lt_of_moveBy hmove (Lexeme.attribute?_pos hmatch)

/-- An attribute is never empty, so a start tag comes to its end. -/
theorem tagStep_shrinks (g : Grammar) (start : Position) (s s' : TagState)
    (h : (tagStep g start s).outcome = .ok (.more s')) :
    s'.cursor.rest.length < s.cursor.rest.length := by
  unfold tagStep at h
  rw [Traced.outcome_bind_eq_ok_iff] at h
  obtain ⟨c, hskip, h⟩ := h
  have hle := Cursor.length_rest_le_of_skipBlanks (Traced.outcome_check_eq_ok_iff.mp hskip)
  split at h
  · simp at h
  · split at h
    · simp [Traced.outcome_map_eq_ok_iff] at h
    · simp only [Traced.outcome_bind_eq_ok_iff, Traced.outcome_pure, Except.ok.injEq,
        Round.more.injEq] at h
      obtain ⟨⟨attr, c₁⟩, hread, rfl⟩ := h
      exact Nat.lt_of_lt_of_le (length_rest_lt_of_readAttribute hread) hle

def readTagBody (g : Grammar) (start : Position) (c : Cursor) : Traced TagBody :=
  Traced.loop (·.cursor.rest.length) (tagStep g start) (tagStep_shrinks g start) { cursor := c }

theorem length_rest_le_of_readTagBody {g : Grammar} {start : Position} {c : Cursor}
    {body : TagBody} (h : (readTagBody g start c).outcome = .ok body) :
    body.cursor.rest.length ≤ c.rest.length := by
  let P (s : TagState) (x : Traced TagBody) : Prop :=
    ∀ body, x.outcome = .ok body → body.cursor.rest.length ≤ s.cursor.rest.length
  refine Traced.loop_induction (P := P) ?_ ?_ ?_ { cursor := c } body h
  · intro s stop _ body hbody
    cases hbody
  · intro s last hstep body hbody
    cases hbody
    unfold tagStep at hstep
    rw [Traced.outcome_bind_eq_ok_iff] at hstep
    obtain ⟨c₁, hskip, hstep⟩ := hstep
    have hle := Cursor.length_rest_le_of_skipBlanks (Traced.outcome_check_eq_ok_iff.mp hskip)
    split at hstep
    · simp at hstep
    · split at hstep
      · simp only [Traced.outcome_bind_eq_ok_iff, Traced.outcome_check_eq_ok_iff,
          Traced.outcome_pure, Except.ok.injEq, Round.done.injEq] at hstep
        obtain ⟨⟨taken, c₂⟩, hmove, rfl⟩ := hstep
        exact Nat.le_trans (Cursor.length_rest_le_of_moveBy hmove) hle
      · simp [Traced.outcome_map_eq_ok_iff] at hstep
  · intro s s' later hstep hlater body hbody
    exact Nat.le_trans (hlater body hbody) (Nat.le_of_lt (tagStep_shrinks g start s s' hstep))

end MarkupCompiler.Parser
