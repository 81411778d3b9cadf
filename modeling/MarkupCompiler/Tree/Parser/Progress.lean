import MarkupCompiler.Tree.Parser.Step

/-!
Every construct is at least one character long, so that a parse comes to its end
(`step_shrinks`).
-/

namespace MarkupCompiler.Parser

theorem cursor_of_complete {e : Element} {c : Cursor} {frames : List Frame} {s : State}
    (h : (complete e c frames).outcome = .ok (.more s)) : s.cursor = c := by
  cases frames with
  | nil => simp [complete, Traced.outcome_map_eq_ok_iff] at h
  | cons frame frames =>
    simp only [complete, Traced.outcome_pure, Except.ok.injEq, Round.more.injEq] at h
    rw [← h]

theorem length_rest_lt_of_readStartTag {g : Grammar} {c : Cursor} {frames : List Frame} {s : State}
    (h : (readStartTag g c frames).outcome = .ok (.more s)) :
    s.cursor.rest.length < c.rest.length := by
  unfold readStartTag at h
  cases hopening : Lexeme.tagOpening? c.rest with
  | none => simp [hopening, failAhead, Traced.outcome_bind_eq_ok_iff] at h
  | some size =>
    simp only [hopening, Traced.outcome_bind_eq_ok_iff, Traced.outcome_check_eq_ok_iff] at h
    obtain ⟨⟨opening, c₁⟩, hmove, _, _, _, _, body, hbody, h⟩ := h
    have hlt := Cursor.length_rest_lt_of_moveBy hmove (Lexeme.tagOpening?_pos hopening)
    have hle := length_rest_le_of_readTagBody hbody
    have hcursor : s.cursor = body.cursor := by
      split at h
      · exact cursor_of_complete h
      · simp only [Traced.outcome_pure, Except.ok.injEq, Round.more.injEq] at h
        rw [← h]
    rw [hcursor]
    exact Nat.lt_of_le_of_lt hle hlt

theorem length_rest_lt_of_readEndTag {c : Cursor} {frames : List Frame} {s : State}
    (h : (readEndTag c frames).outcome = .ok (.more s)) : s.cursor.rest.length < c.rest.length := by
  unfold readEndTag at h
  simp only [Traced.outcome_bind_eq_ok_iff, Traced.outcome_check_eq_ok_iff] at h
  obtain ⟨tag?, hmatch, h⟩ := h
  cases tag? with
  | none => simp [failAhead, Traced.outcome_bind_eq_ok_iff] at h
  | some tag =>
    simp only [Traced.outcome_bind_eq_ok_iff, Traced.outcome_check_eq_ok_iff] at h
    obtain ⟨⟨taken, c₁⟩, hmove, h⟩ := h
    have hlt := Cursor.length_rest_lt_of_moveBy hmove (Lexeme.endTag?_pos hmatch)
    cases frames with
    | nil => simp [Traced.outcome_map_eq_ok_iff] at h
    | cons frame frames =>
      obtain ⟨_, _, h⟩ := Traced.outcome_bind_eq_ok_iff.mp h
      rw [cursor_of_complete h]
      exact hlt

theorem length_rest_lt_of_readInterpolation {g : Grammar} {c : Cursor} {frames : List Frame}
    {s : State} (hopening : g.delimiters.opening ≠ [])
    (h : (readInterpolation g c frames).outcome = .ok (.more s)) :
    s.cursor.rest.length < c.rest.length := by
  unfold readInterpolation at h
  simp only [Traced.outcome_bind_eq_ok_iff, Traced.outcome_check_eq_ok_iff] at h
  obtain ⟨found?, hmatch, h⟩ := h
  cases found? with
  | none => simp [failAhead, Traced.outcome_bind_eq_ok_iff] at h
  | some found =>
    simp only [Traced.outcome_bind_eq_ok_iff, Traced.outcome_check_eq_ok_iff,
      Traced.outcome_pure, Except.ok.injEq, Round.more.injEq] at h
    obtain ⟨⟨taken, c₁⟩, hmove, _, _, rfl⟩ := h
    exact Cursor.length_rest_lt_of_moveBy hmove (Lexeme.interpolation?_pos hopening hmatch)

theorem length_rest_lt_of_readText {g : Grammar} {c : Cursor} {frames : List Frame} {s : State}
    (hrest : c.rest ≠ []) (h : (readText g c frames).outcome = .ok (.more s)) :
    s.cursor.rest.length < c.rest.length := by
  unfold readText at h
  simp only [Traced.outcome_bind_eq_ok_iff, Traced.outcome_check_eq_ok_iff,
    Traced.outcome_pure, Except.ok.injEq, Round.more.injEq] at h
  obtain ⟨size, hsize, ⟨taken, c₁⟩, hmove, _, _, rfl⟩ := h
  exact Cursor.length_rest_lt_of_moveBy hmove (Lexeme.textSize_pos hrest hsize)

theorem step_shrinks (g : Grammar) (s s' : State) (h : (step g s).outcome = .ok (.more s')) :
    s'.cursor.rest.length < s.cursor.rest.length := by
  unfold step at h
  rw [Traced.outcome_bind_eq_ok_iff] at h
  obtain ⟨c, hskip, h⟩ := h
  have hle := Cursor.length_rest_le_of_skipBlanks (Traced.outcome_check_eq_ok_iff.mp hskip)
  refine Nat.lt_of_lt_of_le ?_ hle
  split at h
  · simp [Traced.outcome_map_eq_ok_iff] at h
  · rename_i hempty
    split at h
    · exact length_rest_lt_of_readEndTag h
    · split at h
      · exact length_rest_lt_of_readStartTag h
      · split at h
        · rename_i hopening
          exact length_rest_lt_of_readInterpolation (by simp_all) h
        · exact length_rest_lt_of_readText (by simpa using hempty) h

end MarkupCompiler.Parser
