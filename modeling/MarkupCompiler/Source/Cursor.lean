import MarkupCompiler.Source.Position
import MarkupCompiler.Text.Class

/-!
A cursor in a source text: what is still to be read, and where that begins. It moves by byte
counts, so a move can miss the boundary of a character.
-/

namespace MarkupCompiler

structure Cursor where
  rest : Text
  position : Position := {}

namespace Cursor

/-- Reads the next `size` bytes. -/
def moveBy (c : Cursor) (size : Nat) : Except Fault (Text × Cursor) :=
  match c.rest.cut size with
  | .ok (taken, rest) => .ok (taken, { rest, position := c.position.advance taken })
  | .error fault => .error fault

/-- The location of the next `size` bytes, which are not read. -/
def peek (c : Cursor) (size : Nat) : Except Fault Location :=
  match c.rest.cut size with
  | .ok (ahead, _) => .ok { start := c.position, stop := c.position.advance ahead }
  | .error fault => .error fault

/-- The location from an earlier position up to the cursor. -/
def locationFrom (c : Cursor) (start : Position) : Location :=
  { start, stop := c.position }

/-- The number of bytes of the blanks at the cursor. -/
def blankSize (c : Cursor) : Nat :=
  Text.byteSize (c.rest.takeWhile Text.isBlank)

/-- Reads the blanks at the cursor. -/
def skipBlanks (c : Cursor) : Except Fault Cursor :=
  match c.moveBy c.blankSize with
  | .ok (_, c) => .ok c
  | .error fault => .error fault

theorem moveBy_eq_ok_iff {c c' : Cursor} {size : Nat} {taken : Text} :
    c.moveBy size = .ok (taken, c') ↔
      c.rest = taken ++ c'.rest ∧ Text.byteSize taken = size ∧
        c'.position = c.position.advance taken := by
  unfold moveBy
  constructor
  · intro hmove
    split at hmove
    · rename_i front back hcut
      obtain ⟨hrest, hsize⟩ := Text.eq_append_of_cut hcut
      simp only [Except.ok.injEq, Prod.mk.injEq] at hmove
      obtain ⟨rfl, rfl⟩ := hmove
      exact ⟨hrest, hsize, rfl⟩
    · cases hmove
  · rintro ⟨hrest, rfl, hposition⟩
    rw [hrest, Text.cut_append]
    cases c'
    simp_all

/-- A move by at least one byte leaves less to read. -/
theorem length_rest_lt_of_moveBy {c c' : Cursor} {size : Nat} {taken : Text}
    (hmove : c.moveBy size = .ok (taken, c')) (hsize : 0 < size) :
    c'.rest.length < c.rest.length := by
  obtain ⟨hrest, hbytes, _⟩ := moveBy_eq_ok_iff.mp hmove
  have htaken : taken ≠ [] := by
    rintro rfl
    simp at hbytes
    omega
  have hlength := List.length_pos_iff.mpr htaken
  rw [hrest, List.length_append]
  omega

theorem length_rest_le_of_moveBy {c c' : Cursor} {size : Nat} {taken : Text}
    (hmove : c.moveBy size = .ok (taken, c')) : c'.rest.length ≤ c.rest.length := by
  obtain ⟨hrest, _, _⟩ := moveBy_eq_ok_iff.mp hmove
  rw [hrest, List.length_append]
  omega

theorem length_rest_le_of_skipBlanks {c c' : Cursor} (hskip : c.skipBlanks = .ok c') :
    c'.rest.length ≤ c.rest.length := by
  unfold skipBlanks at hskip
  split at hskip
  · rename_i hmove
    cases hskip
    exact length_rest_le_of_moveBy hmove
  · cases hskip

end Cursor

end MarkupCompiler
