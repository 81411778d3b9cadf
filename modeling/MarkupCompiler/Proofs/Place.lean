import MarkupCompiler.Proofs.Text
import MarkupCompiler.Source.Cursor

/-!
# Places in a source text

A position is a count over the text before it, and a location that lies between two positions of a
source has a slice. A cursor that moves step by step reaches exactly the counted positions.
-/

namespace MarkupCompiler

open Text

/-- The position after `before`: bytes, line feeds, and the characters since the last of these. -/
def Position.after (before : Text) : Position where
  offset := byteSize before
  line := 1 + before.count '\n'
  column := 1 + (before.reverse.takeWhile (· != '\n')).length

namespace Position

theorem next_after (before : Text) (c : Char) :
    (after before).next c = after (before ++ [c]) := by
  by_cases hc : c = '\n'
  · simp [next, after, hc, List.count_append, Nat.add_assoc]
  · have hcount : List.count '\n' [c] = 0 := by simp [hc]
    simp [next, after, hc, List.count_append, hcount]
    omega

/-- Moving on character by character counts the same as counting anew. -/
@[simp]
theorem advance_after (before text : Text) :
    (after before).advance text = after (before ++ text) := by
  induction text generalizing before with
  | nil => simp
  | cons c text ih =>
    rw [advance, List.foldl_cons, next_after]
    have htail := ih (before ++ [c])
    rw [advance] at htail
    rw [htail, List.append_assoc, List.singleton_append]

end Position

namespace Location

/-- The location of `text` right after `before`. -/
def between (before text : Text) : Location where
  start := .after before
  stop := .after (before ++ text)

/-- The part of a source that a location covers. -/
def slice (source : Text) (l : Location) : Except Fault Text := do
  let (front, _) ← cut l.stop.offset source
  let (_, text) ← cut l.start.offset front
  return text

/-- Both ends of a location are positions of the source, and in order. -/
def IsSpan (source : Text) (l : Location) : Prop :=
  ∃ p q, p <+: q ∧ q <+: source ∧ l.start = .after p ∧ l.stop = .after q

@[simp]
theorem start_between (before text : Text) : (between before text).start = .after before := rfl

@[simp]
theorem stop_between (before text : Text) :
    (between before text).stop = .after (before ++ text) := rfl

theorem slice_between (before text back : Text) :
    (between before text).slice (before ++ (text ++ back)) = .ok text := by
  have hfront : cut (byteSize (before ++ text)) (before ++ (text ++ back))
      = .ok (before ++ text, back) := by
    rw [← List.append_assoc, cut_append]
  simp [slice, between, Position.after, bind, Except.bind, pure, Except.pure, hfront,
    -byteSize_append]

theorem isSpan_between (before text back : Text) :
    (between before text).IsSpan (before ++ (text ++ back)) := by
  refine ⟨before, before ++ text, List.prefix_append _ _, ?_, rfl, rfl⟩
  rw [← List.append_assoc]
  exact List.prefix_append _ _

theorem isSpan_default (source : Text) : ({} : Location).IsSpan source :=
  ⟨[], [], List.nil_prefix, List.nil_prefix, rfl, rfl⟩

end Location

namespace Cursor

/-- The cursor that has read `before`. -/
def past (before rest : Text) : Cursor where
  rest := rest
  position := .after before

@[simp]
theorem rest_past (before rest : Text) : (past before rest).rest = rest := rfl

@[simp]
theorem position_past (before rest : Text) : (past before rest).position = .after before := rfl

theorem moveBy_past {before taken rest : Text} {size : Nat} (hsize : byteSize taken = size) :
    (past before (taken ++ rest)).moveBy size = .ok (taken, past (before ++ taken) rest) := by
  rw [moveBy_eq_ok_iff]
  exact ⟨rfl, hsize, (Position.advance_after before taken).symm⟩

theorem peek_past {before ahead rest : Text} {size : Nat} (hsize : byteSize ahead = size) :
    (past before (ahead ++ rest)).peek size = .ok (.between before ahead) := by
  subst hsize
  simp [peek, past, Location.between]

theorem skipBlanks_past {before gap rest : Text} (hgap : Blank gap) (hrest : Stops isBlank rest) :
    (past before (gap ++ rest)).skipBlanks = .ok (past (before ++ gap) rest) := by
  have hsize : byteSize gap = (past before (gap ++ rest)).blankSize := by
    rw [blankSize, rest_past, takeWhile_append_of_stops hgap hrest]
  rw [skipBlanks, moveBy_past hsize]

theorem skipBlanks_of_stops (before : Text) {rest : Text} (hrest : Stops isBlank rest) :
    (past before rest).skipBlanks = .ok (past before rest) := by
  have hskip : (past before ([] ++ rest)).skipBlanks = .ok (past (before ++ []) rest) :=
    skipBlanks_past blank_nil hrest
  rwa [List.append_nil, List.nil_append] at hskip

@[simp]
theorem locationFrom_past (before text rest : Text) :
    (past (before ++ text) rest).locationFrom (.after before) = .between before text := rfl

end Cursor

end MarkupCompiler
