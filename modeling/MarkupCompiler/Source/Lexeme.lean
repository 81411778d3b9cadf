import MarkupCompiler.Options
import MarkupCompiler.Text.Class

/-!
The constructs that can begin at the head of a text. Each reader gives the number of bytes of the
construct, and leaves it to the caller to move on.
-/

namespace MarkupCompiler.Lexeme

open Text

def isNameChar (c : Char) : Bool :=
  c.isAlphanum || c == '-' || c == '_'

/-- The size of the tag name at the head, which begins with a letter; 0 without one. -/
def nameSize (cs : Text) : Nat :=
  match cs with
  | [] => 0
  | c :: _ => if c.isAlpha then byteSize (cs.takeWhile isNameChar) else 0

/-- The opening angle and the tag name. -/
def tagOpening? (cs : Text) : Option Nat :=
  match cs with
  | '<' :: name =>
    match nameSize name with
    | 0 => none
    | size => some (size + 1)
  | _ => none

/-- The end of a start tag; two bytes when the element is closed at once. -/
def tagClosing? (cs : Text) : Option Nat :=
  match cs with
  | '/' :: '>' :: _ => some 2
  | '>' :: _ => some 1
  | _ => none

/-- The quotes are written by number, `"` and then `'`. -/
def isQuote (c : Char) : Bool :=
  c == '\x22' || c == '\x27'

def isAttributeNameChar (c : Char) : Bool :=
  !(isBlank c || isQuote c || c == '<' || c == '>' || c == '/' || c == '=')

def isBareValueChar (c : Char) : Bool :=
  !(isBlank c || isQuote c || c == '=' || c == '<' || c == '>' || c == '\x60')

/-- An attribute's value: a quoted text, or a run of characters without quotes. -/
def valueSize (cs : Text) : Except Fault (Option Nat) :=
  match cs with
  | [] => .ok none
  | q :: _ =>
    if isQuote q then
      match cut 1 cs with
      | .ok (_, body) => .ok ((find? [q] body).map (· + 2))
      | .error fault => .error fault
    else
      match byteSize (cs.takeWhile isBareValueChar) with
      | 0 => .ok none
      | size => .ok (some size)

/-- The equals sign of an attribute and its value, with the blanks before both. -/
def assignmentSize (cs : Text) : Except Fault (Option Nat) := do
  let before := byteSize (cs.takeWhile isBlank)
  let (_, sign) ← cut before cs
  match sign with
  | '=' :: tail =>
    let after := byteSize (tail.takeWhile isBlank)
    let (_, value) ← cut after tail
    let size ← valueSize value
    return size.map (before + 1 + after + ·)
  | _ => return none

/-- An attribute: its name and, if it can be read, the value assigned to it. -/
def attribute? (cs : Text) : Except Fault (Option Nat) := do
  let size := byteSize (cs.takeWhile isAttributeNameChar)
  if size = 0 then return none
  let (_, tail) ← cut size cs
  let assigned ← assignmentSize tail
  return some (size + assigned.getD 0)

/-- An end tag, with the name in it. -/
def endTag? (cs : Text) : Except Fault (Option (Text × Nat)) := do
  match cs with
  | '<' :: '/' :: tail =>
    let size := nameSize tail
    if size = 0 then return none
    let (name, tail) ← cut size tail
    let blanks := byteSize (tail.takeWhile isBlank)
    let (_, tail) ← cut blanks tail
    match tail with
    | '>' :: _ => return some (name, 2 + size + blanks + 1)
    | _ => return none
  | _ => return none

/-- An interpolation, with the expression in it; `cs` has to begin with the opening delimiter. -/
def interpolation? (d : Delimiters) (cs : Text) : Except Fault (Option (Text × Nat)) := do
  if !d.opening.isPrefixOf cs then throw .awayFromDelimiter
  let (_, body) ← cut (byteSize d.opening) cs
  match find? d.closing body with
  | none => return none
  | some size =>
    let (content, _) ← cut size body
    return some (trim content, byteSize d.opening + size + byteSize d.closing)

/-- The size of the run of plain text at the head: it ends before the next tag or opening
delimiter, and holds at least the first character. -/
def textSize (opening : Text) : Text → Except Fault Nat
  | [] => return 0
  | c :: cs => do
    let (_, tail) ← cut c.utf8Size (c :: cs)
    let tag := (find? ['<'] tail).getD (byteSize tail)
    if opening.isEmpty then return tag + c.utf8Size
    let (run, _) ← cut tag tail
    return (find? opening run).getD tag + c.utf8Size

theorem attribute?_pos {cs : Text} {size : Nat} (h : attribute? cs = .ok (some size)) :
    0 < size := by
  unfold attribute? at h
  simp only [bind, Except.bind, pure, Except.pure] at h
  split at h
  · cases h
  · repeat' split at h
    all_goals simp only [reduceCtorEq, Except.ok.injEq, Option.some.injEq] at h
    omega

theorem endTag?_pos {cs name : Text} {size : Nat} (h : endTag? cs = .ok (some (name, size))) :
    0 < size := by
  unfold endTag? at h
  simp only [bind, Except.bind, pure, Except.pure] at h
  repeat' split at h
  all_goals simp only [reduceCtorEq, Except.ok.injEq, Option.some.injEq, Prod.mk.injEq] at h
  omega

theorem tagOpening?_pos {cs : Text} {size : Nat} (h : tagOpening? cs = some size) : 0 < size := by
  unfold tagOpening? at h
  repeat' split at h
  all_goals simp only [reduceCtorEq, Option.some.injEq] at h
  omega

theorem textSize_pos {opening cs : Text} {size : Nat} (hcs : cs ≠ [])
    (h : textSize opening cs = .ok size) : 0 < size := by
  cases cs with
  | nil => exact absurd rfl hcs
  | cons c cs =>
    have hpos := c.utf8Size_pos
    simp only [textSize, bind, Except.bind, pure, Except.pure] at h
    repeat' split at h
    all_goals simp only [reduceCtorEq, Except.ok.injEq] at h
    all_goals omega

theorem interpolation?_pos {d : Delimiters} {cs content : Text} {size : Nat}
    (hopening : d.opening ≠ []) (h : interpolation? d cs = .ok (some (content, size))) :
    0 < size := by
  have hne : byteSize d.opening ≠ 0 := fun hzero => hopening (byteSize_eq_zero_iff.mp hzero)
  unfold interpolation? at h
  simp only [bind, Except.bind, pure, Except.pure, throw, throwThe, MonadExceptOf.throw] at h
  repeat' split at h
  all_goals simp only [reduceCtorEq, Except.ok.injEq, Option.some.injEq, Prod.mk.injEq] at h
  all_goals omega

end MarkupCompiler.Lexeme
