import MarkupCompiler.Yaml.Scalar

/-!
YAML values and their block style, with two spaces for each level.
-/

namespace MarkupCompiler.Yaml

inductive Value where
  /-- A number or a truth value, written as it is. -/
  | word (cs : Text)
  | text (cs : Text)
  | list (items : List Value)
  | record (tag : Option Text) (fields : List (Text × Value))

namespace Value

mutual

/-- What follows a key and its colon, put before `tail`; a list stands no deeper than its key. -/
def afterKey (indent : Nat) (tail : Text) : Value → Text
  | .word cs => ' ' :: (cs ++ '\n' :: tail)
  | .text cs => ' ' :: (scalar (indent + 2) cs ++ tail)
  | .list [] => [' ', '[', ']', '\n'] ++ tail
  | .list (item :: items) => '\n' :: afterDashes indent tail (item :: items)
  | .record none fields => '\n' :: entries (indent + 2) true tail fields
  | .record (some tag) fields => [' ', '!'] ++ tag ++ '\n' :: entries (indent + 2) true tail fields

/-- What follows a dash, put before `tail`; a record without a tag begins on the dash's line. -/
def afterDash (indent : Nat) (tail : Text) : Value → Text
  | .word cs => ' ' :: (cs ++ '\n' :: tail)
  | .text cs => ' ' :: (scalar (indent + 2) cs ++ tail)
  | .list [] => [' ', '[', ']', '\n'] ++ tail
  | .list (item :: items) => '\n' :: afterDashes (indent + 2) tail (item :: items)
  | .record none fields => ' ' :: entries (indent + 2) false tail fields
  | .record (some tag) fields => [' ', '!'] ++ tag ++ '\n' :: entries (indent + 2) true tail fields

def afterDashes (indent : Nat) (tail : Text) : List Value → Text
  | [] => tail
  | item :: items => pad indent ++ '-' :: afterDash indent (afterDashes indent tail items) item

/-- The fields on lines of their own; the first may stand on a line that has begun. -/
def entries (indent : Nat) (newLine : Bool) (tail : Text) : List (Text × Value) → Text
  | [] => tail
  | (name, value) :: fields =>
    (if newLine then pad indent else []) ++ name ++
      ':' :: afterKey indent (entries indent true tail fields) value

end

/-- The fields of a record as a document. -/
def document (fields : List (Text × Value)) : Text :=
  entries 0 true [] fields

end Value

end MarkupCompiler.Yaml
