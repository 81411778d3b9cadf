import MarkupCompiler.Text.Class

/-!
Single-quoted string literals: quotes, backslashes, control characters and the two Unicode line
separators are escaped.
-/

namespace MarkupCompiler.Text

/-- Four lower-case hexadecimal digits, of the value modulo 65536. -/
def hexDigits (n : Nat) : Text :=
  [n / 4096, n / 256, n / 16, n].map fun k => Nat.digitChar (k % 16)

/-- How a character is written between quotes. -/
def escape (c : Char) : Text :=
  if c = '\x27' then ['\\', '\x27']
  else if c = '\\' then ['\\', '\\']
  else if c = '\n' then ['\\', 'n']
  else if c = '\r' then ['\\', 'r']
  else if c = '\t' then ['\\', 't']
  else if c = '\u2028' ∨ c = '\u2029' ∨ isControl c then '\\' :: 'u' :: hexDigits c.toNat
  else [c]

/-- The text as a string literal. -/
def quote (cs : Text) : Text :=
  '\x27' :: (cs.flatMap escape ++ ['\x27'])

end MarkupCompiler.Text
