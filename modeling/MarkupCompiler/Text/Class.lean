import MarkupCompiler.Text.Basic

/-!
Character classes: markup blanks, white space, control characters, identifiers.
-/

namespace MarkupCompiler.Text

/-- The blanks of markup: space, tab, line feed, form feed and carriage return. -/
def isBlank (c : Char) : Bool :=
  c == ' ' || c == '\t' || c == '\n' || c == '\x0c' || c == '\r'

/-- The characters with the Unicode property White_Space. -/
def isSpace (c : Char) : Bool :=
  let n := c.toNat
  (0x09 ≤ n && n ≤ 0x0D) || n == 0x20 || n == 0x85 || n == 0xA0 || n == 0x1680 ||
    (0x2000 ≤ n && n ≤ 0x200A) || n == 0x2028 || n == 0x2029 || n == 0x202F || n == 0x205F ||
    n == 0x3000

/-- The control characters of both blocks, U+0000 to U+001F and U+007F to U+009F. -/
def isControl (c : Char) : Bool :=
  c.toNat ≤ 0x1F || (0x7F ≤ c.toNat && c.toNat ≤ 0x9F)

/-- The text without the white space at its end. -/
def trimEnd (cs : Text) : Text :=
  (cs.reverse.dropWhile isSpace).reverse

/-- The text without the white space around it. -/
def trim (cs : Text) : Text :=
  trimEnd (cs.dropWhile isSpace)

/-- Letters and digits here are the ASCII ones. -/
def isIdentifierChar (c : Char) : Bool :=
  c == '$' || c == '_' || c.isAlphanum

/-- Whether a text can be an object key without quotes. -/
def isSimpleIdentifier (cs : Text) : Bool :=
  match cs with
  | [] => false
  | c :: _ => cs.all isIdentifierChar && !c.isDigit

end MarkupCompiler.Text
