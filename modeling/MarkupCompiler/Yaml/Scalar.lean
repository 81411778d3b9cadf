import MarkupCompiler.Yaml.Number

/-!
Texts as YAML scalars. A text with a line feed is written as a literal block and any other without
quotes, unless that would read as something else.
-/

namespace MarkupCompiler.Yaml

inductive Style where
  | plain
  | singleQuoted
  | doubleQuoted
  | literal
  deriving DecidableEq, Repr

def isBreak (c : Char) : Bool :=
  c == '\n' || c == '\r' || c == '\u0085' || c == '\u2028' || c == '\u2029'

/-- The characters that need no escape; a tab is not among them. -/
def isPrintable (c : Char) : Bool :=
  let n := c.toNat
  n == 0x0A || (0x20 ≤ n && n ≤ 0x7E) ||
    (0xA0 ≤ n && n != 0xFEFF && n != 0xFFFE && n != 0xFFFF)

/-- A blank, a break or the end. -/
def endsWord : Text → Bool
  | [] => true
  | c :: _ => c == ' ' || c == '\t' || c == '\x00' || isBreak c

def isIndicator (c : Char) : Bool :=
  "#,[]\x7b\x7d&*!|>'\"%@`".toList.contains c

/-- A colon before a blank, or a number sign after one. -/
def hasInnerIndicator (afterBlank : Bool) : Text → Bool
  | [] => false
  | c :: cs =>
    (c == ':' && endsWord cs) || (c == '#' && afterBlank) || hasInnerIndicator (endsWord [c]) cs

/-- Whether markup could be seen in the text. -/
def hasIndicator : Text → Bool
  | [] => false
  | c :: cs =>
    ['-', '-', '-'].isPrefixOf (c :: cs) || ['.', '.', '.'].isPrefixOf (c :: cs) ||
      isIndicator c || ((c == '?' || c == ':' || c == '-') && endsWord cs) ||
      hasInnerIndicator (endsWord [c]) cs

def hasPair (first second : Char → Bool) (cs : Text) : Bool :=
  (cs.zip cs.tail).any fun (a, b) => first a && second b

def isSpaceChar (c : Char) : Bool :=
  c == ' '

/-- A space before a break, or a character that needs an escape. -/
def needsEscape (cs : Text) : Bool :=
  hasPair isSpaceChar isBreak cs || cs.any (!isPrintable ·)

def allowsSingleQuotes (cs : Text) : Bool :=
  !needsEscape cs && !hasPair isBreak isSpaceChar cs

def allowsPlain (cs : Text) : Bool :=
  allowsSingleQuotes cs && !cs.any isBreak && !hasIndicator cs &&
    cs.head? != some ' ' && cs.getLast? != some ' '

def allowsLiteral (cs : Text) : Bool :=
  !needsEscape cs && cs.getLast? != some ' '

def keywords : List Text :=
  ["null", "Null", "NULL", "~", "true", "True", "TRUE", "false", "False", "FALSE"].map String.toList

/-- Whether the text would read as something else than a text. -/
def isAmbiguous (cs : Text) : Bool :=
  cs.isEmpty || keywords.contains cs || isInteger cs || isFloat cs || isPaddedDigits cs

def style (cs : Text) : Style :=
  if cs.contains '\n' then
    if allowsLiteral cs then .literal else .doubleQuoted
  else if !isAmbiguous cs && allowsPlain cs then .plain
  else if allowsSingleQuotes cs then .singleQuoted
  else .doubleQuoted

/-- `digits` upper-case hexadecimal digits. -/
def hexadecimal (digits n : Nat) : Text :=
  (List.range digits).reverse.map fun i => (Nat.digitChar (n / Nat.pow 16 i % 16)).toUpper

def escapes : List (Nat × Char) :=
  [(0x00, '0'), (0x07, 'a'), (0x08, 'b'), (0x09, 't'), (0x0A, 'n'), (0x0B, 'v'), (0x0C, 'f'),
    (0x0D, 'r'), (0x1B, 'e'), (0x22, '\x22'), (0x5C, '\\'), (0x85, 'N'), (0x2028, 'L'),
    (0x2029, 'P')]

def escape (c : Char) : Text :=
  let n := c.toNat
  match escapes.lookup n with
  | some letter => ['\\', letter]
  | none =>
    if isPrintable c then [c]
    else if n ≤ 0xFF then '\\' :: 'x' :: hexadecimal 2 n
    else if n ≤ 0xFFFF then '\\' :: 'u' :: hexadecimal 4 n
    else '\\' :: 'U' :: hexadecimal 8 n

def pad (indent : Nat) : Text :=
  List.replicate indent ' '

/-- Indents what follows a break; a break itself is never indented. -/
def indentLines (indent : Nat) (write : Char → Text) : (atStart : Bool) → Text → Text
  | _, [] => []
  | atStart, c :: cs =>
    if isBreak c then c :: indentLines indent write true cs
    else (if atStart then pad indent else []) ++ write c ++ indentLines indent write false cs

def endsInBreak (cs : Text) : Bool :=
  cs.getLast?.any isBreak

/-- The indentation is given where the first line hides it, and then what becomes of the breaks at
the end: dropped, one of them kept, or all. -/
def literalHeader (cs : Text) : Text :=
  let hint := if cs.head?.any fun c => c == ' ' || isBreak c then ['2'] else []
  let chomping :=
    if !endsInBreak cs then ['-']
    else if cs.dropLast.isEmpty || endsInBreak cs.dropLast then ['+']
    else []
  '|' :: (hint ++ chomping)

/-- The scalar and the break after it. -/
def scalar (indent : Nat) (cs : Text) : Text :=
  match style cs with
  | .plain => cs ++ ['\n']
  | .singleQuoted =>
    let doubled (c : Char) : Text := if c = '\x27' then [c, c] else [c]
    '\x27' :: (indentLines indent doubled false cs ++
      (if endsInBreak cs then pad indent else []) ++ ['\x27', '\n'])
  | .doubleQuoted => '\x22' :: (cs.flatMap escape ++ ['\x22', '\n'])
  | .literal =>
    literalHeader cs ++ '\n' :: (indentLines indent (fun c => [c]) true cs ++
      if endsInBreak cs then [] else ['\n'])

end MarkupCompiler.Yaml
