import MarkupCompiler.Text.Basic

/-!
Which plain scalars read as numbers: integers of 128 bits in four bases, and decimals that are
finite as a double-precision number.
-/

namespace MarkupCompiler.Yaml

def digitValue? (base : Nat) (c : Char) : Option Nat :=
  let value :=
    if c.isDigit then c.toNat - '0'.toNat
    else if 'a' ≤ c ∧ c ≤ 'f' then c.toNat - 'a'.toNat + 10
    else if 'A' ≤ c ∧ c ≤ 'F' then c.toNat - 'A'.toNat + 10
    else base
  if value < base then some value else none

/-- The number that a non-empty run of digits spells. -/
def natural? (base : Nat) (cs : Text) : Option Nat :=
  if cs.isEmpty then none
  else cs.foldlM (fun n c => (digitValue? base c).map (n * base + ·)) 0

/-- An integer without a sign, in the base that its mark says. -/
def magnitude? : Text → Option Nat
  | '0' :: 'x' :: digits => natural? 16 digits
  | '0' :: 'o' :: digits => natural? 8 digits
  | '0' :: 'b' :: digits => natural? 2 digits
  | digits => natural? 10 digits

def dropSign : Text → Text
  | '+' :: cs => cs
  | '-' :: cs => cs
  | cs => cs

/-- Decimal digits after a leading zero, which are no number. -/
def isPaddedDigits (cs : Text) : Bool :=
  match dropSign cs with
  | '0' :: digits => !digits.isEmpty && digits.all Char.isDigit
  | _ => false

def isInteger (cs : Text) : Bool :=
  !isPaddedDigits cs &&
    match cs with
    | '-' :: digits => (magnitude? digits).any (· ≤ Nat.pow 2 127)
    | '+' :: digits => (magnitude? digits).any (· < Nat.pow 2 128)
    | digits => (magnitude? digits).any (· < Nat.pow 2 128)

/-- A decimal: digits with at most one point among them, times a power of ten. -/
structure Decimal where
  digits : Nat
  exponent : Int

/-- The exponent after its mark, 0 without one. -/
def exponent? : Text → Option Int
  | [] => some 0
  | mark :: cs =>
    if mark = 'e' ∨ mark = 'E' then
      (natural? 10 (dropSign cs)).map fun n =>
        if cs.head? = some '-' then -Int.ofNat n else Int.ofNat n
    else none

def decimal? (cs : Text) : Option Decimal :=
  let whole := cs.takeWhile Char.isDigit
  let (fraction, tail) :=
    match cs.dropWhile Char.isDigit with
    | '.' :: tail => (tail.takeWhile Char.isDigit, tail.dropWhile Char.isDigit)
    | tail => ([], tail)
  match natural? 10 (whole ++ fraction), exponent? tail with
  | some digits, some exponent => some { digits, exponent := exponent - fraction.length }
  | _, _ => none

/-- The least magnitude that rounds to infinity. -/
def overflowLimit : Nat :=
  Nat.pow 2 1024 - Nat.pow 2 970

/-- Far too large and far too small magnitudes are told by their number of digits. -/
def Decimal.isFinite (d : Decimal) : Bool :=
  let magnitude := Int.ofNat (Nat.toDigits 10 d.digits).length + d.exponent
  if d.digits = 0 ∨ magnitude < 0 then true
  else if magnitude > 400 then false
  else if 0 ≤ d.exponent then d.digits * Nat.pow 10 d.exponent.toNat < overflowLimit
  else d.digits < overflowLimit * Nat.pow 10 (-d.exponent).toNat

def infinities : List Text :=
  [".inf".toList, ".Inf".toList, ".INF".toList]

def notNumbers : List Text :=
  [".nan".toList, ".NaN".toList, ".NAN".toList]

def isFloat (cs : Text) : Bool :=
  !isPaddedDigits cs &&
    (notNumbers.contains cs || infinities.contains (dropSign cs) ||
      (decimal? (dropSign cs)).any Decimal.isFinite)

end MarkupCompiler.Yaml
