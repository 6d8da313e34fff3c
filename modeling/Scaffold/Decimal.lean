import Scaffold.Text

/-!
Decimal numbers: a sign, digits and a power of ten. Reading accepts an optional sign, digits with
at most one point and an optional exponent; `plain` and `compact` are the two written forms.
-/

namespace Scaffold

/-- The number `± digits · 10 ^ scale`. -/
structure Decimal where
  negative : Bool
  digits : Nat
  scale : Int
  deriving DecidableEq, Repr

namespace Decimal

def isDigit (c : Char) : Bool := c.isDigit

def digitValue (c : Char) : Nat := c.toNat - '0'.toNat

/-- Value of a run of digits, most significant first. -/
def ofDigits (t : Text) : Nat := t.foldl (fun n c => 10 * n + digitValue c) 0

def digitText (n : Nat) : Text := Nat.toDigits 10 n

def intText (n : Int) : Text :=
  if n < 0 then '-' :: digitText n.natAbs else digitText n.natAbs

def readSign : Text → Bool × Text
  | '-' :: t => (true, t)
  | '+' :: t => (false, t)
  | t => (false, t)

def readFraction : Text → Text × Text
  | '.' :: t => (t.takeWhile isDigit, t.dropWhile isDigit)
  | t => ([], t)

def readExponent? : Text → Option Int
  | [] => some 0
  | e :: t =>
    if e = 'e' ∨ e = 'E' then
      let (negative, ds) := readSign t
      if ds.isEmpty ∨ !ds.all isDigit then none
      else some (if negative then -(ofDigits ds : Int) else ofDigits ds)
    else none

/-- At least one digit has to stand before or after the point. -/
def read? (t : Text) : Option Decimal :=
  let (negative, t) := readSign t
  let whole := t.takeWhile isDigit
  let (fraction, rest) := readFraction (t.dropWhile isDigit)
  if whole.isEmpty ∧ fraction.isEmpty then none
  else (readExponent? rest).map fun e =>
    ⟨negative, ofDigits (whole ++ fraction), e - fraction.length⟩

def zeros (n : Int) : Text := List.replicate n.toNat '0'

def signText (negative : Bool) : Text := if negative then ['-'] else []

/-- Positional notation whatever the size, and no point unless a fraction follows it. -/
def plain (d : Decimal) : Text :=
  let ds := digitText d.digits
  let point : Int := ds.length + d.scale
  signText d.negative ++
    if d.digits = 0 then ['0']
    else if 0 ≤ d.scale then ds ++ zeros d.scale
    else if 0 < point then ds.take point.toNat ++ '.' :: ds.drop point.toNat
    else '0' :: '.' :: zeros (-point) ++ ds

/-- Positional notation with a point for magnitudes from `10 ^ -5` up to, but not including,
`10 ^ 16`, and one digit before the point with an exponent otherwise. -/
def compact (d : Decimal) : Text :=
  let ds := digitText d.digits
  let point : Int := ds.length + d.scale
  signText d.negative ++
    if d.digits = 0 then ['0', '.', '0']
    else if 0 ≤ d.scale ∧ point ≤ 16 then ds ++ zeros d.scale ++ ['.', '0']
    else if 0 < point ∧ point ≤ 16 then ds.take point.toNat ++ '.' :: ds.drop point.toNat
    else if -5 < point ∧ point ≤ 0 then '0' :: '.' :: zeros (-point) ++ ds
    else
      (if ds.length = 1 then ds else ds.take 1 ++ '.' :: ds.drop 1) ++ 'e' :: intText (point - 1)

end Decimal

end Scaffold
