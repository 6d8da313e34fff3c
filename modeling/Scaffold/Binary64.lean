import Scaffold.Decimal

/-!
Double precision numbers as exact values: the nearest one to a decimal, and the shortest decimal
that is nearest to one. All arithmetic is exact, on naturals.
-/

namespace Scaffold

/-- A finite value is `± mantissa · 2 ^ exponent` with a mantissa of 53 bits and the least exponent
from `-1074` on that this allows. -/
inductive Binary64 where
  | finite (negative : Bool) (mantissa : Nat) (exponent : Int)
  | infinite (negative : Bool)
  | nan
  deriving DecidableEq, Repr

namespace Binary64

/-- Mantissas lie below this power of two. -/
def mantissaBound : Nat := 9007199254740992

/-- `num / den` in units of `base ^ e`, again as a fraction. -/
def inUnits (num den base : Nat) (e : Int) : Nat × Nat :=
  if 0 ≤ e then (num, den * Nat.pow base e.toNat) else (num * Nat.pow base (-e).toNat, den)

/-- The natural number nearest to `num / den`; the even one of two. -/
def roundHalfEven (num den : Nat) : Nat :=
  let n := num / den
  let twice := 2 * (num % den)
  if twice > den ∨ (twice = den ∧ n % 2 = 1) then n + 1 else n

/-- The double nearest to the positive fraction `num / den`. -/
def ofFraction (negative : Bool) (num den : Nat) : Binary64 :=
  let log : Int := num.log2 - den.log2
  let low := max (log - 53) (-1074)
  let (a, b) := inUnits num den 2 low
  let e := if a / b < mantissaBound then low else low + 1
  let (a, b) := inUnits num den 2 e
  let m := roundHalfEven a b
  let (m, e) := if m = mantissaBound then (mantissaBound / 2, e + 1) else (m, e)
  if 971 < e then .infinite negative else .finite negative m e

/-- The nearest double, with the even mantissa where two are equally near. Magnitudes outside of
what doubles reach are settled by the count of digits alone. -/
def ofDecimal (d : Decimal) : Binary64 :=
  let magnitude : Int := (Decimal.digitText d.digits).length + d.scale
  if d.digits = 0 ∨ magnitude < -330 then .finite d.negative 0 (-1074)
  else if 330 < magnitude then .infinite d.negative
  else
    let (num, den) := inUnits d.digits 1 10 (-d.scale)
    ofFraction d.negative num den

/-- How the two nearest decimals are told apart when both are equally near. -/
inductive Tie where
  | up
  | even
  deriving DecidableEq, Repr

/-- The multiple of `10 ^ k` that is nearest to `m · 2 ^ q` among those that read back as it. The
numbers that do lie between the midpoints to the neighbouring doubles, and the midpoints belong to
them when `m` is even. -/
def onGrid? (tie : Tie) (m : Nat) (q k : Int) : Option Nat :=
  let unit : Nat × Nat := inUnits (Nat.pow 2 q.toNat) (Nat.pow 2 (-q).toNat) 10 k
  let below : Nat := if m = mantissaBound / 2 ∧ -1074 < q then 1 else 2
  let inside (n : Nat) : Bool :=
    let x := 4 * n * unit.2
    let low := (4 * m - below) * unit.1
    let high := (4 * m + 2) * unit.1
    if m % 2 = 0 then low ≤ x ∧ x ≤ high else low < x ∧ x < high
  let n := m * unit.1 / unit.2
  let twice := 2 * (m * unit.1 % unit.2)
  match inside n, inside (n + 1) with
  | true, true =>
    if twice < unit.2 then some n
    else if unit.2 < twice then some (n + 1)
    else if tie = .even ∧ n % 2 = 0 then some n
    else some (n + 1)
  | true, false => some n
  | false, true => some (n + 1)
  | false, false => none

/-- The first of `count` grids, from `10 ^ k` downwards, that has a decimal reading back. -/
def firstGrid (tie : Tie) (m : Nat) (q : Int) : Nat → Int → Nat × Int
  | 0, k => (0, k)
  | count + 1, k =>
    match onGrid? tie m q k with
    | some n => (n, k)
    | none => firstGrid tie m q count (k - 1)

/-- The decimal with the fewest digits that reads back as `± m · 2 ^ q`, and of those the nearest.
The coarsest grid tried lies above the number, the finest has more than seventeen digits of it. -/
def shortest (tie : Tie) (negative : Bool) (m : Nat) (q : Int) : Decimal :=
  if m = 0 then ⟨negative, 0, 0⟩
  else
    let k := ((m.log2 : Int) + q + 1) * 30103 / 100000 + 1
    let (n, k) := firstGrid tie m q 24 k
    ⟨negative, n, k⟩

/-- Positional text with the fewest digits that read back; a half goes up. -/
def text : Binary64 → Text
  | .finite negative m q => (shortest .up negative m q).plain
  | .infinite true => ['-', 'i', 'n', 'f']
  | .infinite false => ['i', 'n', 'f']
  | .nan => ['N', 'a', 'N']

/-- Reads what `text` writes, and every other decimal. Nothing in a template is read this way, for
numbers among its arguments are numerals (`Value.ofNumber`): it is for those who call filters and
helpers themselves, with arguments that they have as texts. -/
def read? (t : Text) : Option Binary64 :=
  if t = ['N', 'a', 'N'] then some .nan
  else if t = ['i', 'n', 'f'] then some (.infinite false)
  else if t = ['-', 'i', 'n', 'f'] then some (.infinite true)
  else (Decimal.read? t).map ofDecimal

end Binary64

end Scaffold
