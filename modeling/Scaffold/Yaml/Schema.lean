import Scaffold.Data
import Scaffold.Word

/-!
What plain scalars stand for: nothing, a truth value, a number, or their own text.
-/

namespace Scaffold.Yaml

def isNull (t : Text) : Bool :=
  ["null", "Null", "NULL", "~"].any (·.toList == t)

def bool? (t : Text) : Option Bool :=
  if ["true", "True", "TRUE"].any (·.toList == t) then some true
  else if ["false", "False", "FALSE"].any (·.toList == t) then some false
  else none

def digitOfBase? (base : Nat) (c : Char) : Option Nat :=
  let n :=
    if c.isDigit then c.toNat - 48
    else if 'a' ≤ c ∧ c ≤ 'f' then c.toNat - 87
    else if 'A' ≤ c ∧ c ≤ 'F' then c.toNat - 55
    else base
  if n < base then some n else none

/-- Value of one or more digits and nothing else. -/
def natOfBase? (base : Nat) (t : Text) : Option Nat :=
  if t.isEmpty then none
  else t.foldlM (fun n c => (digitOfBase? base c).map (base * n + ·)) 0

/-- Digits with a zero too many in front are a text, with or without a sign. -/
def isPaddedNumber (t : Text) : Bool :=
  let ds := match t with
    | '+' :: t | '-' :: t => t
    | t => t
  1 < ds.length && ds.head? == some '0' && ds.all Char.isDigit

def stripPlus : Text → Text
  | '+' :: t => t
  | t => t

/-- Digits with a mark of their base in front, or decimal ones. -/
def magnitude? (t : Text) : Option Nat :=
  let marked := match t with
    | '0' :: 'x' :: t => natOfBase? 16 t
    | '0' :: 'o' :: t => natOfBase? 8 t
    | '0' :: 'b' :: t => natOfBase? 2 t
    | _ => none
  match marked with
  | some n => some n
  | none => natOfBase? 10 t

def int128Bound : Nat := Nat.pow 2 127

/-- An integer of any size that fits into 128 bits. -/
def int? (t : Text) : Option Int :=
  match t with
  | '-' :: ds =>
    if isPaddedNumber t then none
    else (magnitude? ds).bind fun n => if n ≤ int128Bound then some (-(n : Int)) else none
  | t =>
    if isPaddedNumber t then none
    else (magnitude? (stripPlus t)).bind fun n => if n < 2 * int128Bound then some (n : Int) else none

def float? (t : Text) : Option Binary64 :=
  let unsigned := stripPlus t
  if t.head? = some '+' ∧ (unsigned.head? = some '+' ∨ unsigned.head? = some '-') then none
  else if [".inf", ".Inf", ".INF"].any (·.toList == unsigned) then some (.infinite false)
  else if ["-.inf", "-.Inf", "-.INF"].any (·.toList == t) then some (.infinite true)
  else if [".nan", ".NaN", ".NAN"].any (·.toList == t) then some .nan
  else match (Decimal.read? unsigned).map Binary64.ofDecimal with
    | some (.finite negative m q) => some (.finite negative m q)
    | _ => none

/-- Integers are those of 64 bits; larger ones are refused. -/
def dataOfInt? (n : Int) : Option Data :=
  if isInt64 n || isUnsigned64 n then some (.int n) else none

/-- The value of a plain scalar; `none` for an integer out of range. -/
def plainData? (t : Text) : Option Data :=
  if t.isEmpty || isNull t then some .null
  else match bool? t with
    | some b => some (.bool b)
    | none =>
      match int? t with
      | some n => dataOfInt? n
      | none =>
        if isPaddedNumber t then some (.text t)
        else match float? t with
          | some x => some (.ofFloat x)
          | none => some (.text t)

/-- The value of a scalar. The tags for truth values, numbers and nothing demand that the text is
one; a tag of the document's own making is refused; any other makes it a text. -/
def scalarData? (tag : Option Text) (isPlain : Bool) (t : Text) : Option Data :=
  match tag with
  | none => if isPlain then plainData? t else some (.text t)
  | some tag =>
    if tag.head? = some '!' then none
    else if tag = "tag:yaml.org,2002:bool".toList then (bool? t).map .bool
    else if tag = "tag:yaml.org,2002:int".toList then (int? t).bind dataOfInt?
    else if tag = "tag:yaml.org,2002:float".toList then (float? t).map .ofFloat
    else if tag = "tag:yaml.org,2002:null".toList then if isNull t then some .null else none
    else some (.text t)

end Scaffold.Yaml
