import Scaffold.Bindings
import Scaffold.Binary64

/-!
Option values: scalars, lists and objects, and their compact one-line text.
-/

namespace Scaffold

/-- An object's fields are in ascending order of their names, each name once. -/
inductive Data where
  | null
  | bool (b : Bool)
  | int (n : Int)
  | float (x : Binary64)
  | text (t : Text)
  | list (items : List Data)
  | object (fields : List (Text × Data))
  deriving BEq, Repr

namespace Data

/-- Infinities and the missing number are no option values. -/
def ofFloat : Binary64 → Data
  | .finite negative m q => .float (.finite negative m q)
  | .infinite _ | .nan => .null

/-- Digits of a double in its compact form; of two nearest decimals the even one is taken. -/
def floatText : Binary64 → Text
  | .finite negative m q => (Binary64.shortest .even negative m q).compact
  | .infinite true => "-inf".toList
  | .infinite false => "inf".toList
  | .nan => "nan".toList

def hexDigit (n : Nat) : Char := (Nat.toDigits 16 (n % 16)).headD '0'

private def escapeChar (c : Char) : Text :=
  if c = '"' then ['\\', '"']
  else if c = '\\' then ['\\', '\\']
  else if c = '\n' then ['\\', 'n']
  else if c = '\r' then ['\\', 'r']
  else if c = '\t' then ['\\', 't']
  else if c = '\x08' then ['\\', 'b']
  else if c = '\x0c' then ['\\', 'f']
  else if c.toNat < 0x20 then ['\\', 'u', '0', '0', hexDigit (c.toNat / 16), hexDigit c.toNat]
  else [c]

private def quoted (t : Text) : Text := '"' :: t.flatMap escapeChar ++ ['"']

mutual

/-- The value on one line, without blanks. -/
def compact : Data → Text
  | .null => "null".toList
  | .bool true => "true".toList
  | .bool false => "false".toList
  | .int n => Decimal.intText n
  | .float x => floatText x
  | .text t => quoted t
  | .list items => '[' :: compactItems items ++ [']']
  | .object fields => '{' :: compactFields fields ++ ['}']

private def compactItems : List Data → Text
  | [] => []
  | [d] => compact d
  | d :: ds => compact d ++ ',' :: compactItems ds

private def compactFields : List (Text × Data) → Text
  | [] => []
  | [(name, d)] => quoted name ++ ':' :: compact d
  | (name, d) :: ds => quoted name ++ ':' :: compact d ++ ',' :: compactFields ds

end

end Data

end Scaffold
