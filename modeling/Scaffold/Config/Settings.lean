import Scaffold.Word
import Scaffold.Yaml.Node
import Scaffold.Yaml.Schema

/-!
The settings of a configuration file: the fields of the one mapping that a YAML text consists of.
Plain scalars are read by the core schema, with integers of 64 bits.
-/

namespace Scaffold.Settings

open Yaml (Node)

private def int64? (n : Int) : Option Int := if isInt64 n then some n else none

private def unsigned? (t : Text) : Option Int :=
  if t ≠ [] ∧ t.all Char.isDigit then some (Decimal.ofDigits t) else none

private def decimal? : Text → Option Int
  | '-' :: t => (unsigned? t).bind fun n => int64? (-n)
  | '+' :: t => (unsigned? t).bind int64?
  | t => (unsigned? t).bind int64?

private def ofBase? (base : Nat) (t : Text) : Option Int :=
  let negative := t.head? = some '-'
  let ds := if t.head? = some '-' ∨ t.head? = some '+' then t.tail else t
  if ds.isEmpty then none
  else do
    let n ← ds.foldlM (fun n c =>
      (Yaml.hexValue? c).bind fun v => if v < base then some (base * n + v) else none) 0
    int64? (if negative then -(n : Int) else n)

private def int? (t : Text) : Option Int :=
  let marked := match t with
    | '0' :: 'x' :: t => ofBase? 16 t
    | '0' :: 'o' :: t => ofBase? 8 t
    | '+' :: t => decimal? t
    | _ => none
  marked <|> decimal? t

/-- Infinities and the missing number have names that are no numbers to a setting. -/
private def isNonFinite (t : Text) : Bool :=
  [".inf", ".Inf", ".INF", "+.inf", "+.Inf", "+.INF", "-.inf", "-.Inf", "-.INF", ".nan", ".NaN",
    ".NAN"].any (·.toList == t)

private def float? (t : Text) : Option Binary64 :=
  if t.any Char.isDigit then (Decimal.read? t).map Binary64.ofDecimal else none

/-- The value of a plain scalar without a tag. -/
def plain? (t : Text) : Option Data :=
  if t.isEmpty || t == ['~'] || t == "null".toList then some .null
  else if t == "true".toList then some (.bool true)
  else if t == "false".toList then some (.bool false)
  else match int? t with
    | some n => some (.int n)
    | none =>
      if isNonFinite t then none
      else match float? t with
        | some x => some (.float x)
        | none => some (.text t)

/-- The value of a scalar. A plain scalar that is not what its tag says has no value. -/
def scalar? (tag : Option Text) (isPlain : Bool) (t : Text) : Option Data :=
  if !isPlain then some (.text t)
  else match tag with
    | none => plain? t
    | some tag =>
      if tag = "tag:yaml.org,2002:bool".toList then
        some (((Yaml.bool? t).map .bool).getD .null)
      else if tag = "tag:yaml.org,2002:int".toList then some (((decimal? t).map .int).getD .null)
      else if tag = "tag:yaml.org,2002:float".toList then
        if isNonFinite t then none else some (((float? t).map .float).getD .null)
      else if tag = "tag:yaml.org,2002:null".toList then some .null
      else some (.text t)

private def note (anchor : Option Text) (d : Data) (seen : Bindings Data) : Bindings Data :=
  match anchor with
  | some name => seen.insert name d
  | none => seen

/-- The name of a field; only scalars have one. -/
def nameOf? : Data → Option Text
  | .text t => some t
  | .int n => some (Decimal.intText n)
  | .bool true => some "true".toList
  | .bool false => some "false".toList
  | .float x => some x.text
  | .null | .list _ | .object _ => none

mutual

/-- The value of a node, and the values of the anchors up to its end. An alias stands for the
value of an anchor before it. -/
private def data? (seen : Bindings Data) : Node Text → Option (Data × Bindings Data)
  | .alias name => (seen.get? name).map (·, seen)
  | .scalar anchor tag isPlain text => do
    let d ← scalar? tag isPlain text
    pure (d, note anchor d seen)
  | .sequence anchor _ items => do
    let (ds, seen) ← items? seen items
    pure (.list ds, note anchor (.list ds) seen)
  | .mapping anchor _ pairs => do
    let (fields, seen) ← fields? [] seen pairs
    let d := Data.object (Bindings.ofPairs fields)
    pure (d, note anchor d seen)

private def items? (seen : Bindings Data) : List (Node Text) → Option (List Data × Bindings Data)
  | [] => some ([], seen)
  | n :: ns => do
    let (d, seen) ← data? seen n
    let (ds, seen) ← items? seen ns
    pure (d :: ds, seen)

/-- No key may occur twice. -/
private def fields? (keys : List Data) (seen : Bindings Data) :
    List (Node Text × Node Text) → Option (List (Text × Data) × Bindings Data)
  | [] => some ([], seen)
  | (k, v) :: ps => do
    let (key, seen) ← data? seen k
    let (d, seen) ← data? seen v
    let name ← nameOf? key
    if keys.contains key then none
    let (fields, seen) ← fields? (key :: keys) seen ps
    pure ((name, d) :: fields, seen)

end

/-- The fields of the only document; a text without any document has none. -/
def ofText? (t : Text) : Option (Bindings Data) := do
  match ← Node.ofText? t with
  | [] => pure []
  | [n] =>
    match ← data? [] n with
    | (.object fields, _) => pure fields
    | _ => none
  | _ => none

end Scaffold.Settings
