import Scaffold.Data
import Scaffold.Word

/-!
The single words of a TOML document: blanks and comments, keys, strings, numbers and dates. A
reader takes what it can from the head of a text and returns the rest.
-/

namespace Scaffold.Toml

abbrev Reader (α : Type) := Text → Option (α × Text)

def isWs (c : Char) : Bool := c == ' ' || c == '\t'

def skipWs (t : Text) : Text := t.dropWhile isWs

/-- A line ends with a newline, or with a carriage return and a newline. -/
def newline? : Text → Option Text
  | '\n' :: t => some t
  | '\r' :: '\n' :: t => some t
  | _ => none

def isControl (c : Char) : Bool := (c.toNat < 0x20 && c != '\t') || c.toNat == 0x7F

/-- Passes over a comment, if there is one, up to the first character that cannot be in it. -/
def skipComment : Text → Text
  | '#' :: t => t.dropWhile (!isControl ·)
  | t => t

/-- What follows the end of the line; before it only blanks and a comment may stand. -/
def endOfLine? (t : Text) : Option Text :=
  match skipComment (skipWs t) with
  | [] => some []
  | t => newline? t

/-- Passes over blanks, comments and line ends. -/
def skipLines : Nat → Text → Text
  | 0, t => t
  | fuel + 1, t =>
    match newline? (skipComment (skipWs t)) with
    | some t => skipLines fuel t
    | none => skipWs t

/-- Passes over blanks and line ends. -/
def skipBlankLines : Nat → Text → Text
  | 0, t => t
  | fuel + 1, t =>
    match newline? (skipWs t) with
    | some t => skipBlankLines fuel t
    | none => skipWs t

def isBareKeyChar (c : Char) : Bool := c.isAlphanum || c == '_' || c == '-'

def hexValue? (c : Char) : Option Nat :=
  if c.isDigit then some (c.toNat - 48)
  else if 'a' ≤ c ∧ c ≤ 'f' then some (c.toNat - 87)
  else if 'A' ≤ c ∧ c ≤ 'F' then some (c.toNat - 55)
  else none

def ofHex? (t : Text) : Option Nat :=
  t.foldlM (fun n c => (hexValue? c).map (16 * n + ·)) 0

/-- The character with a code point that is written in hexadecimal. -/
def ofCodePoint? (t : Text) : Option Char := do
  let n ← ofHex? t
  if n.isValidChar then some (Char.ofNat n) else none

private def escapes : List (Char × Char) :=
  [('b', '\x08'), ('t', '\t'), ('n', '\n'), ('f', '\x0c'), ('r', '\r'), ('"', '"'), ('\\', '\\')]

/-- The character that is written after a backslash. -/
def escape? : Reader Char
  | 'u' :: a :: b :: c :: d :: t => (ofCodePoint? [a, b, c, d]).map (·, t)
  | 'U' :: a :: b :: c :: d :: e :: f :: g :: h :: t =>
    (ofCodePoint? [a, b, c, d, e, f, g, h]).map (·, t)
  | c :: t => (escapes.lookup c).map (·, t)
  | [] => none

/-- The rest of a string in double quotes on one line. -/
def basicString? : Nat → Reader Text
  | _, '"' :: t => some ([], t)
  | fuel + 1, '\\' :: t => do
    let (c, t) ← escape? t
    let (s, t) ← basicString? fuel t
    pure (c :: s, t)
  | fuel + 1, c :: t => do
    if isControl c then none
    let (s, t) ← basicString? fuel t
    pure (c :: s, t)
  | _, _ => none

/-- The rest of a string in single quotes on one line. -/
def literalString? : Reader Text
  | [] => none
  | c :: t =>
    if c = '\'' then some ([], t)
    else if isControl c then none
    else (literalString? t).map fun (s, t) => (c :: s, t)

/-- The rest of a string in three quotes of the kind given. Up to two further quotes may stand
directly before the closing ones. Only in double quotes a backslash has a meaning: before the end
of a line it swallows all blanks and line ends that follow. -/
def multilineString? (quote : Char) : Nat → Reader Text
  | 0, _ => none
  | fuel + 1, t =>
    match t with
    | [] => none
    | c :: t =>
      if c = quote then
        let quotes := (c :: t).takeWhile (· == quote)
        let n := min quotes.length 5
        if 3 ≤ n then some (quotes.take (n - 3), (c :: t).drop n)
        else (multilineString? quote fuel t).map fun (s, t) => (c :: s, t)
      else if c = '\\' ∧ quote = '"' then
        match newline? (skipWs t) with
        | some t => multilineString? quote fuel (skipBlankLines t.length t)
        | none => do
          let (e, t) ← escape? t
          let (s, t) ← multilineString? quote fuel t
          pure (e :: s, t)
      else match newline? (c :: t) with
        | some t => (multilineString? quote fuel t).map fun (s, t) => ('\n' :: s, t)
        | none =>
          if isControl c then none
          else (multilineString? quote fuel t).map fun (s, t) => (c :: s, t)

/-- A line end directly after the opening quotes does not count. -/
private def multiline? (quote : Char) (t : Text) : Option (Text × Text) :=
  multilineString? quote (t.length + 1) ((newline? t).getD t)

def string? : Reader Text
  | '"' :: '"' :: '"' :: t => multiline? '"' t
  | '\'' :: '\'' :: '\'' :: t => multiline? '\'' t
  | '"' :: t => basicString? t.length t
  | '\'' :: t => literalString? t
  | _ => none

def simpleKey? : Reader Text
  | '"' :: t => basicString? t.length t
  | '\'' :: t => literalString? t
  | t =>
    let key := t.takeWhile isBareKeyChar
    if key.isEmpty then none else some (key, t.dropWhile isBareKeyChar)

/-- Arrays, inline tables and dotted keys have fewer levels than this. -/
def maxDepth : Nat := 80

private def keyParts? : Nat → Reader (List Text)
  | 0, _ => none
  | levels + 1, t => do
    let (part, t) ← simpleKey? (skipWs t)
    match skipWs t with
    | '.' :: t =>
      let (parts, t) ← keyParts? levels t
      pure (part :: parts, t)
    | t => pure ([part], t)

/-- A key of one or more parts with dots between them. -/
def key? : Reader (List Text) := keyParts? (maxDepth - 1)

/-! ## Numbers -/

/-- A run of digits; an underscore may stand between two of them and is left out. -/
def digits? (isDigit : Char → Bool) : Text → Option (Text × Text)
  | [] => none
  | c :: t => if isDigit c then some (more c t) else none
where
  more (c : Char) : Text → Text × Text
    | '_' :: d :: t =>
      if isDigit d then let (ds, t) := more d t; (c :: ds, t) else ([c], '_' :: d :: t)
    | d :: t => if isDigit d then let (ds, t) := more d t; (c :: ds, t) else ([c], d :: t)
    | [] => ([c], [])

def sign : Text → Text × Text
  | '+' :: t => (['+'], t)
  | '-' :: t => (['-'], t)
  | t => ([], t)

/-- Digits without a leading zero, and the rest. -/
private def wholePart? : Reader Text
  | '0' :: t => some (['0'], t)
  | t => digits? Char.isDigit t

private def exponent? : Reader Text
  | e :: t =>
    if e = 'e' ∨ e = 'E' then do
      let (s, t) := sign t
      let (ds, t) ← digits? Char.isDigit t
      pure ('e' :: s ++ ds, t)
    else none
  | [] => none

private def fraction? : Reader Text
  | '.' :: t => (digits? Char.isDigit t).map fun (ds, t) => ('.' :: ds, t)
  | _ => none

/-- A number with a fraction, an exponent or both. Values above all doubles are refused; those
below all doubles are not, and become negative infinity. -/
def float? (t : Text) : Option (Data × Text) := do
  let (s, t) := sign t
  let (whole, t) ← wholePart? t
  let (tail, t) ←
    match fraction? t with
    | some (f, t) =>
      match exponent? t with
      | some (e, t) => pure (f ++ e, t)
      | none => pure (f, t)
    | none => exponent? t
  let d ← Decimal.read? (s ++ whole ++ tail)
  let x := Binary64.ofDecimal d
  if x = .infinite false then none else pure (Data.ofFloat x, t)

/-- Infinity and the missing number. -/
def specialFloat? (t : Text) : Option (Data × Text) :=
  match (sign t).2 with
  | 'i' :: 'n' :: 'f' :: t => some (.null, t)
  | 'n' :: 'a' :: 'n' :: t => some (.null, t)
  | _ => none

private def ofBase (base : Nat) (t : Text) : Nat :=
  t.foldl (fun n c => base * n + (hexValue? c).getD 0) 0

def int? (n : Int) (t : Text) : Option (Data × Text) :=
  if isInt64 n then some (.int n, t) else none

def integer? : Text → Option (Data × Text)
  | '0' :: 'x' :: t => do
    let (ds, t) ← digits? (fun c => (hexValue? c).isSome) t
    int? (ofBase 16 ds) t
  | '0' :: 'o' :: t => do
    let (ds, t) ← digits? (fun c => '0' ≤ c ∧ c ≤ '7') t
    int? (ofBase 8 ds) t
  | '0' :: 'b' :: t => do
    let (ds, t) ← digits? (fun c => c = '0' ∨ c = '1') t
    int? (ofBase 2 ds) t
  | t => do
    let (s, t) := sign t
    let (ds, t) ← wholePart? t
    let n : Int := Decimal.ofDigits ds
    int? (if s = ['-'] then -n else n) t

/-! ## Dates -/

private def fixedDigits? (n : Nat) (t : Text) : Option (Text × Text) :=
  let ds := t.take n
  if ds.length = n ∧ ds.all Char.isDigit then some (ds, t.drop n) else none

private def bounded? (n low high : Nat) (t : Text) : Option (Text × Text) := do
  let (ds, t) ← fixedDigits? n t
  if low ≤ Decimal.ofDigits ds ∧ Decimal.ofDigits ds ≤ high then pure (ds, t) else none

private def char? (c : Char) : Text → Option Text
  | d :: t => if c = d then some t else none
  | [] => none

def daysInMonth (year month : Nat) : Nat :=
  if month = 2 then
    if year % 4 = 0 ∧ (year % 100 ≠ 0 ∨ year % 400 = 0) then 29 else 28
  else if month = 4 ∨ month = 6 ∨ month = 9 ∨ month = 11 then 30
  else 31

def date? (t : Text) : Option (Text × Text) := do
  let (y, t) ← fixedDigits? 4 t
  let t ← char? '-' t
  let (m, t) ← bounded? 2 1 12 t
  let t ← char? '-' t
  let (d, t) ← bounded? 2 1 (daysInMonth (Decimal.ofDigits y) (Decimal.ofDigits m)) t
  pure (y ++ '-' :: m ++ '-' :: d, t)

/-- Parts of a second, to nine places and without zeros at the end. -/
private def secondFraction : Text → Text × Text
  | '.' :: t =>
    let ds := t.takeWhile Char.isDigit
    if ds.isEmpty then ([], '.' :: t)
    else
      let kept := Text.trimEnd (· == '0') (ds.take 9)
      (if kept.isEmpty then [] else '.' :: kept, t.dropWhile Char.isDigit)
  | t => ([], t)

def time? (t : Text) : Option (Text × Text) := do
  let (h, t) ← bounded? 2 0 23 t
  let t ← char? ':' t
  let (m, t) ← bounded? 2 0 59 t
  let t ← char? ':' t
  let (s, t) ← bounded? 2 0 60 t
  let (f, t) := secondFraction t
  pure (h ++ ':' :: m ++ ':' :: s ++ f, t)

def offset? : Text → Option (Text × Text)
  | c :: t =>
    if c = 'Z' ∨ c = 'z' then some (['Z'], t)
    else if c = '+' ∨ c = '-' then do
      let (h, t) ← bounded? 2 0 23 t
      let t ← char? ':' t
      let (m, t) ← bounded? 2 0 59 t
      let sign := if Decimal.ofDigits h = 0 ∧ Decimal.ofDigits m = 0 then '+' else c
      pure (sign :: h ++ ':' :: m, t)
    else none
  | [] => none

private def timeAfterDate? : Text → Option (Text × Text)
  | c :: t =>
    if c = 'T' ∨ c = 't' ∨ c = ' ' then do
      let (time, t) ← time? t
      match offset? t with
      | some (o, t) => pure ('T' :: time ++ o, t)
      | none => pure ('T' :: time, t)
    else none
  | [] => none

/-- Dates and times have no kind of value of their own: one becomes an object with its text. -/
def dateTime? (t : Text) : Option (Data × Text) := do
  let (s, t) ←
    match date? t with
    | some (d, t) =>
      match timeAfterDate? t with
      | some (time, t) => pure (d ++ time, t)
      | none => pure (d, t)
    | none => time? t
  pure (.object [("$__toml_private_datetime".toList, .text s)], t)

end Scaffold.Toml
