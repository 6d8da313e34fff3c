import Scaffold.Yaml.Scalar
import Scaffold.Yaml.Schema

/-!
The YAML text of option values, in block style. Each scalar gets the first style that its text
admits: a text with newlines is a literal or stands in double quotes, any other is plain or in
single quotes, or in double quotes if it has characters that only an escape can write.
-/

namespace Scaffold.Yaml.Printer

def endsWord (c : Char) : Bool := isBlank c || isBreak c || c == '\x00'

/-- Characters that stand for themselves in every style. -/
def isPrintable (c : Char) : Bool :=
  let n := c.toNat
  n == 0x0A || (0x20 ≤ n && n ≤ 0x7E) || (0xA0 ≤ n && n ≤ 0xFFFD && n != 0xFEFF) || 0x10000 ≤ n

/-- Whether a character of the first kind stands directly before one of the second. -/
def meet (p q : Char → Bool) (t : Text) : Bool :=
  (t.zip t.tail).any fun (a, b) => p a && q b

def isSpace (c : Char) : Bool := c == ' '

def writable (t : Text) : Bool := t.all isPrintable && !meet isSpace isBreak t

def admitsLiteral (t : Text) : Bool := writable t && t.getLast? != some ' '

def admitsSingleQuotes (t : Text) : Bool := writable t && !meet isBreak isSpace t

/-- Whether a word of the text ends in a colon or starts with a number sign. -/
def hasMark (wordStarts : Bool) : Text → Bool
  | [] => false
  | c :: t =>
    (c == ':' && t.head?.all endsWord) || (c == '#' && wordStarts) || hasMark (endsWord c) t

def startsAsMarkup (t : Text) : Bool :=
  t.head?.any (",[]\x7b\x7d&*!|>'\"%@\x60".toList.contains ·) ||
    (t.head?.any (fun c => c == '?' || c == '-') && t.tail.head?.all endsWord) ||
    "---".toList.isPrefixOf t || "...".toList.isPrefixOf t

def admitsPlain (t : Text) : Bool :=
  admitsSingleQuotes t && !t.any isBreak && t.head? != some ' ' && t.getLast? != some ' ' &&
    !startsAsMarkup t && !hasMark true t

/-- Whether a plain scalar of this text would stand for the text itself. -/
def readsAsText (t : Text) : Bool :=
  match plainData? t with
  | some (.text _) => !isPaddedNumber t
  | _ => false

inductive Style where
  | plain
  | singleQuoted
  | doubleQuoted
  | literal
  deriving DecidableEq, Repr

def Style.of (t : Text) : Style :=
  if '\n' ∈ t then if admitsLiteral t then .literal else .doubleQuoted
  else if readsAsText t && admitsPlain t then .plain
  else if admitsSingleQuotes t then .singleQuoted
  else .doubleQuoted

def hexText (width n : Nat) : Text :=
  (List.range width).reverse.map fun i => (Data.hexDigit (n / Nat.pow 16 i)).toUpper

def escaped (c : Char) : Text :=
  if isPrintable c && !isBreak c && c != '"' && c != '\\' then [c]
  else match escapes.find? (·.2 == c) with
    | some (name, _) => ['\\', name]
    | none =>
      if c.toNat < 0x100 then '\\' :: 'x' :: hexText 2 c.toNat
      else if c.toNat < 0x10000 then '\\' :: 'u' :: hexText 4 c.toNat
      else '\\' :: 'U' :: hexText 8 c.toNat

/-- How the end of a literal tells what to do with the newlines there. -/
def chompMark (t : Text) : Text :=
  match t.reverse with
  | [_] => ['+']
  | c :: d :: _ => if !isBreak c then ['-'] else if isBreak d then ['+'] else []
  | [] => ['-']

def indentMark (t : Text) : Text :=
  if t.head?.any fun c => c == ' ' || isBreak c then ['2'] else []

/-- The text of a scalar; lines behind its first one are not yet indented. -/
def scalar (t : Text) : Text :=
  match Style.of t with
  | .plain => t
  | .singleQuoted => '\'' :: t.flatMap (fun c => if c = '\'' then ['\'', '\''] else [c]) ++ ['\'']
  | .doubleQuoted => '"' :: t.flatMap escaped ++ ['"']
  | .literal => '|' :: indentMark t ++ chompMark t ++ '\n' :: t

/-- Puts two blanks in front of each line that is not empty, the first one only if `atStart`. -/
def indent (atStart : Bool) : Text → Text
  | [] => []
  | c :: t =>
    if atStart && !isBreak c then ' ' :: ' ' :: c :: indent false t else c :: indent (isBreak c) t

def endLine (t : Text) : Text := if t.getLast?.any isBreak then t else t ++ ['\n']

/-- A key of more than one line or more than 128 bytes needs a mark of its own. -/
def isSimpleKey (key : Text) : Bool := !key.any isBreak && Text.bytes key ≤ 128

/-- A value on the line of its key, or on lines of their own: `nested` is the block of a value
that has one. -/
def entry (key : Text) (value : Data) (nested : Text) : Text :=
  if isSimpleKey key then
    scalar key ++ ':' ::
      match value with
      | .list (_ :: _) => '\n' :: nested
      | .object (_ :: _) => '\n' :: indent true nested
      | _ => ' ' :: indent false nested
  else
    '?' :: ' ' :: endLine (indent false (scalar key)) ++ ':' :: ' ' :: indent false nested

mutual

/-- The lines of a value, from the left margin on. -/
def block : Data → Text
  | .null => "null\n".toList
  | .bool true => "true\n".toList
  | .bool false => "false\n".toList
  | .int n => Decimal.intText n ++ ['\n']
  | .float x => Data.floatText x ++ ['\n']
  | .text t => endLine (scalar t)
  | .list [] => "[]\n".toList
  | .list items => blockItems items
  | .object [] => "\x7b\x7d\n".toList
  | .object fields => blockFields fields

def blockItems : List Data → Text
  | [] => []
  | d :: ds => '-' :: ' ' :: indent false (block d) ++ blockItems ds

def blockFields : List (Text × Data) → Text
  | [] => []
  | (key, d) :: ds => entry key d (block d) ++ blockFields ds

end

end Scaffold.Yaml.Printer
