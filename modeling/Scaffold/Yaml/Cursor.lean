import Scaffold.Text

/-!
A place in a YAML text, the character classes that matter there, and the folding of line breaks.
-/

namespace Scaffold.Yaml

def isBreak (c : Char) : Bool :=
  c == '\n' || c == '\r' || c == '\u0085' || c == '\u2028' || c == '\u2029'

def isBlank (c : Char) : Bool := c == ' ' || c == '\t'

/-- The characters a text may consist of. -/
def isAllowed (c : Char) : Bool :=
  let n := c.toNat
  n == 0x09 || n == 0x0A || n == 0x0D || (0x20 ≤ n && n ≤ 0x7E) || n == 0x85 ||
    (0xA0 ≤ n && n ≤ 0xD7FF) || (0xE000 ≤ n && n ≤ 0xFFFD) || 0x10000 ≤ n

/-- Characters of anchors, directive names and tag handles. -/
def isWordChar (c : Char) : Bool := c.isAlphanum || c == '_' || c == '-'

/-- A blank, a line break or the end of the text. -/
def isGap : Option Char → Bool
  | some c => isBlank c || isBreak c
  | none => true

structure Cursor where
  rest : Text
  /-- Characters read so far. -/
  index : Nat
  line : Nat
  column : Nat

namespace Cursor

def start (t : Text) : Cursor := ⟨t, 0, 0, 0⟩

def peek (c : Cursor) : Option Char := c.rest.head?

def peekAt (c : Cursor) (n : Nat) : Option Char := c.rest[n]?

/-- Passes over characters of one line. -/
def skip (c : Cursor) (n : Nat) : Cursor :=
  ⟨c.rest.drop n, c.index + n, c.line, c.column + n⟩

/-- Passes over one line break; a carriage return and a newline are one. -/
def skipBreak (c : Cursor) : Cursor :=
  match c.rest with
  | '\r' :: '\n' :: t => ⟨t, c.index + 2, c.line + 1, 0⟩
  | _ :: t => ⟨t, c.index + 1, c.line + 1, 0⟩
  | [] => c

/-- What a line break stands for: a newline, unless it separates lines or paragraphs. -/
def breakText (c : Cursor) : Text :=
  match c.peek with
  | some '\u2028' => ['\u2028']
  | some '\u2029' => ['\u2029']
  | _ => ['\n']

def isAtBreak (c : Cursor) : Bool := c.peek.any isBreak

def isAtBlank (c : Cursor) : Bool := c.peek.any isBlank

def isAtGap (c : Cursor) : Bool := isGap c.peek

/-- The characters from here on that satisfy a condition, none of them a line break. -/
def takeWhile (c : Cursor) (p : Char → Bool) : Text × Cursor :=
  let word := c.rest.takeWhile p
  (word, c.skip word.length)

def skipWhile (c : Cursor) (p : Char → Bool) : Cursor := (c.takeWhile p).2

/-- Whether a document starts or ends here. -/
def isAtMarker (c : Cursor) : Bool :=
  c.column = 0 && (c.rest.take 3 = ['-', '-', '-'] || c.rest.take 3 = ['.', '.', '.']) &&
    isGap (c.peekAt 3)

end Cursor

/-- Blanks and line breaks between two words of a scalar. -/
structure Gap where
  /-- Set once a line has ended. -/
  broken : Bool
  blanks : Text
  firstBreak : Text
  laterBreaks : Text

namespace Gap

def empty : Gap := ⟨false, [], [], []⟩

/-- What the gap stands for: its blanks on one line, a space for one newline, and the further
breaks for several. -/
def fold (g : Gap) : Text :=
  if !g.broken then g.blanks
  else if g.firstBreak = ['\n'] then (if g.laterBreaks.isEmpty then [' '] else g.laterBreaks)
  else g.firstBreak ++ g.laterBreaks

/-- Reads on through blanks and line breaks. After a break, a tab to the left of `indent` is
refused. -/
def read? (indent : Nat) : Nat → Gap → Cursor → Option (Gap × Cursor)
  | 0, g, c => some (g, c)
  | fuel + 1, g, c =>
    match c.peek with
    | none => some (g, c)
    | some ch =>
      if isBlank ch then
        if g.broken then
          if ch = '\t' ∧ c.column < indent then none else read? indent fuel g (c.skip 1)
        else read? indent fuel { g with blanks := g.blanks ++ [ch] } (c.skip 1)
      else if isBreak ch then
        if g.broken then
          read? indent fuel { g with laterBreaks := g.laterBreaks ++ c.breakText } c.skipBreak
        else
          read? indent fuel ⟨true, [], c.breakText, g.laterBreaks⟩ c.skipBreak
      else some (g, c)

end Gap

end Scaffold.Yaml
