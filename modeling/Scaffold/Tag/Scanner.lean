import Scaffold.Tag.Quoted
import Scaffold.Tag.Token

/-!
The scanner for `{? … ?}` tags, one character at a time. A character that has no place in the tag
being read abandons that tag; its text stays ordinary content.
-/

namespace Scaffold

def isNameStart (c : Char) : Bool := c.isAlpha

def isNameChar (c : Char) : Bool := c.isAlphanum || c == '_' || c == '-'

/-- What has been read of the tag at hand. -/
inductive ScanState where
  /-- Outside of tags; `brace` tells whether an opening brace was read last. -/
  | content (brace : Bool)
  | opened
  | key (name : Text)
  | defaultOpened
  | default (literal : Quoted)
  | defaultClosed
  | filter (name : Text)
  | argumentsOpened
  | string (literal : Quoted)
  | number (text : Text)
  | variable (name : Text)
  | argumentClosed
  | argumentsClosed
  /-- Waiting for the end; `question` tells whether a question mark was read last. -/
  | closing (question : Bool)
  deriving DecidableEq, Repr

inductive ScanStep where
  | next (state : ScanState) (token : Option Token)
  /-- The character completed the tag. -/
  | close
  | abandon
  deriving DecidableEq, Repr

namespace ScanState

def go (s : ScanState) : ScanStep := .next s none

def emit (s : ScanState) (t : Token) : ScanStep := .next s (some t)

/-- What may follow a complete part of a tag: a filter, blanks or the end. -/
def afterPart (c : Char) (token : Option Token) : ScanStep :=
  if c = '.' then .next (.filter []) token
  else if c = '?' then .next (.closing true) token
  else if Text.isBlank c then .next (.closing false) token
  else .abandon

/-- What may follow a number or a variable. -/
def afterWord (c : Char) (arg : Argument) : ScanStep :=
  if c = ')' then emit .argumentsClosed (.argument arg)
  else if c = ',' then emit .argumentsOpened (.argument arg)
  else if Text.isBlank c then emit .argumentClosed (.argument arg)
  else .abandon

def step (state : ScanState) (c : Char) : ScanStep :=
  match state with
  | .content brace => if brace ∧ c = '?' then emit .opened .opening else go (.content (c = '{'))
  | .opened =>
    if Text.isBlank c then go .opened
    else if isNameStart c then go (.key [c])
    else .abandon
  | .key name =>
    if isNameChar c then go (.key (name ++ [c]))
    else if c = '[' then emit .defaultOpened (.key .parameter name)
    else if c = '(' then emit .argumentsOpened (.key .helper name)
    else afterPart c (some (.key .parameter name))
  | .defaultOpened => if c = '"' then go (.default .empty) else .abandon
  | .default literal =>
    match literal.push c with
    | .inl text => emit .defaultClosed (.default text)
    | .inr literal => go (.default literal)
  | .defaultClosed => if c = ']' then go .defaultClosed else afterPart c none
  | .filter [] => if isNameStart c then go (.filter [c]) else .abandon
  | .filter name =>
    if isNameChar c then go (.filter (name ++ [c]))
    else if c = '(' then emit .argumentsOpened (.filter name)
    else afterPart c (some (.filter name))
  | .argumentsOpened =>
    if Text.isBlank c then go .argumentsOpened
    else if c = '"' then go (.string .empty)
    else if c.isDigit then go (.number [c])
    else if isNameStart c then go (.variable [c])
    else if c = ')' then go .argumentsClosed
    else .abandon
  | .string literal =>
    match literal.push c with
    | .inl text => emit .argumentClosed (.argument (.string text))
    | .inr literal => go (.string literal)
  | .number text =>
    if c.isDigit ∨ (c = '.' ∧ '.' ∉ text) then go (.number (text ++ [c]))
    else afterWord c (.number text)
  | .variable name =>
    if isNameChar c then go (.variable (name ++ [c])) else afterWord c (.variable name)
  | .argumentClosed =>
    if Text.isBlank c then go .argumentClosed
    else if c = ',' then go .argumentsOpened
    else if c = ')' then go .argumentsClosed
    else .abandon
  | .argumentsClosed => afterPart c none
  | .closing question =>
    if c = '}' ∧ question then .close
    else if c = '?' then go (.closing true)
    else if Text.isBlank c then go (.closing false)
    else .abandon

end ScanState

/-- One well-formed tag: its tokens, its text and the bytes of the source from `start` up to, but
not including, `stop` that the text stands on. -/
structure Tag where
  tokens : List Token
  code : Text
  start : Nat
  stop : Nat
  deriving DecidableEq, Repr

/-- The scanner between two characters: its state, the bytes read so far, and the tokens and the
text of the tag at hand. -/
structure Scan where
  state : ScanState
  offset : Nat
  tokens : List Token
  code : Text
  deriving DecidableEq, Repr

namespace Scan

def start (state : ScanState) : Scan := ⟨state, 0, [], []⟩

/-- Reads one character. The character that abandons a tag may itself be the brace that opens the
next one. -/
def advance (s : Scan) (c : Char) : Scan × Option Tag :=
  let offset := s.offset + c.utf8Size
  match s.state.step c with
  | .next (.content brace) _ => (⟨.content brace, offset, [], []⟩, none)
  | .next state (some .opening) => (⟨state, offset, [.opening], ['{', c]⟩, none)
  | .next state token => (⟨state, offset, s.tokens ++ token.toList, s.code ++ [c]⟩, none)
  | .close =>
    let code := s.code ++ [c]
    (⟨.content false, offset, [], []⟩,
      some ⟨s.tokens ++ [.closing], code, offset - Text.bytes code, offset⟩)
  | .abandon => (⟨.content (c = '{'), offset, [], []⟩, none)

def run (s : Scan) : Text → List Tag
  | [] => []
  | c :: t =>
    let (s, tag) := s.advance c
    tag.toList ++ s.run t

end Scan

namespace Tag

/-- The well-formed tags of a source in their order. -/
def scan (source : Text) : List Tag := (Scan.start (.content false)).run source

end Tag

end Scaffold
