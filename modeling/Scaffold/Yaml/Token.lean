import Scaffold.Yaml.Scalar

/-!
The tokens of a YAML text. Indentation shows as tokens for the start and the end of block
collections. A key without a mark of its own is known as one only by the colon behind it, so the
scanner remembers where the latest possible key began, for every level of brackets.
-/

namespace Scaffold.Yaml

inductive Token where
  | versionDirective (major minor : Nat)
  | tagDirective (handle expansion : Text)
  | documentStart
  | documentEnd
  | blockSequenceStart
  | blockMappingStart
  | blockEnd
  | flowSequenceStart
  | flowSequenceEnd
  | flowMappingStart
  | flowMappingEnd
  | blockEntry
  | flowEntry
  | key
  | value
  | alias (name : Text)
  | anchor (name : Text)
  | tag (handle ending : Text)
  | scalar (isPlain : Bool) (text : Text)
  deriving DecidableEq, Repr

/-- A place where a key may have begun. If it is `required`, nothing else can stand there. -/
structure PossibleKey where
  required : Bool
  /-- How many tokens come before it. -/
  position : Nat
  index : Nat
  line : Nat
  column : Nat

structure Scanner where
  cursor : Cursor
  tokens : List Token
  /-- Column of the innermost block collection, -1 outside of all. -/
  indent : Int
  outerIndents : List Int
  /-- Whether a key may begin here. -/
  keyAllowed : Bool
  /-- One for each level of brackets, the innermost first, and one for the block level. -/
  keys : List (Option PossibleKey)

namespace Scanner

def start (t : Text) : Scanner := ⟨Cursor.start t, [], -1, [], true, [none]⟩

def inFlow (s : Scanner) : Bool := 1 < s.keys.length

def emit (s : Scanner) (t : Token) : Scanner := { s with tokens := s.tokens ++ [t] }

def insertToken (s : Scanner) (position : Nat) (t : Token) : Scanner :=
  { s with tokens := s.tokens.take position ++ t :: s.tokens.drop position }

/-- Passes over blanks, comments and line breaks, and over a byte order mark at the very start,
which takes up a column. A tab may not stand where a key could begin, unless it is in brackets. -/
def skipToToken : Nat → Scanner → Scanner
  | 0, s => s
  | fuel + 1, s =>
    let c := s.cursor
    let c := if c.index = 0 ∧ c.peek = some '\ufeff' then c.skip 1 else c
    let c := c.skipWhile fun ch => ch == ' ' || ((s.inFlow || !s.keyAllowed) && ch == '\t')
    let c := if c.peek = some '#' then c.skipWhile (!isBreak ·) else c
    if c.isAtBreak then
      skipToToken fuel { s with cursor := c.skipBreak, keyAllowed := !s.inFlow || s.keyAllowed }
    else { s with cursor := c }

/-- A key stands on one line and within 1024 characters. -/
def dropStaleKeys? (s : Scanner) : Option Scanner := do
  let keys ← s.keys.mapM fun
    | none => some none
    | some k =>
      if k.line < s.cursor.line ∨ k.index + 1024 < s.cursor.index then
        if k.required then none else some none
      else some (some k)
  pure { s with keys }

def closeBlocks (column : Int) : Nat → Scanner → Scanner
  | 0, s => s
  | fuel + 1, s =>
    if column < s.indent then
      match s.outerIndents with
      | [] => s
      | outer :: rest =>
        closeBlocks column fuel { s.emit .blockEnd with indent := outer, outerIndents := rest }
    else s

/-- Ends the block collections that are indented further than `column`. -/
def unindent (s : Scanner) (column : Int) : Scanner :=
  if s.inFlow then s else closeBlocks column s.outerIndents.length s

/-- Begins a block collection if `column` is indented further than the current one. -/
def indentTo (s : Scanner) (column position : Nat) (t : Token) : Scanner :=
  if s.inFlow || column ≤ s.indent then s
  else { s.insertToken position t with indent := column, outerIndents := s.indent :: s.outerIndents }

def removeKey? (s : Scanner) : Option Scanner :=
  match s.keys with
  | some k :: rest => if k.required then none else some { s with keys := none :: rest }
  | _ => some s

def saveKey? (s : Scanner) : Option Scanner := do
  if !s.keyAllowed then pure s
  else
    let required := !s.inFlow && s.indent == s.cursor.column
    let s ← s.removeKey?
    let c := s.cursor
    let k : PossibleKey := ⟨required, s.tokens.length, c.index, c.line, c.column⟩
    pure { s with keys := some k :: s.keys.drop 1 }

def skip (s : Scanner) (n : Nat) : Scanner := { s with cursor := s.cursor.skip n }

def allowKey (s : Scanner) (allowed : Bool) : Scanner := { s with keyAllowed := allowed }

/-! ## Directives, anchors and tags -/

def versionNumber? (c : Cursor) : Option (Nat × Cursor) :=
  let (ds, c) := c.takeWhile Char.isDigit
  if ds.isEmpty || 9 < ds.length then none
  else some (ds.foldl (fun n d => 10 * n + (d.toNat - 48)) 0, c)

/-- Octets of an escaped character, the first of which tells how many there are. -/
def ofOctets? : List Nat → Option Char
  | [a] => if a < 0x80 then some (Char.ofNat a) else none
  | a :: rest =>
    let lead := if rest.length = 1 then a - 0xC0 else if rest.length = 2 then a - 0xE0 else a - 0xF0
    if rest.all fun b => 0x80 ≤ b && b < 0xC0 then
      some (Char.ofNat (rest.foldl (fun n b => 64 * n + (b - 0x80)) lead))
    else none
  | [] => none

def octetCount? (a : Nat) : Option Nat :=
  if a < 0x80 then some 1
  else if 0xC0 ≤ a ∧ a < 0xE0 then some 2
  else if 0xE0 ≤ a ∧ a < 0xF0 then some 3
  else if 0xF0 ≤ a ∧ a < 0xF8 then some 4
  else none

def octets? : Nat → Text → Option (List Nat)
  | 0, _ => some []
  | n + 1, '%' :: a :: b :: t => do
    let high ← hexValue? a
    let low ← hexValue? b
    let rest ← octets? n t
    pure ((16 * high + low) :: rest)
  | _, _ => none

def uriEscape? (t : Text) : Option (Char × Nat) := do
  let first ← octets? 1 t
  let n ← octetCount? (first.headD 0)
  let octets ← octets? n t
  let c ← ofOctets? octets
  pure (c, 3 * n)

def isUriChar (verbatim : Bool) (c : Char) : Bool :=
  isWordChar c || ";/?:@&=+$.!~*'()".toList.contains c || (verbatim && ",[]".toList.contains c)

def uri? (verbatim : Bool) : Nat → Cursor → Option (Text × Cursor)
  | 0, c => some ([], c)
  | fuel + 1, c =>
    match c.peek with
    | none => some ([], c)
    | some ch =>
      if ch = '%' then do
        let (e, width) ← uriEscape? c.rest
        let (more, c) ← uri? verbatim fuel (c.skip width)
        pure (e :: more, c)
      else if isUriChar verbatim ch then do
        let (more, c) ← uri? verbatim fuel (c.skip 1)
        pure (ch :: more, c)
      else some ([], c)

/-- A handle: an exclamation mark, and maybe a word and a second mark. -/
def tagHandle? (c : Cursor) : Option (Text × Cursor) :=
  if c.peek ≠ some '!' then none
  else
    let (word, c) := (c.skip 1).takeWhile isWordChar
    if c.peek = some '!' then some ('!' :: word ++ ['!'], c.skip 1) else some ('!' :: word, c)

def directive? (c : Cursor) : Option (Token × Cursor) := do
  let (name, c) := (c.skip 1).takeWhile isWordChar
  if name.isEmpty || !c.isAtGap then none
  if name = "YAML".toList then
    let (major, c) ← versionNumber? (c.skipWhile isBlank)
    if c.peek ≠ some '.' then none
    let (minor, c) ← versionNumber? (c.skip 1)
    pure (.versionDirective major minor, c)
  else if name = "TAG".toList then
    let (handle, c) ← tagHandle? (c.skipWhile isBlank)
    if handle ≠ ['!'] ∧ handle.getLast? ≠ some '!' then none
    if !c.isAtBlank then none
    let c := c.skipWhile isBlank
    let (expansion, c) ← uri? true c.rest.length c
    if expansion.isEmpty || !c.isAtGap then none
    pure (.tagDirective handle expansion, c)
  else none

def directiveLine? (c : Cursor) : Option (Token × Cursor) := do
  let (t, c) ← directive? c
  let c := c.skipWhile isBlank
  let c := if c.peek = some '#' then c.skipWhile (!isBreak ·) else c
  match c.peek with
  | none => pure (t, c)
  | some ch => if isBreak ch then pure (t, c.skipBreak) else none

def anchorName? (c : Cursor) : Option (Text × Cursor) :=
  let (name, c) := (c.skip 1).takeWhile isWordChar
  if name.isEmpty || !(c.isAtGap || c.peek.any ("?:,]\x7d%@`".toList.contains ·)) then none
  else some (name, c)

def tagName? (c : Cursor) : Option (Token × Cursor) := do
  if c.peekAt 1 = some '<' then
    let c := c.skip 2
    let (ending, c) ← uri? true c.rest.length c
    if ending.isEmpty ∨ c.peek ≠ some '>' then none
    pure (.tag [] ending, c.skip 1)
  else
    let (handle, c) ← tagHandle? c
    let (rest, c) ← uri? false c.rest.length c
    if 1 < handle.length ∧ handle.getLast? = some '!' then
      if rest.isEmpty then none
      pure (.tag handle rest, c)
    else
      let ending := handle.drop 1 ++ rest
      pure (if ending.isEmpty then .tag [] ['!'] else .tag ['!'] ending, c)

def tag? (inFlow : Bool) (c : Cursor) : Option (Token × Cursor) := do
  let (t, c) ← tagName? c
  if c.isAtGap || (inFlow && c.peek == some ',') then pure (t, c) else none

/-! ## One token after the other -/

def fetchDirective? (s : Scanner) : Option Scanner := do
  let s ← (s.unindent (-1)).removeKey?
  let (t, c) ← directiveLine? s.cursor
  pure ({ s with cursor := c, keyAllowed := false }.emit t)

def fetchMarker? (s : Scanner) (t : Token) : Option Scanner := do
  let s ← (s.unindent (-1)).removeKey?
  pure (((s.allowKey false).skip 3).emit t)

def openFlow? (s : Scanner) (t : Token) : Option Scanner := do
  let s ← s.saveKey?
  pure (({ s with keys := none :: s.keys, keyAllowed := true }.skip 1).emit t)

def closeFlow? (s : Scanner) (t : Token) : Option Scanner := do
  let s ← s.removeKey?
  let keys := if s.inFlow then s.keys.drop 1 else s.keys
  pure (({ s with keys, keyAllowed := false }.skip 1).emit t)

def fetchFlowEntry? (s : Scanner) : Option Scanner := do
  let s ← s.removeKey?
  pure (((s.allowKey true).skip 1).emit .flowEntry)

def fetchBlockEntry? (s : Scanner) : Option Scanner := do
  if !s.inFlow && !s.keyAllowed then none
  let s ← (s.indentTo s.cursor.column s.tokens.length .blockSequenceStart).removeKey?
  pure (((s.allowKey true).skip 1).emit .blockEntry)

def fetchKey? (s : Scanner) : Option Scanner := do
  if !s.inFlow && !s.keyAllowed then none
  let s ← (s.indentTo s.cursor.column s.tokens.length .blockMappingStart).removeKey?
  pure (((s.allowKey !s.inFlow).skip 1).emit .key)

def fetchValue? (s : Scanner) : Option Scanner :=
  match s.keys with
  | some k :: rest =>
    let s := (s.insertToken k.position .key).indentTo k.column k.position .blockMappingStart
    some (({ s with keys := none :: rest, keyAllowed := false }.skip 1).emit .value)
  | _ =>
    if !s.inFlow && !s.keyAllowed then none
    else
      let s := s.indentTo s.cursor.column s.tokens.length .blockMappingStart
      some (((s.allowKey !s.inFlow).skip 1).emit .value)

def fetchAnchor? (s : Scanner) (t : Text → Token) : Option Scanner := do
  let s ← s.saveKey?
  let (name, c) ← anchorName? s.cursor
  pure ({ s with cursor := c, keyAllowed := false }.emit (t name))

def fetchTag? (s : Scanner) : Option Scanner := do
  let s ← s.saveKey?
  let (t, c) ← tag? s.inFlow s.cursor
  pure ({ s with cursor := c, keyAllowed := false }.emit t)

def fetchBlockScalar? (s : Scanner) (literal : Bool) : Option Scanner := do
  let s ← s.removeKey?
  let (t, c) ← blockScalar? literal s.indent (s.cursor.skip 1)
  pure ({ s with cursor := c, keyAllowed := true }.emit (.scalar false t))

def fetchQuoted? (s : Scanner) (quote : Char) : Option Scanner := do
  let s ← s.saveKey?
  let (t, c) ← quotedScalar? quote s.cursor
  pure ({ s with cursor := c, keyAllowed := false }.emit (.scalar false t))

def fetchPlain? (s : Scanner) : Option Scanner := do
  let s ← s.saveKey?
  let (t, broken, c) ←
    plainScalar? s.inFlow (s.indent + 1).toNat (s.cursor.rest.length + 1) .empty s.cursor
  pure ({ s with cursor := c, keyAllowed := broken }.emit (.scalar true t))

/-- Characters that no plain scalar begins with, but for `-`, `?` and `:`. -/
def isIndicator (c : Char) : Bool := "-?:,[]\x7b\x7d#&*!|>'\"%@`".toList.contains c

def beginsPlain (s : Scanner) (c : Char) : Bool :=
  let next := s.cursor.peekAt 1
  (!isIndicator c && !isBlank c) || (c == '-' && !next.any isBlank) ||
    (!s.inFlow && (c == '?' || c == ':') && !isGap next)

/-- Reads the next token, which begins with the character given. -/
def fetchAt? (s : Scanner) (c : Char) : Option Scanner :=
  let gapAfter := isGap (s.cursor.peekAt 1)
  if s.cursor.column = 0 ∧ c = '%' then s.fetchDirective?
  else if s.cursor.isAtMarker then s.fetchMarker? (if c = '-' then .documentStart else .documentEnd)
  else if c = '[' then s.openFlow? .flowSequenceStart
  else if c = '{' then s.openFlow? .flowMappingStart
  else if c = ']' then s.closeFlow? .flowSequenceEnd
  else if c = '}' then s.closeFlow? .flowMappingEnd
  else if c = ',' then s.fetchFlowEntry?
  else if c = '-' ∧ gapAfter then s.fetchBlockEntry?
  else if c = '?' ∧ (s.inFlow ∨ gapAfter) then s.fetchKey?
  else if c = ':' ∧ (s.inFlow ∨ gapAfter) then s.fetchValue?
  else if c = '*' then s.fetchAnchor? .alias
  else if c = '&' then s.fetchAnchor? .anchor
  else if c = '!' then s.fetchTag?
  else if c = '|' ∧ !s.inFlow then s.fetchBlockScalar? true
  else if c = '>' ∧ !s.inFlow then s.fetchBlockScalar? false
  else if c = '\'' ∨ c = '"' then s.fetchQuoted? c
  else if s.beginsPlain c then s.fetchPlain?
  else none

def finish? (s : Scanner) : Option (List Token) := do
  let s ← (s.unindent (-1)).removeKey?
  pure s.tokens

def run? : Nat → Scanner → Option (List Token)
  | 0, _ => none
  | fuel + 1, s => do
    let s ← (skipToToken (s.cursor.rest.length + 1) s).dropStaleKeys?
    let s := s.unindent s.cursor.column
    match s.cursor.peek with
    | none => s.finish?
    | some c =>
      let s ← s.fetchAt? c
      run? fuel s

end Scanner

/-- All tokens of a text; `none` if it has none. -/
def tokens? (t : Text) : Option (List Token) :=
  if t.all isAllowed then Scanner.run? (t.length + 2) (Scanner.start t) else none

end Scaffold.Yaml
