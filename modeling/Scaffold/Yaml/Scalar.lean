import Scaffold.Yaml.Cursor

/-!
Scalars of YAML texts in their three forms: plain, quoted and block.
-/

namespace Scaffold.Yaml

def isFlowIndicator (c : Char) : Bool :=
  c == ',' || c == '[' || c == ']' || c == '{' || c == '}'

/-! ## Plain scalars -/

/-- The next word of a plain scalar. A colon ends the scalar if a gap follows it; within brackets
also a comma or bracket does, and a colon directly before one is refused. -/
def plainWord? (inFlow : Bool) : Text → Option Text
  | [] => some []
  | c :: t =>
    if isBlank c || isBreak c then some []
    else if inFlow && c == ':' && t.head?.any (fun d => isFlowIndicator d || d == '?') then none
    else if (c == ':' && isGap t.head?) || (inFlow && isFlowIndicator c) then some []
    else (plainWord? inFlow t).map (c :: ·)

/-- Reads a plain scalar on from `c`. `gap` lies between what was read of it and `c`. Also told is
whether a line ended behind the scalar. -/
def plainScalar? (inFlow : Bool) (indent : Nat) :
    Nat → Gap → Cursor → Option (Text × Bool × Cursor)
  | 0, g, c => some ([], g.broken, c)
  | fuel + 1, g, c => do
    if c.isAtMarker ∨ c.peek = some '#' then pure ([], g.broken, c)
    else
      let word ← plainWord? inFlow c.rest
      if word.isEmpty then pure ([], g.broken, c)
      else
        let c := c.skip word.length
        let (gap, c) ← Gap.read? indent c.rest.length .empty c
        let stop := !(gap.broken || !gap.blanks.isEmpty) || (!inFlow && c.column < indent)
        if stop then pure (g.fold ++ word, gap.broken, c)
        else
          let (more, broken, c) ← plainScalar? inFlow indent fuel gap c
          pure (g.fold ++ word ++ more, broken, c)

/-! ## Quoted scalars -/

def hexValue? (c : Char) : Option Nat :=
  if c.isDigit then some (c.toNat - 48)
  else if 'a' ≤ c ∧ c ≤ 'f' then some (c.toNat - 87)
  else if 'A' ≤ c ∧ c ≤ 'F' then some (c.toNat - 55)
  else none

/-- The names of escapes and the characters that they stand for. -/
def escapes : List (Char × Char) :=
  [('0', '\x00'), ('a', '\x07'), ('b', '\x08'), ('t', '\t'), ('\t', '\t'), ('n', '\n'),
    ('v', '\x0b'), ('f', '\x0c'), ('r', '\r'), ('e', '\x1b'), (' ', ' '), ('"', '"'),
    ('/', '/'), ('\\', '\\'), ('N', '\u0085'), ('_', '\u00a0'), ('L', '\u2028'),
    ('P', '\u2029')]

def hexEscape? (digits : Nat) (t : Text) : Option (Char × Nat) := do
  let ds := t.take digits
  if ds.length < digits then none
  let n ← ds.foldlM (fun n c => (hexValue? c).map (16 * n + ·)) 0
  if n.isValidChar then pure (Char.ofNat n, digits + 2) else none

/-- The character that an escape stands for, and how many characters the escape has. -/
def escape? : Text → Option (Char × Nat)
  | '\\' :: 'x' :: t => hexEscape? 2 t
  | '\\' :: 'u' :: t => hexEscape? 4 t
  | '\\' :: 'U' :: t => hexEscape? 8 t
  | '\\' :: c :: _ => (escapes.lookup c).map (·, 2)
  | _ => none

/-- The next word of a quoted scalar, and whether an escaped line break ends it. -/
def quotedWord? (quote : Char) : Nat → Cursor → Option (Text × Bool × Cursor)
  | 0, _ => none
  | fuel + 1, c =>
    match c.peek with
    | none => some ([], false, c)
    | some ch =>
      if isBlank ch || isBreak ch then some ([], false, c)
      else if ch = quote ∧ quote = '\'' ∧ c.peekAt 1 = some '\'' then do
        let (word, escaped, c) ← quotedWord? quote fuel (c.skip 2)
        pure ('\'' :: word, escaped, c)
      else if ch = quote then some ([], false, c)
      else if ch = '\\' ∧ quote = '"' then
        if (c.peekAt 1).any isBreak then some ([], true, (c.skip 1).skipBreak)
        else do
          let (e, width) ← escape? c.rest
          let (word, escaped, c) ← quotedWord? quote fuel (c.skip width)
          pure (e :: word, escaped, c)
      else do
        let (word, escaped, c) ← quotedWord? quote fuel (c.skip 1)
        pure (ch :: word, escaped, c)

/-- Reads a scalar on up to and including its closing quote. -/
def quotedRest? (quote : Char) : Nat → Cursor → Option (Text × Cursor)
  | 0, _ => none
  | fuel + 1, c => do
    if c.isAtMarker ∨ c.peek = none then none
    else
      let (word, escaped, c) ← quotedWord? quote (c.rest.length + 1) c
      if c.peek = some quote then pure (word, c.skip 1)
      else
        let (gap, c) ← Gap.read? 0 c.rest.length ⟨escaped, [], [], []⟩ c
        let (more, c) ← quotedRest? quote fuel c
        pure (word ++ gap.fold ++ more, c)

def quotedScalar? (quote : Char) (c : Cursor) : Option (Text × Cursor) :=
  quotedRest? quote (c.rest.length + 1) (c.skip 1)

/-! ## Block scalars -/

/-- What becomes of the line breaks at the end of a block scalar. -/
inductive Chomping where
  | strip
  | clip
  | keep
  deriving DecidableEq

def chomping? : Option Char → Option Chomping
  | some '+' => some .keep
  | some '-' => some .strip
  | _ => none

def indentDigit? (c : Option Char) : Option Nat :=
  c.bind fun c => if c.isDigit then some (c.toNat - 48) else none

/-- The indicators behind the `|` or `>`: chomping and indentation, in either order. The
indentation is 0 if it is to be found out, and must not be written as 0. -/
def blockHeader? (c : Cursor) : Option (Chomping × Nat × Cursor) := do
  let (chomping, indent, c) :=
    match chomping? c.peek with
    | some chomping =>
      match indentDigit? (c.peekAt 1) with
      | some n => (chomping, some n, c.skip 2)
      | none => (chomping, none, c.skip 1)
    | none =>
      match indentDigit? c.peek with
      | none => (.clip, none, c)
      | some n =>
        match chomping? (c.peekAt 1) with
        | some chomping => (chomping, some n, c.skip 2)
        | none => (.clip, some n, c.skip 1)
  if indent = some 0 then none
  let c := c.skipWhile isBlank
  let c := if c.peek = some '#' then c.skipWhile (!isBreak ·) else c
  match c.peek with
  | none => pure (chomping, indent.getD 0, c)
  | some ch => if isBreak ch then pure (chomping, indent.getD 0, c.skipBreak) else none

/-- Empty lines and the indentation of the next line, with the widest indentation seen. -/
def blockBreaks? (indent : Nat) :
    Nat → Nat → Cursor → Option (Text × Nat × Cursor)
  | 0, widest, c => some ([], widest, c)
  | fuel + 1, widest, c => do
    let spaces := (c.rest.takeWhile (· == ' ')).length
    let c := c.skip (if indent = 0 then spaces else min spaces (indent - c.column))
    let widest := max widest c.column
    if (indent = 0 ∨ c.column < indent) ∧ c.peek = some '\t' then none
    if c.isAtBreak then
      let (breaks, widest, d) ← blockBreaks? indent fuel widest c.skipBreak
      pure (c.breakText ++ breaks, widest, d)
    else pure ([], widest, c)

/-- What stands between the lines of a block scalar that is being read. -/
structure BlockGap where
  lineBreak : Text
  emptyLines : Text
  /-- Whether the line before starts with a blank. -/
  afterBlank : Bool

def BlockGap.fold (g : BlockGap) (literal beforeBlank : Bool) : Text :=
  if !literal && g.lineBreak == ['\n'] && !g.afterBlank && !beforeBlank then
    if g.emptyLines.isEmpty then [' '] else g.emptyLines
  else g.lineBreak ++ g.emptyLines

def blockLines? (literal : Bool) (indent : Nat) :
    Nat → BlockGap → Cursor → Option (Text × BlockGap × Cursor)
  | 0, g, c => some ([], g, c)
  | fuel + 1, g, c => do
    if c.column ≠ indent ∨ c.peek = none then pure ([], g, c)
    else
      let blank := c.isAtBlank
      let (line, c) := c.takeWhile (!isBreak ·)
      let (lineBreak, c) := if c.isAtBreak then (c.breakText, c.skipBreak) else ([], c)
      let (emptyLines, _, c) ← blockBreaks? indent c.rest.length 0 c
      let (more, last, c) ← blockLines? literal indent fuel ⟨lineBreak, emptyLines, blank⟩ c
      pure (g.fold literal blank ++ line ++ more, last, c)

/-- Reads a block scalar from behind its `|` or `>`, below a node that is indented by
`parentIndent`. -/
def blockScalar? (literal : Bool) (parentIndent : Int) (c : Cursor) : Option (Text × Cursor) := do
  let (chomping, increment, c) ← blockHeader? c
  let given : Nat :=
    if increment = 0 then 0
    else if 0 ≤ parentIndent then parentIndent.toNat + increment else increment
  let (emptyLines, widest, c) ← blockBreaks? given c.rest.length 0 c
  let indent := if given = 0 then max (max widest (parentIndent + 1).toNat) 1 else given
  let (body, last, c) ←
    blockLines? literal indent (c.rest.length + 1) ⟨[], emptyLines, false⟩ c
  let ending := match chomping with
    | .strip => []
    | .clip => last.lineBreak
    | .keep => last.lineBreak ++ last.emptyLines
  pure (body ++ ending, c)

end Scaffold.Yaml
