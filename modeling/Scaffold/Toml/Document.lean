import Scaffold.Toml.Lexeme
import Scaffold.Toml.Table

/-!
TOML documents (version 1.0): values, key lines and table headers, and the object they describe.
-/

namespace Scaffold.Toml

/-- The elements of an array up to its closing bracket. -/
def elements? (value : Reader Data) : Nat → Reader (List Data)
  | 0, _ => none
  | fuel + 1, t =>
    match skipLines t.length t with
    | ']' :: t => some ([], t)
    | t => do
      let (d, t) ← value t
      match skipLines t.length t with
      | ']' :: t => pure ([d], t)
      | ',' :: t =>
        let (ds, t) ← elements? value fuel t
        pure (d :: ds, t)
      | _ => none

/-- A key with its value; blanks around all parts belong to it. -/
def pair? (value : Reader Data) (t : Text) : Option ((List Text × Data) × Text) := do
  let (key, t) ← key? t
  match t with
  | '=' :: t =>
    let (d, t) ← value (skipWs t)
    pure ((key, d), skipWs t)
  | _ => none

def addPair? (table : Table) (key : List Text) (d : Data) : Option Table := do
  let name ← key.getLast?
  table.addValue? key.dropLast name d

/-- The pairs of an inline table up to its closing brace. -/
def pairs? (value : Reader Data) : Nat → Table → Reader Table
  | 0, _, _ => none
  | fuel + 1, table, t => do
    let ((key, d), t) ← pair? value t
    let table ← addPair? table key d
    match t with
    | '}' :: t => pure (table, t)
    | ',' :: t => pairs? value fuel table t
    | _ => none

def orElse (a b : Option (Data × Text)) : Option (Data × Text) :=
  match a with
  | some r => some r
  | none => b

def value? : Nat → Reader Data
  | 0, _ => none
  | depth + 1, t =>
    match t with
    | [] => none
    | c :: rest =>
      if c = '"' ∨ c = '\'' then (string? t).map fun (s, t) => (.text s, t)
      else if c = '[' then
        if depth = 0 then none
        else (elements? (value? depth) t.length rest).map fun (ds, t) => (.list ds, t)
      else if c = '{' then
        if depth = 0 then none
        else match skipWs rest with
          | '}' :: t => some (.object [], t)
          | t =>
            (pairs? (value? depth) t.length .root t).map fun (table, t) =>
              (.object table.toFields, t)
      else match t with
        | 't' :: 'r' :: 'u' :: 'e' :: t => some (.bool true, t)
        | 'f' :: 'a' :: 'l' :: 's' :: 'e' :: t => some (.bool false, t)
        | _ => orElse (dateTime? t) (orElse (float? t) (orElse (specialFloat? t) (integer? t)))

/-- The document so far and the path of the table that is open. -/
structure Progress where
  root : Table
  header : List Text

/-- The head of a table: its path, and whether it is an element of an array. -/
def header? (t : Text) : Option ((List Text × Bool) × Text) :=
  match t with
  | '[' :: '[' :: t => do
    let (key, t) ← key? t
    match t with
    | ']' :: ']' :: t => pure ((key, true), t)
    | _ => none
  | '[' :: t => do
    let (key, t) ← key? t
    match t with
    | ']' :: t => pure ((key, false), t)
    | _ => none
  | _ => none

def addLine? (p : Progress) (t : Text) : Option (Progress × Text) :=
  match t with
  | '[' :: _ => do
    let ((key, isElement), t) ← header? t
    let name ← key.getLast?
    let root ←
      if isElement then p.root.openElement? key.dropLast name
      else p.root.openTable? key.dropLast name
    let t ← endOfLine? t
    pure (⟨root, key⟩, t)
  | _ => do
    let ((key, d), t) ← pair? (value? maxDepth) t
    let root ← p.root.descend? false (addPair? · key d) p.header
    let t ← endOfLine? t
    pure (⟨root, p.header⟩, t)

def lines? : Nat → Progress → Text → Option Table
  | 0, _, _ => none
  | fuel + 1, p, t =>
    match skipLines t.length t with
    | [] => some p.root
    | '#' :: t => if (t.dropWhile (!isControl ·)).isEmpty then some p.root else none
    | t => do
      let (p, t) ← addLine? p t
      lines? fuel p t

/-- The object that a document describes; `none` if the text is no document. -/
def document? (t : Text) : Option (List (Text × Data)) :=
  let t := match t with
    | '\ufeff' :: t => t
    | t => t
  (lines? (t.length + 1) ⟨.root, []⟩ t).map Table.toFields

end Scaffold.Toml
