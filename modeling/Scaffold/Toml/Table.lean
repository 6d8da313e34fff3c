import Scaffold.Data

/-!
Tables under construction. A table comes into being by its own header, as the way to a table with
a header, or by a dotted key, and that decides what may still be added to it and how.
-/

namespace Scaffold.Toml

inductive Item where
  | value (d : Data)
  /-- `implicit`: not made by a header of its own; `dotted`: made by a dotted key. -/
  | table (implicit dotted : Bool) (fields : List (Text × Item))
  /-- The tables of an array, each made by a header of its own. -/
  | tables (elements : List (List (Text × Item)))

/-- A table that is open for additions. -/
structure Table where
  implicit : Bool
  dotted : Bool
  fields : List (Text × Item)

namespace Table

def root : Table := ⟨false, false, []⟩

def get? (name : Text) (t : Table) : Option Item := Bindings.get? name t.fields

def set (t : Table) (name : Text) (i : Item) : Table :=
  { t with fields := Bindings.insert name i t.fields }

/-- Changes the table that a path leads to, making those that are missing. An array of tables
stands for its last one. A dotted key may only lead through tables without a header. -/
def descend? (byDots : Bool) (change : Table → Option Table) : List Text → Table → Option Table
  | [], t => change t
  | name :: path, t =>
    match t.get? name with
    | none => do
      let child ← descend? byDots change path ⟨true, byDots, []⟩
      pure (t.set name (.table child.implicit child.dotted child.fields))
    | some (.value _) => none
    | some (.tables elements) => do
      let fields ← elements.getLast?
      let child ← descend? byDots change path ⟨false, false, fields⟩
      pure (t.set name (.tables (elements.dropLast ++ [child.fields])))
    | some (.table implicit dotted fields) => do
      if byDots && !implicit then none
      let child ← descend? byDots change path ⟨implicit, dotted, fields⟩
      pure (t.set name (.table child.implicit child.dotted child.fields))

/-- Adds a new key. A dotted key may only add to tables that dotted keys have made. -/
def addValue? (t : Table) (path : List Text) (name : Text) (d : Data) : Option Table :=
  t.descend? true (fun t =>
    if t.dotted = path.isEmpty ∨ (t.get? name).isSome then none
    else some (t.set name (.value d))) path

/-- Opens a table by its header. -/
def openTable? (t : Table) (path : List Text) (name : Text) : Option Table :=
  t.descend? false (fun t =>
    match t.get? name with
    | none => some (t.set name (.table false false []))
    | some (.table true false fields) => some (t.set name (.table false false fields))
    | some _ => none) path

/-- Opens a further table of an array by its header. -/
def openElement? (t : Table) (path : List Text) (name : Text) : Option Table :=
  t.descend? false (fun t =>
    match t.get? name with
    | none => some (t.set name (.tables [[]]))
    | some (.tables elements) => some (t.set name (.tables (elements ++ [[]])))
    | some _ => none) path

end Table

mutual

def Item.toData : Item → Data
  | .value d => d
  | .table _ _ fields => .object (fieldsToData fields)
  | .tables elements => .list (elementsToData elements)

def fieldsToData : List (Text × Item) → List (Text × Data)
  | [] => []
  | (name, i) :: rest => (name, i.toData) :: fieldsToData rest

def elementsToData : List (List (Text × Item)) → List Data
  | [] => []
  | fields :: rest => .object (fieldsToData fields) :: elementsToData rest

end

def Table.toFields (t : Table) : List (Text × Data) :=
  t.fields.map fun (name, i) => (name, i.toData)

end Scaffold.Toml
