import Scaffold.Placeholder
import Scaffold.Registry

/-!
Stubs: a source with the registry that its tags draw on. The parameters of a stub are the keys of
its parameter tags, and the scope gives each of them its effective value.
-/

namespace Scaffold

structure Stub where
  source : Text
  /-- The file that the source was read from. -/
  path : Option Path
  registry : Registry

/-- Something that a stub can be given a value for. -/
structure Parameter where
  key : Text
  /-- The first default that is not empty. -/
  default : Text
  deriving DecidableEq, Repr

namespace Parameter

def isRequired (p : Parameter) : Bool := p.default.isEmpty

/-- Adds a parameter, or its default to an earlier one of the same key that has none. -/
def merge (p : Parameter) : List Parameter → List Parameter
  | [] => [p]
  | q :: qs =>
    if q.key = p.key then (if q.default.isEmpty then p else q) :: qs else q :: merge p qs

end Parameter

/-- The value given for a key, unless it is empty. -/
def supplied? (values : Bindings Text) (key : Text) : Option Text :=
  (values.get? key).filter (!·.isEmpty)

namespace Stub

def ofSource (source : Text) (registry : Registry) : Stub := ⟨source, none, registry⟩

def placeholders (s : Stub) : List Placeholder := Placeholder.parse s.source

/-- In order of first appearance, and the synthetic ones last. -/
def parameters (s : Stub) : List Parameter :=
  (s.placeholders.filter (!·.isHelper)).foldl (fun ps p => Parameter.merge ⟨p.key, p.default⟩ ps)
    []

def requiredKeys (s : Stub) : List Text := (s.parameters.filter (·.isRequired)).map (·.key)

/-- The given values, with the effective value of each parameter: a value that is given and not
empty, or else its default. -/
def scope (s : Stub) (values : Bindings Text) : Bindings Text :=
  s.parameters.foldl (fun b p => b.insert p.key ((supplied? values p.key).getD p.default)) values

/-- The first tag of each text. -/
def distinct (seen : List Text) : List Placeholder → List Placeholder
  | [] => []
  | p :: ps => if p.code ∈ seen then distinct seen ps else p :: distinct (p.code :: seen) ps

/-- The tags in the order of their substitution: longer texts first, so that no tag is found
within a longer one that is still to come, and in source order among equally long ones. -/
def pending (s : Stub) : List Placeholder :=
  distinct [] <|
    (s.placeholders.filter (!·.synthetic)).mergeSort fun p q =>
      decide (Text.bytes q.code ≤ Text.bytes p.code)

end Stub

end Scaffold
