import Scaffold.Calendar
import Scaffold.Inflection
import Scaffold.StubError
import Scaffold.Tag.Token
import Scaffold.Word

/-!
Named filters and helpers, the arguments they are called with, and the built-in catalog. A
registry is a value: registering a name yields a new registry and changes no other. Filters and
helpers are functions: they keep no state from one call to the next.
-/

namespace Scaffold

/-- A call argument as filters and helpers get it. -/
inductive Value where
  | text (t : Text)
  | int (n : Int)
  | float (x : Binary64)
  deriving DecidableEq, Repr

namespace Value

def toText : Value → Text
  | .text t => t
  | .int n => Decimal.intText n
  | .float x => x.text

/-- Digits without a point are an integer as long as 63 bits hold it. -/
def ofNumber (t : Text) : Value :=
  if '.' ∉ t ∧ t ≠ [] ∧ t.all Char.isDigit ∧ isInt64 (Decimal.ofDigits t) then
    .int (Decimal.ofDigits t)
  else match Decimal.read? t with
    | some d => .float (Binary64.ofDecimal d)
    | none => .text t

end Value

abbrev Filter := Text → List Value → Except StubError Text

/-- What a helper sees of the stub that calls it: the file it was read from, the number of `put`
calls around it, its values, and of its registry the filters, which the helper can apply, and the
names of the helpers. That a helper calls other helpers of the registry is left out: the type of
views would have to hold functions of views. -/
structure HelperView where
  path : Option Path
  depth : Nat
  values : Bindings Text
  filters : Bindings Filter
  helpers : List Text

inductive Helper where
  | date
  | put
  | custom (run : HelperView → List Value → Except StubError Text)

structure Registry where
  filters : Bindings Filter
  helpers : Bindings Helper

/-- Plurals and singulars of some language. -/
structure Inflector where
  plural : Text → Text
  singular : Text → Text

namespace Inflector

def english : Inflector := ⟨Inflection.plural, Inflection.singular⟩

end Inflector

namespace Filter

/-- A filter that takes no notice of its arguments. -/
def ofFunction (f : Text → Text) : Filter := fun t _ => .ok (f t)

def replace : Filter
  | t, pattern :: value :: _ => .ok (Text.replace pattern.toText value.toText t)
  | _, args =>
    .error (.invalidArguments "replace".toList
      ("expected 2 arguments, got ".toList ++ Decimal.digitText args.length))

end Filter

namespace Registry

def empty : Registry := ⟨[], []⟩

def addFilter (r : Registry) (name : Text) (f : Filter) : Registry :=
  { r with filters := r.filters.insert name f }

def addHelper (r : Registry) (name : Text) (h : Helper) : Registry :=
  { r with helpers := r.helpers.insert name h }

def addInflector (r : Registry) (i : Inflector) : Registry :=
  (r.addFilter "plural".toList (.ofFunction i.plural)).addFilter "singular".toList
    (.ofFunction i.singular)

/-- The filters that change the case of a text, under their names. -/
def caseFilters : List (Text × (Text → Text)) :=
  [("lower".toList, Text.lower), ("upper".toList, Text.upper),
    ("ucfirst".toList, CaseStyle.capitalize), ("ucwords".toList, CaseStyle.capitalizeWords),
    ("words".toList, CaseStyle.words), ("kebab".toList, CaseStyle.kebab),
    ("snake".toList, CaseStyle.snake), ("studly".toList, CaseStyle.studly),
    ("pascal".toList, CaseStyle.studly), ("camel".toList, CaseStyle.camel),
    ("title".toList, CaseStyle.title)]

/-- The built-in catalog. -/
def default : Registry :=
  let r := caseFilters.foldl (fun r f => r.addFilter f.1 (.ofFunction f.2)) empty
  (((r.addFilter "replace".toList Filter.replace).addInflector .english).addHelper
    "date".toList .date).addHelper "put".toList .put

def filterNames (r : Registry) : List Text := r.filters.names

def helperNames (r : Registry) : List Text := r.helpers.names

def applyFilter (r : Registry) (name t : Text) (args : List Value) : Except StubError Text :=
  match r.filters.get? name with
  | some f => f t args
  | none => .error (.undefinedFilter name)

end Registry

namespace Argument

/-- A variable without a value is the empty text. -/
def resolve (scope : Bindings Text) : Argument → Value
  | .string t => .text t
  | .number t => Value.ofNumber t
  | .variable name => .text ((scope.get? name).getD [])

end Argument

end Scaffold
