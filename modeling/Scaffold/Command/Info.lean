import Scaffold.Stub

/-!
The description of a stub: its parameters with their defaults, and the filters and helpers that
its tags may use.
-/

namespace Scaffold

namespace Parameter

/-- One line of the table, with the key in a column of `width` characters. -/
def line (width : Nat) (p : Parameter) : Text :=
  let key := p.key ++ List.replicate (width - p.key.length) ' '
  let default := if p.isRequired then "(required)".toList else p.default
  [' ', ' '] ++ key ++ [' ', ' '] ++ default ++ ['\n']

end Parameter

namespace Stub

private def listLine (title : String) (names : List Text) : String :=
  title ++ ": " ++ ", ".intercalate (names.map String.ofList) ++ "\n"

private def parameterTable (parameters : List Parameter) : String :=
  let width := (parameters.map fun p => Text.bytes p.key).foldl max 0
  if parameters.isEmpty then "No parameters\n"
  else "Parameters:\n" ++ String.ofList (parameters.flatMap (·.line width))

def describe (s : Stub) : String :=
  parameterTable s.parameters ++ listLine "Filters" s.registry.filterNames ++
    listLine "Helpers" s.registry.helperNames

end Stub

end Scaffold
