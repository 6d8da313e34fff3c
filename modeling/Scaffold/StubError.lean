import Scaffold.Data
import Scaffold.Disk

/-!
What can go wrong between reading a stub and having its text, and how it is told.
-/

namespace Scaffold

/-- Why a well-formed options block cannot be followed. -/
inductive DirectiveFault where
  /-- `path` is something else than a text. -/
  | path (found : Data)
  /-- `append` is neither a file name nor a description of a place. -/
  | append
  deriving BEq, Repr

inductive StubError where
  | undefinedFilter (name : Text)
  | undefinedHelper (name : Text)
  | invalidArguments (name : Text) (reason : Text)
  /-- The options block is no table; `found` is set if it is some other value. -/
  | malformedFrontMatter (found : Option Data)
  | invalidFrontMatter (fault : DirectiveFault)
  | unreadable (path : Path) (fault : Fault)
  | nestedTooDeep (path : Path)
  deriving BEq, Repr

namespace DirectiveFault

private def describe : Data → String
  | .null => "unit value"
  | .bool true => "boolean `true`"
  | .bool false => "boolean `false`"
  | .int n => s!"integer `{n}`"
  | .float x =>
    let t := x.text
    let t := if '.' ∈ t then t else t ++ ['.', '0']
    "floating point `" ++ String.ofList t ++ "`"
  | .text t => "string " ++ String.ofList t
  | .list _ => "sequence"
  | .object _ => "map"

def message : DirectiveFault → String
  | .path found => "invalid type: " ++ describe found ++ ", expected a string"
  | .append => "data did not match any variant of untagged enum AppendOption"

end DirectiveFault

namespace StubError

/-- The text of an error. For malformed front matter it has no more than the names of the two
formats: what the decoders have to say, each in parentheses behind its name, is left out, unless
the block is a value of the wrong kind. -/
def message : StubError → String
  | .undefinedFilter name => "filter '" ++ String.ofList name ++ "' is not defined"
  | .undefinedHelper name => "helper '" ++ String.ofList name ++ "' is not defined"
  | .invalidArguments name reason =>
    "invalid arguments for '" ++ String.ofList name ++ "': " ++ String.ofList reason
  | .malformedFrontMatter none => "failed to decode front matter as TOML or YAML"
  | .malformedFrontMatter (some found) =>
    "failed to decode front matter as TOML or YAML (expected a mapping, found " ++
      String.ofList found.compact ++ ")"
  | .invalidFrontMatter fault => "invalid front matter: " ++ fault.message
  | .unreadable path fault =>
    "failed to read stub '" ++ String.ofList path ++ "': " ++ fault.message
  | .nestedTooDeep path =>
    "stub '" ++ String.ofList path ++ "' exceeds the maximum `put` nesting depth"

end StubError

theorem mapError_ok {ε ε' α : Type} (f : ε → ε') (a : α) :
    (Except.ok a : Except ε α).mapError f = .ok a := rfl

theorem mapError_error {ε ε' α : Type} (f : ε → ε') (e : ε) :
    (Except.error e : Except ε α).mapError f = .error (f e) := rfl

theorem mapError_eq_ok {ε ε' α : Type} {f : ε → ε'} {result : Except ε α} {a : α} :
    result.mapError f = .ok a ↔ result = .ok a := by
  cases result with
  | error e => simp [mapError_error]
  | ok b => simp [mapError_ok]

theorem bind_eq_ok {ε α β : Type} {result : Except ε α} {next : α → Except ε β} {b : β} :
    result >>= next = .ok b ↔ ∃ a, result = .ok a ∧ next a = .ok b := by
  cases result with
  | error e => simp [bind, Except.bind]
  | ok a => simp [bind, Except.bind]

end Scaffold
