import Scaffold.Config.Basic
import Scaffold.Output
import Scaffold.Parameters
import Scaffold.StubError

/-!
How a command ends: what it prints, or why it fails and how that is told.
-/

namespace Scaffold

inductive CommandError where
  | config (e : ConfigError)
  | stubNotFound (query : Text) (localRoot : Path) (globalRoot : Option Path)
  | stub (e : StubError)
  | parameter (e : ParameterError)
  | appendTargetMissing
  | savePathMissing
  | output (e : OutputError)

namespace CommandError

def message : CommandError → String
  | .config e => e.message
  | .stubNotFound query localRoot globalRoot =>
    "Stub '" ++ String.ofList query ++ "' not found in " ++ String.ofList localRoot ++
      match globalRoot with
      | some root => " or " ++ String.ofList root
      | none => ""
  | .stub e => e.message
  | .parameter e => e.message
  | .appendTargetMissing =>
    "Append target missing: set \x60append.file\x60 or \x60path\x60 in the front matter"
  | .savePathMissing =>
    "Save path missing: set \x60path\x60 in the stub's front matter or use --dump"
  | .output e => e.message

/-- The fault of the file system behind the error. -/
def cause? : CommandError → Option Fault
  | .stub (.unreadable _ fault) | .output (.unwritable _ fault) => some fault
  | _ => none

end CommandError

/-- What a run prints, and the code it exits with. -/
structure Report where
  code : UInt8
  stdout : String
  stderr : String
  deriving DecidableEq, Repr

namespace Report

def ofResult : Except CommandError String → Report
  | .ok text => ⟨0, text, ""⟩
  | .error e =>
    let cause := match e.cause? with
      | some fault => "\nCaused by:\n    " ++ fault.message ++ "\n"
      | none => ""
    ⟨1, "", "Error: " ++ e.message ++ "\n" ++ cause⟩

end Report

end Scaffold
