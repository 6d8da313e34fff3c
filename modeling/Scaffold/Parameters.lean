import Scaffold.Stub

/-!
Parameter values as they are given on a command line, and whether they fit a stub.
-/

namespace Scaffold

inductive ParameterError where
  /-- An argument without a colon. -/
  | malformed (arg : Text)
  | unused (keys : List Text)
  | missing (keys : List Text)
  deriving DecidableEq, Repr

namespace ParameterError

private def list (keys : List Text) : String := ", ".intercalate (keys.map String.ofList)

def message : ParameterError → String
  | .malformed arg =>
    "invalid parameter '" ++ String.ofList arg ++ "': parameters are written as key:value"
  | .unused keys => "unused parameter: " ++ list keys
  | .missing keys => "missing parameter: " ++ list keys

end ParameterError

namespace Parameters

/-- A key and a value with a colon between them; the value may have colons of its own. -/
def pair? (arg : Text) : Option (Text × Text) :=
  match arg.dropWhile (· != ':') with
  | [] => none
  | _ :: value => some (arg.takeWhile (· != ':'), value)

def pairs (args : List Text) : Except ParameterError (List (Text × Text)) :=
  args.mapM fun arg =>
    match pair? arg with
    | some p => .ok p
    | none => .error (.malformed arg)

/-- The last value of a key counts. -/
def read (args : List Text) : Except ParameterError (Bindings Text) :=
  (pairs args).map Bindings.ofPairs

end Parameters

namespace Stub

/-- No values at all are always accepted; otherwise each value must be for a parameter, and each
parameter without a default must have one. -/
def accept (s : Stub) (values : Bindings Text) : Except ParameterError Unit :=
  let unused := values.names.filter fun key => !s.parameters.any (·.key == key)
  let missing := s.requiredKeys.filter fun key => !values.contains key
  if values.isEmpty then .ok ()
  else if unused ≠ [] then .error (.unused unused)
  else if missing ≠ [] then .error (.missing missing)
  else .ok ()

end Stub

end Scaffold
