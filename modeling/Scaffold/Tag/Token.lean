import Scaffold.Text

/-!
What a tag is made of: the key it starts with, an optional default, filters and call arguments.
-/

namespace Scaffold

/-- A tag either stands for a parameter or calls a helper. -/
inductive KeyKind where
  | parameter
  | helper
  deriving DecidableEq, Repr

/-- A call argument as it is written. -/
inductive Argument where
  | string (text : Text)
  | number (text : Text)
  | variable (name : Text)
  deriving DecidableEq, Repr

namespace Argument

def variableName? : Argument → Option Text
  | .variable name => some name
  | _ => none

end Argument

inductive Token where
  | opening
  | key (kind : KeyKind) (name : Text)
  | default (text : Text)
  | filter (name : Text)
  | argument (arg : Argument)
  | closing
  deriving DecidableEq, Repr

end Scaffold
