import Scaffold.Tag.Scanner

/-!
Placeholders: what each tag of a source asks for, and the parameters that tags refer to without
declaring them.
-/

namespace Scaffold

structure FilterCall where
  name : Text
  args : List Argument
  deriving DecidableEq, Repr

structure Placeholder where
  /-- Name of the parameter or of the helper. -/
  key : Text
  kind : KeyKind
  /-- Empty when the tag gives none. -/
  default : Text
  /-- The arguments of the helper itself. -/
  args : List Argument
  filters : List FilterCall
  /-- The text of the tag; empty for a synthetic placeholder. -/
  code : Text
  /-- Set for a parameter that only occurs as an argument of other tags. -/
  synthetic : Bool
  deriving DecidableEq, Repr

namespace Placeholder

def blank (code : Text) : Placeholder := ⟨[], .parameter, [], [], [], code, false⟩

def synthesize (key : Text) : Placeholder := ⟨key, .parameter, [], [], [], [], true⟩

def isHelper (p : Placeholder) : Bool := p.kind = .helper

/-- An argument belongs to the latest filter, and to the helper while there is none. -/
def addArgument (p : Placeholder) (arg : Argument) : Placeholder :=
  match p.filters.getLast? with
  | none => { p with args := p.args ++ [arg] }
  | some f => { p with filters := p.filters.dropLast ++ [{ f with args := f.args ++ [arg] }] }

def addToken (p : Placeholder) : Token → Placeholder
  | .key kind name => if p.key.isEmpty then { p with kind, key := name } else p
  | .default text => { p with default := text }
  | .filter name => { p with filters := p.filters ++ [⟨name, []⟩] }
  | .argument arg => p.addArgument arg
  | .opening | .closing => p

def ofTag (tag : Tag) : Placeholder := tag.tokens.foldl addToken (blank tag.code)

/-- All arguments in their order, those of the helper first. -/
def arguments (p : Placeholder) : List Argument := p.args ++ p.filters.flatMap FilterCall.args

def variableNames (p : Placeholder) : List Text := p.arguments.filterMap Argument.variableName?

/-- The names that are not yet known, each once, in the order in which they come. -/
def newNames (known : List Text) : List Text → List Text
  | [] => []
  | name :: names =>
    if name ∈ known then newNames known names else name :: newNames (name :: known) names

/-- The tags of a source, and after them the variables that no tag declares as a parameter. -/
def parse (source : Text) : List Placeholder :=
  let tags := (Tag.scan source).map ofTag
  let declared := (tags.filter (!·.isHelper)).map key
  tags ++ (newNames declared (tags.flatMap variableNames)).map synthesize

end Placeholder

end Scaffold
