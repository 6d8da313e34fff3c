import Scaffold.Config.Settings
import Scaffold.Disk
import Scaffold.Utf8

/-!
The configuration: where stubs lie and how their files end. Settings come from an optional file in
the working directory, and variables of the environment go before them.
-/

namespace Scaffold

structure Config where
  /-- The directory of the stubs that all working directories share. -/
  home : Option Path
  /-- The stub directory within the working directory and within `home`. -/
  stubsDir : Path
  extension : Text
  workingDir : Path
  deriving DecidableEq, Repr

inductive ConfigError where
  /-- The file is not one mapping of settings. -/
  | undecodable
  /-- A setting is no text. -/
  | unsuitable (name : Text)
  deriving DecidableEq, Repr

namespace ConfigError

/-- The text of an error. What the decoder has to say about the file is left out, but for the name
of a setting that is no text. -/
def message : ConfigError → String
  | .undecodable => "failed to deserialize config"
  | .unsuitable name => "failed to deserialize config: no text in " ++ String.ofList name

end ConfigError

namespace Config

/-- A setting that reaches into another one, such as `a.b` or `a[0]`. -/
inductive Step where
  | name (started : Bool)
  | index (started : Bool)
  | done

private def isStepChar (c : Char) : Bool := c.isAlphanum || c == '_' || c == '-' || c == ' '

/-- Whether a text is made up of such steps only. -/
def areSteps : Step → Text → Bool
  | .name started, [] => started
  | .index _, [] => false
  | .done, [] => true
  | .name started, c :: t =>
    if isStepChar c then areSteps (.name true) t
    else if !started then false
    else if c == '.' then areSteps (.name false) t
    else c == '[' && areSteps (.index false) t
  | .index started, c :: t =>
    if c.isDigit then areSteps (.index true) t else started && c == ']' && areSteps .done t
  | .done, c :: t =>
    if c == '.' then areSteps (.name false) t else c == '[' && areSteps (.index false) t

/-- Whether a key sets a part of the setting of this name, which then is no scalar. -/
def reachesInto (name key : Text) : Bool :=
  name.isPrefixOf key && name.length < key.length && areSteps .done (key.drop name.length)

/-- The value of a setting; the last one given counts. -/
def setting (name : Text) (given : List (Text × Data)) : Option Data :=
  given.foldl (fun found (key, d) =>
    if key = name then some d
    else if reachesInto name key then some (.object [])
    else found) none

/-- The text of a scalar. -/
def settingText? : Data → Option Text
  | .null => none
  | d => Settings.nameOf? d

private def textSetting (name default : Text) (given : List (Text × Data)) :
    Except ConfigError Text :=
  match setting name given with
  | none => .ok default
  | some d =>
    match settingText? d with
    | some t => .ok t
    | none => .error (.unsuitable name)

private def optionalSetting (name : Text) (given : List (Text × Data)) :
    Except ConfigError (Option Text) :=
  match setting name given with
  | none | some .null => .ok none
  | some d =>
    match settingText? d with
    | some t => .ok (some t)
    | none => .error (.unsuitable name)

def ofSettings (workingDir : Path) (given : List (Text × Data)) : Except ConfigError Config := do
  let home ← optionalSetting "home".toList given
  let stubsDir ← textSetting "stubs_dir".toList "stubs".toList given
  let extension ← textSetting "extension".toList "stub".toList given
  pure ⟨home, stubsDir, extension, workingDir⟩

/-- Variables are recognised by how their names start, in upper or lower case, and are texts. -/
def ofVariables (env : List (Text × Text)) : List (Text × Data) :=
  env.filterMap fun (name, value) =>
    let mark := "stuble_".toList
    let key := Text.lower name
    if mark.isPrefixOf key then some (key.drop mark.length, .text value) else none

/-- The names that the file is looked for under, in this order. -/
def fileNames : List Text :=
  ["stuble.yaml", "stuble.yaml.yaml", "stuble.yaml.yml"].map String.toList

private def dropMark : Text → Text
  | '\uFEFF' :: t => t
  | t => t

/-- The text of the file, with what is no UTF-8 in it replaced. -/
def fileText? (d : Disk) (dir : Path) : Option Text :=
  (fileNames.map (Path.join dir)).findSome? fun path =>
    match d.entryAt path with
    | .ok (.file (.text t)) => some (dropMark t)
    | .ok (.file (.binary bytes)) => some (dropMark (Utf8.decode bytes))
    | _ => none

/-- The configuration for the working directory. -/
def load (d : Disk) (env : List (Text × Text)) : Except ConfigError Config := do
  let dir := d.workingPath
  let fields ← match fileText? d dir with
    | none => .ok []
    | some t =>
      match Settings.ofText? t with
      | some fields => .ok fields
      | none => .error .undecodable
  ofSettings dir (fields ++ ofVariables env)

def localRoot (c : Config) : Path := Path.join c.workingDir c.stubsDir

/-- A relative home lies in the working directory. -/
def globalRoot (c : Config) : Option Path :=
  c.home.map fun home =>
    Path.join (if Path.isAbsolute home then home else Path.join c.workingDir home) c.stubsDir

end Config

end Scaffold
