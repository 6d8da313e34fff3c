import Scaffold.Command.Arguments
import Scaffold.Command.Info
import Scaffold.Command.Report
import Scaffold.Config.Query
import Scaffold.Render

/-!
The two commands on a disk: `make` renders a stub and writes or prints the result, `info`
describes a stub. A failed command leaves all files as they were.
-/

namespace Scaffold.Command

/-- The file of a stub that is asked for on the command line. -/
def locate (d : Disk) (c : Config) (query : Text) : Except CommandError Path :=
  match c.resolve? d query with
  | some path => .ok path
  | none => .error (.stubNotFound query c.localRoot c.globalRoot)

/-- The configuration, the file of the stub and the stub. -/
def load (d : Disk) (env : List (Text × Text)) (query : Text) :
    Except CommandError (Config × Path × Stub) := do
  let config ← (Config.load d env).mapError .config
  let path ← locate d config query
  let stub ← (Stub.load d.read path .default).mapError .stub
  pure (config, path, stub)

def policy (o : MakeOptions) : ExistingPolicy :=
  if o.overwrite then .overwrite else if o.skipExists then .skip else .refuse

/-- Nine columns for what happened to the target, and the target as the stub names it. -/
def outcomeLine (o : Outcome) (target : Text) : String :=
  String.ofList (List.replicate (9 - o.label.length) ' ') ++ o.label ++ " " ++
    String.ofList target ++ "\n"

/-- Writes a rendered text below a directory: into a file if the text asks for that, and otherwise
to its save path. -/
def write (d : Disk) (dir : Path) (policy : ExistingPolicy) (r : Rendered) :
    Disk × Except CommandError String :=
  match r.append with
  | some ⟨none, _⟩ => (d, .error .appendTargetMissing)
  | some ⟨some file, position⟩ =>
    let (d, result) := Output.append d (Output.destination dir file) position r.body
    (d, (result.map (outcomeLine · file)).mapError .output)
  | none =>
    if r.savePath.isEmpty then (d, .error .savePathMissing)
    else
      let (d, result) := Output.save d (Output.destination dir r.savePath) r.body policy
      (d, (result.map (outcomeLine · r.savePath)).mapError .output)

/-- Everything up to the rendered text; the last two parts are the stub's file and the directory
to write below. -/
def render (d : Disk) (env : List (Text × Text)) (now : Moment) (o : MakeOptions) :
    Except CommandError (Rendered × Path × Path) := do
  let (config, path, stub) ← load d env o.stub
  let values ← (Parameters.read o.values).mapError .parameter
  (stub.accept values).mapError .parameter
  let rendered ← (stub.render ⟨d.read, now⟩ values).mapError .stub
  pure (rendered, path, o.output.getD config.workingDir)

def dumpText (path : Path) (r : Rendered) : String :=
  "[" ++ String.ofList path ++ "]\n\n" ++ String.ofList r.raw ++ "\n"

def runMake (d : Disk) (env : List (Text × Text)) (now : Moment) (o : MakeOptions) :
    Disk × Except CommandError String :=
  match render d env now o with
  | .error e => (d, .error e)
  | .ok (rendered, path, dir) =>
    if o.dump then (d, .ok (dumpText path rendered))
    else write d dir (policy o) rendered

def runInfo (d : Disk) (env : List (Text × Text)) (query : Text) : Except CommandError String := do
  let (_, path, stub) ← load d env query
  pure ("Stub: " ++ String.ofList path ++ "\n" ++ stub.describe)

def helpText : String :=
  "Render stub templates into files\n\n" ++
    "Usage: make STUB [KEY:VALUE]... [-d] [-F | -S] [-o DIR]\n       info STUB\n"

/-- What a run with these arguments does to the disk and prints. -/
def run (d : Disk) (env : List (Text × Text)) (now : Moment) (args : List Text) : Disk × Report :=
  match Invocation.ofArguments args with
  | .error .misuse => (d, ⟨2, "", "error: see --help\n"⟩)
  | .error .help => (d, ⟨0, helpText, ""⟩)
  | .error .version => (d, ⟨0, "0.1.0\n", ""⟩)
  | .ok ⟨_, .make o⟩ =>
    let (d, result) := runMake d env now o
    (d, .ofResult result)
  | .ok ⟨_, .info query⟩ => (d, .ofResult (runInfo d env query))

end Scaffold.Command
