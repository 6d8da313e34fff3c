import Scaffold.Disk
import Scaffold.Insertion

/-!
Writing rendered texts below an output directory: saving under a policy for files that are there
already, and inserting into a file.
-/

namespace Scaffold

/-- What to do when the file to save exists. -/
inductive ExistingPolicy where
  | refuse
  | overwrite
  | skip
  deriving DecidableEq, Repr

inductive Outcome where
  | created
  | overwritten
  | skipped
  | appended
  deriving DecidableEq, Repr

namespace Outcome

def label : Outcome → String
  | .created => "create"
  | .overwritten => "overwrite"
  | .skipped => "skip"
  | .appended => "append"

end Outcome

inductive OutputError where
  | present (path : Path)
  | unwritable (path : Path) (fault : Fault)
  deriving DecidableEq, Repr

namespace OutputError

def message : OutputError → String
  | .present path =>
    "file '" ++ String.ofList path ++ "' already exists (pass --overwrite or --skip-exists)"
  | .unwritable path fault => "failed to write '" ++ String.ofList path ++ "': " ++ fault.message

end OutputError

namespace Output

/-- Slashes in front of a save path do not lead out of the output directory. -/
def destination (dir : Path) (savePath : Text) : Path := Path.join dir (Path.stripSlashes savePath)

/-- Gives a file its content, after making the directories on the way to it. -/
def writeBelow (d : Disk) (path : Path) (content : Text) : Disk × Except OutputError Unit :=
  let parent := (Path.parent? path).getD []
  match d.makeDirectories parent with
  | (d, .error f) => (d, .error (.unwritable parent f))
  | (d, .ok ()) =>
    match d.write path content with
    | .ok d => (d, .ok ())
    | .error f => (d, .error (.unwritable path f))

def withOutcome (o : Outcome) (r : Disk × Except OutputError Unit) :
    Disk × Except OutputError Outcome :=
  (r.1, r.2.map fun _ => o)

def save (d : Disk) (path : Path) (content : Text) (policy : ExistingPolicy) :
    Disk × Except OutputError Outcome :=
  match d.exists? path, policy with
  | .error f, _ => (d, .error (.unwritable path f))
  | .ok false, _ => withOutcome .created (writeBelow d path content)
  | .ok true, .overwrite => withOutcome .overwritten (writeBelow d path content)
  | .ok true, .skip => (d, .ok .skipped)
  | .ok true, .refuse => (d, .error (.present path))

/-- Inserts into a file; one that is missing is made. -/
def append (d : Disk) (path : Path) (position : Position) (content : Text) :
    Disk × Except OutputError Outcome :=
  let write existing := withOutcome .appended (writeBelow d path (position.insert existing content))
  match d.read path with
  | .ok existing => write (some existing)
  | .error .missing => write none
  | .error f => (d, .error (.unwritable path f))

end Output

end Scaffold
