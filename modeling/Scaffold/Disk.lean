import Scaffold.Path

/-!
Files and directories with a working directory, and what it means to look up, read, write and
create by path. Nothing is normalised beforehand: each component of a path is looked up in the
directory that the components before it lead to, `..` included.

Left out are symbolic links, permissions, writes that fail half way, as on a full disk, and other
programs that change the files meanwhile. So `..` leads to the place without its last name, every
fault has its reason in the entries or in the path, and a file that could not be written is as it
was before. What is said of whole runs rests on this.
-/

namespace Scaffold

/-- The components that lead from the root directory to an entry. -/
abbrev Place := List Text

inductive Content where
  | text (t : Text)
  /-- Bytes that are no UTF-8 text. -/
  | binary (bytes : List UInt8)
  deriving DecidableEq, Repr

inductive Entry where
  | file (content : Content)
  | directory
  deriving DecidableEq, Repr

/-- Why a file operation is refused. -/
inductive Fault where
  | missing
  | present
  | notDirectory
  | isDirectory
  | nameTooLong
  | notUtf8
  | nulByte
  deriving DecidableEq, Repr

namespace Fault

def message : Fault → String
  | .missing => "No such file or directory (os error 2)"
  | .present => "File exists (os error 17)"
  | .notDirectory => "Not a directory (os error 20)"
  | .isDirectory => "Is a directory (os error 21)"
  | .nameTooLong => "File name too long (os error 36)"
  | .notUtf8 => "stream did not contain valid UTF-8"
  | .nulByte => "file name contained an unexpected NUL byte"

end Fault

/-- The entries below the root directory, and the place that relative paths start from. -/
structure Disk where
  entries : List (Place × Entry)
  workingPlace : Place
  deriving DecidableEq, Repr

/-- Where a path leads: to an entry, or to a free name in an existing directory. -/
inductive Spot where
  | taken (place : Place) (entry : Entry)
  | free (place : Place) (slashAfter : Bool)
  deriving DecidableEq, Repr

namespace Disk

def find? (place : Place) : List (Place × Entry) → Option Entry
  | [] => none
  | (p, e) :: rest => if p = place then some e else find? place rest

def entry? (d : Disk) (place : Place) : Option Entry :=
  if place = [] then some .directory else find? place d.entries

def putIn (place : Place) (e : Entry) : List (Place × Entry) → List (Place × Entry)
  | [] => [(place, e)]
  | (p, x) :: rest => if p = place then (place, e) :: rest else (p, x) :: putIn place e rest

def put (d : Disk) (place : Place) (e : Entry) : Disk :=
  { d with entries := putIn place e d.entries }

/-- Follows components from the entry at `place`. -/
def walk (d : Disk) (place : Place) (entry : Entry) : List Text → Except Fault Spot
  | [] => .ok (.taken place entry)
  | name :: rest =>
    if entry ≠ .directory then .error .notDirectory
    else if name = [] ∨ name = ['.'] then d.walk place entry rest
    else if name = ['.', '.'] then d.walk place.dropLast .directory rest
    else if 255 < Text.bytes name then .error .nameTooLong
    else match d.entry? (place ++ [name]) with
      | some e => d.walk (place ++ [name]) e rest
      | none =>
        if rest.all List.isEmpty then .ok (.free (place ++ [name]) !rest.isEmpty)
        else .error .missing

def locate (d : Disk) (path : Path) : Except Fault Spot :=
  if '\x00' ∈ path then .error .nulByte
  else if path = [] then .error .missing
  else if 4096 ≤ Text.bytes path then .error .nameTooLong
  else
    let start := if path.isAbsolute then [] else d.workingPlace
    d.walk start .directory (Text.split '/' path)

def entryAt (d : Disk) (path : Path) : Except Fault Entry :=
  match d.locate path with
  | .ok (.taken _ e) => .ok e
  | .ok (.free ..) => .error .missing
  | .error f => .error f

/-- Whether something is there; a path that cannot be followed to its end is an error only if it
leads through something else than a directory or has an impossible name. -/
def exists? (d : Disk) (path : Path) : Except Fault Bool :=
  match d.entryAt path with
  | .ok _ => .ok true
  | .error .missing => .ok false
  | .error f => .error f

def isFile (d : Disk) (path : Path) : Bool :=
  match d.entryAt path with
  | .ok (.file _) => true
  | _ => false

def isDirectory (d : Disk) (path : Path) : Bool :=
  match d.entryAt path with
  | .ok .directory => true
  | _ => false

def read (d : Disk) (path : Path) : Except Fault Text :=
  match d.entryAt path with
  | .ok (.file (.text t)) => .ok t
  | .ok (.file (.binary _)) => .error .notUtf8
  | .ok .directory => .error .isDirectory
  | .error f => .error f

/-- Gives a file a new content, or creates it in an existing directory. -/
def write (d : Disk) (path : Path) (t : Text) : Except Fault Disk :=
  match d.locate path with
  | .ok (.taken place (.file _)) => .ok (d.put place (.file (.text t)))
  | .ok (.taken _ .directory) => .error .isDirectory
  | .ok (.free _ true) => .error .isDirectory
  | .ok (.free place false) => .ok (d.put place (.file (.text t)))
  | .error f => .error f

def makeDirectory (d : Disk) (path : Path) : Except Fault Disk :=
  match d.locate path with
  | .ok (.taken ..) => .error .present
  | .ok (.free place _) => .ok (d.put place .directory)
  | .error f => .error f

/-- What becomes of a directory that could not be made: no error if it is there all the same. -/
def settle (d : Disk) (path : Path) (f : Fault) : Disk × Except Fault Unit :=
  if d.isDirectory path then (d, .ok ()) else (d, .error f)

/-- Makes a directory of which only an ancestor may exist, nearest first. Directories made before
a failure stay. -/
def makeChain (d : Disk) : List Path → Disk × Except Fault Unit
  | [] => (d, .ok ())
  | path :: ancestors =>
    if path = [] then (d, .ok ())
    else match d.makeDirectory path with
      | .ok d => (d, .ok ())
      | .error .missing =>
        match d.makeChain ancestors with
        | (d, .error f) => (d, .error f)
        | (d, .ok ()) =>
          match d.makeDirectory path with
          | .ok d => (d, .ok ())
          | .error f => settle d path f
      | .error f => settle d path f

def makeDirectories (d : Disk) (path : Path) : Disk × Except Fault Unit :=
  d.makeChain path.ancestors

/-- The path of the working directory. -/
def workingPath (d : Disk) : Path :=
  if d.workingPlace = [] then ['/'] else d.workingPlace.flatMap ('/' :: ·)

end Disk

end Scaffold
