import Scaffold.Config.Basic

/-!
Finding the file of a stub by a query: a name below the stub directories, which may be restricted
to one of them, or a path.
-/

namespace Scaffold

inductive StubRoot where
  | inWorkingDir
  | inHome
  deriving DecidableEq, Repr

namespace StubRoot

def name : StubRoot → String
  | .inWorkingDir => "local"
  | .inHome => "global"

end StubRoot

structure Query where
  root : Option StubRoot
  name : Text
  deriving DecidableEq, Repr

namespace Query

private def stripLabel? (root : StubRoot) (t : Text) : Option Text :=
  let label := root.name.toList ++ [':']
  if label.isPrefixOf t then some (t.drop label.length) else none

def ofText (t : Text) : Query :=
  match stripLabel? .inWorkingDir t, stripLabel? .inHome t with
  | some name, _ => ⟨some .inWorkingDir, name⟩
  | none, some name => ⟨some .inHome, name⟩
  | none, none => ⟨none, t⟩

end Query

namespace Config

/-- The file name of a stub; the ending may be given or left out. -/
def fileName (c : Config) (name : Text) : Path :=
  if Path.extension? name = some c.extension then name else name ++ '.' :: c.extension

/-- The directories to look in. -/
def roots (c : Config) : Option StubRoot → List Path
  | some .inWorkingDir => [c.localRoot]
  | some .inHome => c.globalRoot.toList
  | none => c.localRoot :: c.globalRoot.toList

/-- The first file of that name in the stub directories. -/
def find? (c : Config) (d : Disk) (query : Text) : Option Path :=
  let q := Query.ofText query
  let file := c.fileName (Path.stripSlashes q.name)
  ((c.roots q.root).map (Path.join · file)).find? d.isFile

/-- The stub of that name, or else the file at that path in the working directory; a path needs an
ending. -/
def resolve? (c : Config) (d : Disk) (query : Text) : Option Path :=
  match c.find? d query with
  | some path => some path
  | none =>
    let path := Path.join c.workingDir query
    if (Path.extension? query).isSome && d.isFile path then some path else none

end Config

end Scaffold
