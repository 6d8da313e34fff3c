import Scaffold.Text

/-!
Paths as texts: components stand between slashes, and a path is never normalised, only read. The
empty component and the component `.` count as nothing, but for a leading `.`.
-/

namespace Scaffold

abbrev Path := Text

namespace Path

def isAbsolute (p : Path) : Bool := p.head? = some '/'

/-- An absolute second path replaces the first; otherwise one slash stands between the two. -/
def join (dir rel : Path) : Path :=
  if isAbsolute rel || dir.isEmpty then rel
  else if dir.getLast? = some '/' then dir ++ rel
  else dir ++ '/' :: rel

/-- Drops slashes and dot components from the end of a path that is given backwards, but keeps the
root and a lone dot. -/
private def trimReversed : Text → Text
  | ['/'] => ['/']
  | '/' :: r => trimReversed r
  | '.' :: '/' :: r => trimReversed ('/' :: r)
  | r => r
termination_by r => r.length

/-- The last component and the path before it; none for the root and the empty path. -/
def splitLast? (p : Path) : Option (Path × Text) :=
  let r := trimReversed p.reverse
  if r = [] ∨ r = ['/'] then none
  else
    let before := r.dropWhile (· != '/')
    some ((trimReversed before).reverse, (r.takeWhile (· != '/')).reverse)

def parent? (p : Path) : Option Path := (splitLast? p).map Prod.fst

def fileName? (p : Path) : Option Text :=
  match splitLast? p with
  | some (_, name) => if name = ['.'] ∨ name = ['.', '.'] then none else some name
  | none => none

/-- What follows the last dot of the file name, unless that dot is its first character. -/
def extension? (p : Path) : Option Text :=
  match fileName? p with
  | none => none
  | some name =>
    let ending := (name.reverse.takeWhile (· != '.')).reverse
    if ending.length + 1 < name.length then some ending else none

/-- The path, its parent, the parent of that and so on. -/
def ancestors (p : Path) : List Path :=
  go p.length p
where
  go : Nat → Path → List Path
    | 0, p => [p]
    | n + 1, p =>
      match parent? p with
      | none => [p]
      | some q => p :: go n q

def stripSlashes (p : Path) : Path := p.dropWhile (· == '/')

end Path

end Scaffold
