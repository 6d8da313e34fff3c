import Scaffold.Command.Run
import Std.Time.Zoned

/-!
The program: takes the part of the file system that a run may look at into a disk, runs the
command on it, and writes back what the run changed.
-/

namespace Scaffold.Main

private def placeOf (path : String) : Place := (Text.split '/' path.toList).filter (!·.isEmpty)

private def contentOf (bytes : ByteArray) : Content :=
  match String.fromUTF8? bytes with
  | some s => .text s.toList
  | none => .binary bytes.toList

/-- The directories above a place, the root left out. -/
private def above (place : Place) : List Place :=
  (List.range place.length).filterMap fun n => if n = 0 then none else some (place.take n)

private def textOf (place : Place) : String := String.ofList (place.flatMap ('/' :: ·))

/-- Adds what is at and below a path, links followed. -/
private def addTree (d : Disk) (path : Path) : IO Disk := do
  let start ← try IO.FS.realPath (String.ofList path) catch _ => return d
  let place := placeOf start.toString
  let d := (above place).foldl (fun d p => d.put p .directory) d
  let below ← if ← start.isDir then start.walkDir else pure #[]
  (#[start] ++ below).foldlM (fun d p => do
    let place := placeOf p.toString
    try
      if ← p.isDir then return d.put place .directory
      return d.put place (.file (contentOf (← IO.FS.readBinFile p)))
    catch _ => return d) d

private def addTrees (d : Disk) (paths : List Path) : IO Disk := paths.foldlM addTree d

/-- Where a run may read or write besides the working directory. -/
private def otherTrees (d : Disk) (env : List (Text × Text)) : Invocation → List Path
  | ⟨_, .make o⟩ => roots ++ parentOf o.stub ++ o.output.toList
  | ⟨_, .info query⟩ => roots ++ parentOf query
where
  roots : List Path :=
    match Config.load d env with
    | .ok c => c.localRoot :: c.globalRoot.toList
    | .error _ => []
  parentOf (query : Text) : List Path :=
    ((Path.parent? query).filter (!·.isEmpty)).toList

/-- Writes the entries that a run made or changed, directories before what they hold. -/
private def writeBack (before after : Disk) : IO Unit :=
  after.entries.forM fun (place, entry) => do
    if before.entry? place ≠ some entry then
      match entry with
      | .directory => IO.FS.createDirAll (textOf place)
      | .file (.text t) => IO.FS.writeFile (textOf place) (String.ofList t)
      | .file (.binary _) => pure ()

/-- The variables of the environment that settings may come from. -/
private def environment : IO (List (Text × Text)) := do
  let names := ["home", "stubs_dir", "extension"].flatMap fun name =>
    ["stuble_" ++ name, "STUBLE_" ++ name.toUpper]
  names.filterMapM fun name => do
    pure ((← IO.getEnv name).map fun value => (name.toList, value.toList))

private def moment : IO Moment := do
  try
    let now ← Std.Time.DateTime.now
    pure ⟨now.toTimestamp.toSecondsSinceUnixEpoch.val, now.timezone.offset.second.val⟩
  catch _ => pure ⟨(← Std.Time.Timestamp.now).toSecondsSinceUnixEpoch.val, 0⟩

def run (args : List Text) : IO UInt8 := do
  let working ← IO.currentDir
  let env ← environment
  let d ← addTree ⟨[], placeOf working.toString⟩ working.toString.toList
  let d ← match Invocation.ofArguments args with
    | .ok invocation => addTrees d (otherTrees d env invocation)
    | .error _ => pure d
  let (after, report) := Command.run d env (← moment) args
  writeBack d after
  IO.print report.stdout
  IO.eprint report.stderr
  pure report.code

end Scaffold.Main

def main (args : List String) : IO UInt32 := do
  let code ← Scaffold.Main.run (args.map String.toList)
  pure code.toUInt32
