import Scaffold.Rendered
import Scaffold.Stub

/-!
Rendering: each tag of a stub gives way to its value. Helpers are called with what they may see of
the stub; `put` renders another stub in turn, and its nesting is limited, so every render ends.
-/

namespace Scaffold

/-- What a render draws on besides the stub: the files that `put` reads, and the time. -/
structure Surroundings where
  read : Path → Except Fault Text
  now : Moment

/-- The stub that calls a helper: its file and registry, its values, and the number of `put`
calls around it. -/
structure Caller where
  path : Option Path
  registry : Registry
  values : Bindings Text
  depth : Nat

namespace Caller

def view (c : Caller) : HelperView :=
  ⟨c.path, c.depth, c.values, c.registry.filters, c.registry.helperNames⟩

end Caller

/-- How the helper of a given name is called. -/
abbrev HelperCall := Caller → Text → List Value → Except StubError Text

namespace Stub

def caller (s : Stub) (values : Bindings Text) (depth : Nat) : Caller :=
  ⟨s.path, s.registry, s.scope values, depth⟩

/-- The value of a tag before its filters. For a parameter it is the value given, or else the
default of the tag, or else the effective value of its key. -/
def baseValue (call : HelperCall) (c : Caller) (values : Bindings Text) (p : Placeholder) :
    Except StubError Text :=
  if p.isHelper then call c p.key (p.args.map (·.resolve c.values))
  else match supplied? values p.key with
    | some value => .ok value
    | none =>
      if p.default.isEmpty then .ok ((c.values.get? p.key).getD []) else .ok p.default

def applyFilters (c : Caller) (filters : List FilterCall) (value : Text) :
    Except StubError Text :=
  filters.foldlM (fun value f => c.registry.applyFilter f.name value
    (f.args.map (·.resolve c.values))) value

/-- The text that a tag gives way to. -/
def resolve (call : HelperCall) (c : Caller) (values : Bindings Text) (p : Placeholder) :
    Except StubError Text := do
  let value ← baseValue call c values p
  applyFilters c p.filters value

/-- Puts the value of each tag for every occurrence of its text, one tag after the other. -/
def substitute (call : HelperCall) (s : Stub) (values : Bindings Text) (depth : Nat) :
    Except StubError Text :=
  let c := s.caller values depth
  s.pending.foldlM (fun text p => do
    let value ← resolve call c values p
    pure (Text.replace p.code value text)) s.source

end Stub

/-- How many `put` calls may lie around a stub. -/
def maxPutDepth : Nat := 16

namespace Helper

def defaultDateFormat : Text := ['Y', '-', 'm', '-', 'd']

/-- The file that `put` reads: it lies beside the file of the calling stub, and has the ending
`.stub` even if the name is written without it. -/
def siblingPath (caller : Option Path) (name : Text) : Path :=
  let dir := ((caller.bind Path.parent?).getD [])
  let path := Path.join dir (Path.stripSlashes name)
  if Path.extension? path = some "stub".toList then path else path ++ ".stub".toList

/-- Calls a helper from which `levels` further `put` calls may be nested. -/
def callWithin (env : Surroundings) : Nat → HelperCall
  | levels, c, name, args =>
    match c.registry.helpers.get? name with
    | none => .error (.undefinedHelper name)
    | some (.custom run) => run c.view args
    | some .date =>
      .ok (DateFormat.format env.now ((args.head?.map Value.toText).getD defaultDateFormat))
    | some .put =>
      match args, levels with
      | [], _ => .error (.invalidArguments "put".toList "expected a stub file name".toList)
      | file :: _, 0 => .error (.nestedTooDeep (siblingPath c.path file.toText))
      | file :: _, levels + 1 => do
        let path := siblingPath c.path file.toText
        let source ← (env.read path).mapError (.unreadable path)
        let stub : Stub := ⟨source, some path, c.registry⟩
        let text ← stub.substitute (callWithin env levels) c.values (c.depth + 1)
        let rendered ← Rendered.ofText text
        pure rendered.body

def call (env : Surroundings) : HelperCall := fun c => callWithin env (maxPutDepth - c.depth) c

end Helper

namespace Stub

def load (read : Path → Except Fault Text) (path : Path) (registry : Registry) :
    Except StubError Stub := do
  let source ← (read path).mapError (.unreadable path)
  pure ⟨source, some path, registry⟩

/-- The rendered text, front matter included. -/
def renderText (env : Surroundings) (s : Stub) (values : Bindings Text) :
    Except StubError Text :=
  s.substitute (Helper.call env) values 0

def render (env : Surroundings) (s : Stub) (values : Bindings Text) :
    Except StubError Rendered := do
  let text ← s.renderText env values
  Rendered.ofText text

end Stub

end Scaffold
