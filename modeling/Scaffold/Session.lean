import Scaffold.Render

/-!
Registries and stubs under names, and what can be done with them one action after the other. A
stub keeps the registry it was made with: an action on one name changes nothing under another.
-/

namespace Scaffold

/-- Something that is registered. -/
inductive Registration where
  | filter (name : Text) (run : Filter)
  | helper (name : Text) (run : HelperView → List Value → Except StubError Text)
  | inflector (inflector : Inflector)

namespace Registry

def register (r : Registry) : Registration → Registry
  | .filter name run => r.addFilter name run
  | .helper name run => r.addHelper name (.custom run)
  | .inflector i => r.addInflector i

/-- Registers one thing after the other. -/
def replay (r : Registry) (registrations : List Registration) : Registry :=
  registrations.foldl register r

def hasFilter (r : Registry) (name : Text) : Bool := r.filters.contains name

def hasHelper (r : Registry) (name : Text) : Bool := r.helpers.contains name

end Registry

inductive Action where
  /-- A new registry, with the built-in catalog or empty. -/
  | create (id : Text) (builtIn : Bool)
  | copy (id source : Text)
  | register (id : Text) (registration : Registration)
  | names (id : Text)
  | has (id name : Text)
  | apply (id name value : Text) (args : List Value)
  | call (id name : Text) (args : List Value) (path : Option Path) (values : Bindings Text)
    (depth : Nat)
  | makeStub (id registry source : Text)
  | loadStub (id registry : Text) (path : Path)
  | copyStub (id source : Text)
  | registerOnStub (id : Text) (registration : Registration)
  | describe (id : Text)
  | render (id : Text) (values : Bindings Text)

inductive Answer where
  | done
  | names (filters helpers : List Text)
  | has (filter helper : Bool)
  | text (t : Text)
  | stub (s : Stub)
  | rendered (r : Rendered)
  | failed (e : StubError)
  /-- Nothing has the name that the action is about. -/
  | unknown

structure Session where
  registries : Bindings Registry
  stubs : Bindings Stub

namespace Session

def empty : Session := ⟨[], []⟩

def putRegistry (s : Session) (id : Text) (r : Registry) : Session × Answer :=
  ({ s with registries := s.registries.insert id r }, .done)

def putStub (s : Session) (id : Text) (stub : Stub) : Session × Answer :=
  ({ s with stubs := s.stubs.insert id stub }, .done)

/-- Goes on with what has the name, in a session that it leaves as it is if nothing has. -/
def withEntry {α : Type} (s : Session) (entry : Option α) (f : α → Session × Answer) :
    Session × Answer :=
  match entry with
  | some a => f a
  | none => (s, .unknown)

def answer {α : Type} (f : α → Answer) : Except StubError α → Answer
  | .ok a => f a
  | .error e => .failed e

def perform (env : Surroundings) (s : Session) : Action → Session × Answer
  | .create id builtIn => s.putRegistry id (if builtIn then .default else .empty)
  | .copy id source => s.withEntry (s.registries.get? source) (s.putRegistry id)
  | .register id registration =>
    s.withEntry (s.registries.get? id) fun r => s.putRegistry id (r.register registration)
  | .names id =>
    s.withEntry (s.registries.get? id) fun r => (s, .names r.filterNames r.helperNames)
  | .has id name =>
    s.withEntry (s.registries.get? id) fun r => (s, .has (r.hasFilter name) (r.hasHelper name))
  | .apply id name value args =>
    s.withEntry (s.registries.get? id) fun r => (s, answer .text (r.applyFilter name value args))
  | .call id name args path values depth =>
    s.withEntry (s.registries.get? id) fun r =>
      (s, answer .text (Helper.call env ⟨path, r, values, depth⟩ name args))
  | .makeStub id registry source =>
    s.withEntry (s.registries.get? registry) fun r => s.putStub id (.ofSource source r)
  | .loadStub id registry path =>
    s.withEntry (s.registries.get? registry) fun r =>
      match Stub.load env.read path r with
      | .ok stub => s.putStub id stub
      | .error e => (s, .failed e)
  | .copyStub id source => s.withEntry (s.stubs.get? source) (s.putStub id)
  | .registerOnStub id registration =>
    s.withEntry (s.stubs.get? id) fun stub =>
      s.putStub id { stub with registry := stub.registry.register registration }
  | .describe id => s.withEntry (s.stubs.get? id) fun stub => (s, .stub stub)
  | .render id values =>
    s.withEntry (s.stubs.get? id) fun stub => (s, answer .rendered (stub.render env values))

/-- The answers of a sequence of actions. -/
def run (env : Surroundings) (s : Session) : List Action → List Answer
  | [] => []
  | a :: actions =>
    let (s, answer) := s.perform env a
    answer :: s.run env actions

end Session

end Scaffold
