import Scaffold.Yaml.Node
import Scaffold.Yaml.Schema

/-!
The value that a YAML text describes. An alias stands for the node with its anchor; a node within
itself, or so many aliases that the value would grow out of all proportion, are refused.
-/

namespace Scaffold.Yaml

namespace Node

/-- The anchors met so far. A name that is given again takes the number of names as its number, so
it may come to share that number with the next new name. -/
abbrev Anchors := Bindings Nat

def define (anchor : Option Text) (seen : Anchors) : Option Nat × Anchors :=
  match anchor with
  | none => (none, seen)
  | some name => (some seen.length, seen.insert name seen.length)

mutual

/-- Numbers anchors and aliases in document order. An alias must come after its anchor. -/
def link? (seen : Anchors) : Node Text → Option (Node Nat × Anchors)
  | .alias name => do
    let number ← seen.get? name
    pure (.alias number, seen)
  | .scalar anchor tag isPlain text =>
    let (number, seen) := define anchor seen
    some (.scalar number tag isPlain text, seen)
  | .sequence anchor tag items => do
    let (number, seen) := define anchor seen
    let (items, seen) ← linkItems? seen items
    pure (.sequence number tag items, seen)
  | .mapping anchor tag pairs => do
    let (number, seen) := define anchor seen
    let (pairs, seen) ← linkPairs? seen pairs
    pure (.mapping number tag pairs, seen)

def linkItems? (seen : Anchors) : List (Node Text) → Option (List (Node Nat) × Anchors)
  | [] => some ([], seen)
  | n :: ns => do
    let (n, seen) ← link? seen n
    let (ns, seen) ← linkItems? seen ns
    pure (n :: ns, seen)

def linkPairs? (seen : Anchors) :
    List (Node Text × Node Text) → Option (List (Node Nat × Node Nat) × Anchors)
  | [] => some ([], seen)
  | (k, v) :: ps => do
    let (k, seen) ← link? seen k
    let (v, seen) ← link? seen v
    let (ps, seen) ← linkPairs? seen ps
    pure ((k, v) :: ps, seen)

end

mutual

/-- The nodes with an anchor, in document order. -/
def anchored : Node Nat → List (Nat × Node Nat)
  | .alias _ => []
  | n@(.scalar anchor ..) => anchor.toList.map (·, n)
  | n@(.sequence anchor _ items) => anchor.toList.map (·, n) ++ anchoredItems items
  | n@(.mapping anchor _ pairs) => anchor.toList.map (·, n) ++ anchoredPairs pairs

def anchoredItems : List (Node Nat) → List (Nat × Node Nat)
  | [] => []
  | n :: ns => anchored n ++ anchoredItems ns

def anchoredPairs : List (Node Nat × Node Nat) → List (Nat × Node Nat)
  | [] => []
  | (k, v) :: ps => anchored k ++ anchored v ++ anchoredPairs ps

end

mutual

/-- How many events tell of a node: one of a scalar or an alias, two of a collection. -/
def eventCount : Node Nat → Nat
  | .alias _ | .scalar .. => 1
  | .sequence _ _ items => 2 + eventCountItems items
  | .mapping _ _ pairs => 2 + eventCountPairs pairs

def eventCountItems : List (Node Nat) → Nat
  | [] => 0
  | n :: ns => eventCount n + eventCountItems ns

def eventCountPairs : List (Node Nat × Node Nat) → Nat
  | [] => 0
  | (k, v) :: ps => eventCount k + eventCount v + eventCountPairs ps

end

/-- The anchored nodes, and how many aliases may still be followed. -/
abbrev Reading := StateT Nat Option

def follow (targets : List (Nat × Node Nat)) : Node Nat → Reading (Node Nat)
  | .alias number => do
    match (← get) with
    | 0 => failure
    | left + 1 =>
      set left
      match targets.reverse.lookup number with
      | some n => pure n
      | none => failure
  | n => pure n

def isOwnTag (tag : Option Text) : Bool := tag.any (·.head? == some '!')

/-- The text of a key, whatever it would stand for as a value. -/
def keyText (targets : List (Nat × Node Nat)) (n : Node Nat) : Reading Text := do
  match ← follow targets n with
  | .scalar _ _ _ text => pure text
  | _ => failure

/-- Collections nest no deeper than `depth`. -/
def data (targets : List (Nat × Node Nat)) : Nat → Node Nat → Reading Data
  | 0, n => do
    match ← follow targets n with
    | .scalar _ tag isPlain text => StateT.lift (scalarData? tag isPlain text)
    | _ => failure
  | depth + 1, n => do
    match ← follow targets n with
    | .scalar _ tag isPlain text => StateT.lift (scalarData? tag isPlain text)
    | .sequence _ tag items =>
      if isOwnTag tag then failure
      else do
        let items ← items.mapM (data targets depth)
        pure (.list items)
    | .mapping _ tag pairs =>
      if isOwnTag tag then failure
      else do
        let fields ← pairs.foldlM
          (fun (fields : Bindings Data) (p : Node Nat × Node Nat) => do
            let name ← keyText targets p.1
            let d ← data targets depth p.2
            pure (fields.insert name d)) []
        pure (.object fields)
    | .alias _ => failure

/-- Collections nest no deeper than this. -/
def maxDepth : Nat := 128

def toData? (n : Node Text) : Option Data := do
  let (n, _) ← link? [] n
  let (d, _) ← (data (anchored n) maxDepth n).run (100 * eventCount n)
  pure d

end Node

/-- The value of the only document of a text, and nothing if it has no document. -/
def ofText? (t : Text) : Option Data := do
  match ← Node.ofText? t with
  | [] => pure .null
  | [n] => n.toData?
  | _ => none

end Scaffold.Yaml
