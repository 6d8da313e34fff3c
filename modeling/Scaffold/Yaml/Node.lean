import Scaffold.Yaml.Token

/-!
The node of a YAML document, as its tokens describe it. Aliases keep what they refer to.
-/

namespace Scaffold.Yaml

/-- Anchors and aliases are names at first, and numbers once it is clear which belong together. -/
inductive Node (ref : Type) where
  | alias (target : ref)
  | scalar (anchor : Option ref) (tag : Option Text) (isPlain : Bool) (text : Text)
  | sequence (anchor : Option ref) (tag : Option Text) (items : List (Node ref))
  | mapping (anchor : Option ref) (tag : Option Text) (pairs : List (Node ref × Node ref))

namespace Node

def empty : Node Text := .scalar none none true []

/-- Anchor and tag in front of a node, before the tag's handle is looked up. -/
structure Properties where
  anchor : Option Text
  tag : Option (Text × Text)

def properties : List Token → Properties × List Token
  | .anchor a :: .tag h e :: ts => (⟨some a, some (h, e)⟩, ts)
  | .tag h e :: .anchor a :: ts => (⟨some a, some (h, e)⟩, ts)
  | .anchor a :: ts => (⟨some a, none⟩, ts)
  | .tag h e :: ts => (⟨none, some (h, e)⟩, ts)
  | ts => (⟨none, none⟩, ts)

/-- What tag handles stand for. -/
abbrev Handles := List (Text × Text)

def tagName? (handles : Handles) : Option (Text × Text) → Option (Option Text)
  | none => some none
  | some ([], ending) => some (some ending)
  | some (handle, ending) => (handles.lookup handle).map fun e => some (e ++ ending)

def endsEntry : List Token → Bool
  | .blockEntry :: _ | .blockEnd :: _ => true
  | _ => false

def endsItem : List Token → Bool
  | .blockEntry :: _ | .key :: _ | .value :: _ | .blockEnd :: _ => true
  | _ => false

def endsPart : List Token → Bool
  | .key :: _ | .value :: _ | .blockEnd :: _ => true
  | _ => false

def endsFlowPair : List Token → Bool
  | .flowEntry :: _ | .flowMappingEnd :: _ => true
  | _ => false

def endsFlowItem : List Token → Bool
  | .flowEntry :: _ | .flowSequenceEnd :: _ => true
  | _ => false

mutual

/-- Reads one node. `block` admits block collections, `indentless` also a sequence whose entries
are not indented further than the key they belong to. -/
def node? (handles : Handles) (block indentless : Bool) :
    Nat → List Token → Option (Node Text × List Token)
  | 0, _ => none
  | _ + 1, .alias name :: ts => some (.alias name, ts)
  | fuel + 1, ts => do
    let (props, ts) := properties ts
    let tag ← tagName? handles props.tag
    match ts with
    | .scalar isPlain text :: ts =>
      pure (.scalar props.anchor (if tag = some ['!'] then none else tag) isPlain text, ts)
    | .flowSequenceStart :: ts =>
      let (items, ts) ← flowItems? handles true fuel ts
      pure (.sequence props.anchor tag items, ts)
    | .flowMappingStart :: ts =>
      let (pairs, ts) ← flowPairs? handles true fuel ts
      pure (.mapping props.anchor tag pairs, ts)
    | .blockEntry :: _ =>
      if indentless then
        let (items, ts) ← indentlessItems? handles fuel ts
        pure (.sequence props.anchor tag items, ts)
      else bare props.anchor tag ts
    | .blockSequenceStart :: rest =>
      if block then
        let (items, ts) ← blockItems? handles fuel rest
        pure (.sequence props.anchor tag items, ts)
      else bare props.anchor tag ts
    | .blockMappingStart :: rest =>
      if block then
        let (pairs, ts) ← blockPairs? handles fuel rest
        pure (.mapping props.anchor tag pairs, ts)
      else bare props.anchor tag ts
    | ts => bare props.anchor tag ts
where
  /-- An anchor or a tag without anything behind it belongs to an empty scalar. -/
  bare (anchor tag : Option Text) (ts : List Token) : Option (Node Text × List Token) :=
    if anchor.isSome || tag.isSome then some (.scalar anchor tag true [], ts) else none

def blockItems? (handles : Handles) :
    Nat → List Token → Option (List (Node Text) × List Token)
  | 0, _ => none
  | fuel + 1, .blockEntry :: ts => do
    let (item, ts) ←
      if endsEntry ts then some (empty, ts) else node? handles true false fuel ts
    let (items, ts) ← blockItems? handles fuel ts
    pure (item :: items, ts)
  | _ + 1, .blockEnd :: ts => some ([], ts)
  | _ + 1, _ => none

def indentlessItems? (handles : Handles) :
    Nat → List Token → Option (List (Node Text) × List Token)
  | 0, _ => none
  | fuel + 1, .blockEntry :: ts => do
    let (item, ts) ←
      if endsItem ts then some (empty, ts) else node? handles true false fuel ts
    let (items, ts) ← indentlessItems? handles fuel ts
    pure (item :: items, ts)
  | _ + 1, ts => some ([], ts)

def blockPairs? (handles : Handles) :
    Nat → List Token → Option (List (Node Text × Node Text) × List Token)
  | 0, _ => none
  | _ + 1, .blockEnd :: ts => some ([], ts)
  | fuel + 1, .key :: ts => do
    let (key, ts) ← if endsPart ts then some (empty, ts) else node? handles true true fuel ts
    let (value, ts) ←
      match ts with
      | .value :: ts => if endsPart ts then some (empty, ts) else node? handles true true fuel ts
      | ts => some (empty, ts)
    let (pairs, ts) ← blockPairs? handles fuel ts
    pure ((key, value) :: pairs, ts)
  | _ + 1, _ => none

def flowItems? (handles : Handles) (first : Bool) :
    Nat → List Token → Option (List (Node Text) × List Token)
  | 0, _ => none
  | _ + 1, .flowSequenceEnd :: ts => some ([], ts)
  | fuel + 1, ts => do
    let ts ← if first then some ts else match ts with
      | .flowEntry :: ts => some ts
      | _ => none
    match ts with
    | .flowSequenceEnd :: ts => pure ([], ts)
    | .key :: ts =>
      let (pair, ts) ← singlePair? handles fuel ts
      let (items, ts) ← flowItems? handles false fuel ts
      pure (.mapping none none [pair] :: items, ts)
    | ts =>
      let (item, ts) ← node? handles false false fuel ts
      let (items, ts) ← flowItems? handles false fuel ts
      pure (item :: items, ts)

/-- The one pair of a mapping that is an item of a sequence in brackets. An empty key takes the
token behind it with it. -/
def singlePair? (handles : Handles) :
    Nat → List Token → Option ((Node Text × Node Text) × List Token)
  | 0, _ => none
  | fuel + 1, ts => do
    let (key, ts) ←
      match ts with
      | .value :: ts | .flowEntry :: ts | .flowSequenceEnd :: ts => some (empty, ts)
      | ts => node? handles false false fuel ts
    let (value, ts) ←
      match ts with
      | .value :: ts =>
        if endsFlowItem ts then some (empty, ts) else node? handles false false fuel ts
      | ts => some (empty, ts)
    pure ((key, value), ts)

def flowPairs? (handles : Handles) (first : Bool) :
    Nat → List Token → Option (List (Node Text × Node Text) × List Token)
  | 0, _ => none
  | _ + 1, .flowMappingEnd :: ts => some ([], ts)
  | fuel + 1, ts => do
    let ts ← if first then some ts else match ts with
      | .flowEntry :: ts => some ts
      | _ => none
    match ts with
    | .flowMappingEnd :: ts => pure ([], ts)
    | .key :: ts =>
      let (key, ts) ←
        match ts with
        | .value :: _ => some (empty, ts)
        | _ => if endsFlowPair ts then some (empty, ts) else node? handles false false fuel ts
      let (value, ts) ←
        match ts with
        | .value :: ts =>
          if endsFlowPair ts then some (empty, ts) else node? handles false false fuel ts
        | ts => some (empty, ts)
      let (pairs, ts) ← flowPairs? handles false fuel ts
      pure ((key, value) :: pairs, ts)
    | ts =>
      let (key, ts) ← node? handles false false fuel ts
      let (pairs, ts) ← flowPairs? handles false fuel ts
      pure ((key, empty) :: pairs, ts)

end

def standardHandles : Handles :=
  [(['!'], ['!']), (['!', '!'], "tag:yaml.org,2002:".toList)]

/-- The directives in front of a document. Each kind of directive is given once for each handle,
and the version is 1.1 or 1.2. -/
def directives? (versionSeen : Bool) (handles : Handles) :
    List Token → Option (Handles × List Token)
  | .versionDirective major minor :: ts =>
    if versionSeen || major ≠ 1 || (minor ≠ 1 && minor ≠ 2) then none
    else directives? true handles ts
  | .tagDirective handle expansion :: ts =>
    if (handles.lookup handle).isSome then none
    else directives? versionSeen (handles ++ [(handle, expansion)]) ts
  | ts => some (handles, ts)

def endsDocument : List Token → Bool
  | [] | .versionDirective .. :: _ | .tagDirective .. :: _ | .documentStart :: _ |
    .documentEnd :: _ => true
  | _ => false

/-- The nodes of a document and what follows it. -/
def document? (fuel : Nat) (isFirst : Bool) (ts : List Token) :
    Option (Node Text × List Token) :=
  match ts with
  | .versionDirective .. :: _ | .tagDirective .. :: _ | .documentStart :: _ => do
    let (handles, ts) ← directives? false [] ts
    match ts with
    | .documentStart :: ts =>
      if endsDocument ts then pure (empty, ts)
      else node? (handles ++ standardHandles) true false fuel ts
    | _ => none
  | ts => if isFirst then node? standardHandles true false fuel ts else none

def documents? : Nat → Bool → List Token → Option (List (Node Text))
  | 0, _, _ => none
  | fuel + 1, isFirst, ts =>
    if ts.isEmpty then some []
    else do
      let (n, rest) ← document? (4 * ts.length + 8) isFirst ts
      let rest := rest.dropWhile (· == .documentEnd)
      let more ← documents? fuel false rest
      pure (n :: more)

/-- The documents of a text, in order. -/
def ofText? (t : Text) : Option (List (Node Text)) := do
  let ts ← tokens? t
  documents? (ts.length + 1) true ts

end Node

end Scaffold.Yaml
