import Scaffold.Proofs.Yaml.Stream
import Scaffold.Yaml.Node

/-!
The node that the tokens of a written value are read as (`Node.node?_stream`). A list below its key
has no tokens for its start and its end, and is read by a rule of its own.
-/

namespace Scaffold.Yaml

open Printer

mutual

/-- The node of a written value. -/
def nodeOf (ref : Type) : Data → Node ref
  | .null => .scalar none none true "null".toList
  | .bool true => .scalar none none true "true".toList
  | .bool false => .scalar none none true "false".toList
  | .int n => .scalar none none true (Decimal.intText n)
  | .float x => .scalar none none true (Data.floatText x)
  | .text t => .scalar none none (Style.of t = .plain) t
  | .list items => .sequence none none (itemNodes ref items)
  | .object fields => .mapping none none (fieldNodes ref fields)

def itemNodes (ref : Type) : List Data → List (Node ref)
  | [] => []
  | d :: ds => nodeOf ref d :: itemNodes ref ds

def fieldNodes (ref : Type) : List (Text × Data) → List (Node ref × Node ref)
  | [] => []
  | (key, d) :: fields =>
    (.scalar none none (Style.of key = .plain) key, nodeOf ref d) :: fieldNodes ref fields

end

namespace Node

variable {handles : Handles}

/-! ## One rule of the grammar -/

section Rule

variable {indentless : Bool} {fuel : Nat} {ts us vs : List Token}

theorem node?_scalar (block : Bool) (isPlain : Bool) (t : Text) :
    node? handles block indentless (fuel + 1) (.scalar isPlain t :: ts) =
      some (.scalar none none isPlain t, ts) := rfl

theorem node?_items {ns : List (Node Text)} (h : blockItems? handles fuel ts = some (ns, us)) :
    node? handles true indentless (fuel + 1) (.blockSequenceStart :: ts) =
      some (.sequence none none ns, us) := by
  have hnode : node? handles true indentless (fuel + 1) (.blockSequenceStart :: ts) =
      (blockItems? handles fuel ts).bind fun p => some (.sequence none none p.1, p.2) := rfl
  rw [hnode, h]
  rfl

theorem node?_pairs {ps : List (Node Text × Node Text)}
    (h : blockPairs? handles fuel ts = some (ps, us)) :
    node? handles true indentless (fuel + 1) (.blockMappingStart :: ts) =
      some (.mapping none none ps, us) := by
  have hnode : node? handles true indentless (fuel + 1) (.blockMappingStart :: ts) =
      (blockPairs? handles fuel ts).bind fun p => some (.mapping none none p.1, p.2) := rfl
  rw [hnode, h]
  rfl

theorem node?_indentless {ns : List (Node Text)}
    (h : indentlessItems? handles fuel (.blockEntry :: ts) = some (ns, us)) :
    node? handles true true (fuel + 1) (.blockEntry :: ts) = some (.sequence none none ns, us) := by
  have hnode : node? handles true true (fuel + 1) (.blockEntry :: ts) =
      (indentlessItems? handles fuel (.blockEntry :: ts)).bind fun p =>
        some (.sequence none none p.1, p.2) := rfl
  rw [hnode, h]
  rfl

theorem blockItems?_cons {n : Node Text} {ns : List (Node Text)} (hends : endsEntry ts = false)
    (hitem : node? handles true false fuel ts = some (n, us))
    (hitems : blockItems? handles fuel us = some (ns, vs)) :
    blockItems? handles (fuel + 1) (.blockEntry :: ts) = some (n :: ns, vs) := by
  rw [blockItems?, if_neg (by simp [hends]), hitem]
  simp [hitems]

theorem indentlessItems?_cons {n : Node Text} {ns : List (Node Text)} (hends : endsItem ts = false)
    (hitem : node? handles true false fuel ts = some (n, us))
    (hitems : indentlessItems? handles fuel us = some (ns, vs)) :
    indentlessItems? handles (fuel + 1) (.blockEntry :: ts) = some (n :: ns, vs) := by
  rw [indentlessItems?, if_neg (by simp [hends]), hitem]
  simp [hitems]

theorem blockPairs?_cons {key value : Node Text} {ps : List (Node Text × Node Text)}
    {ws : List Token} (hkeyEnds : endsPart ts = false)
    (hkey : node? handles true true fuel ts = some (key, .value :: us))
    (hends : endsPart us = false) (hvalue : node? handles true true fuel us = some (value, vs))
    (hpairs : blockPairs? handles fuel vs = some (ps, ws)) :
    blockPairs? handles (fuel + 1) (.key :: ts) = some ((key, value) :: ps, ws) := by
  rw [blockPairs?, if_neg (by simp [hkeyEnds]), hkey]
  simp [hends, hvalue, hpairs]

end Rule

/-! ## The node of a written value -/

/-- Whether a node may begin with a token, other than a list that is not indented. -/
def beginsNode : Token → Bool
  | .blockEntry | .blockEnd | .key | .value => false
  | _ => true

theorem stream_cons (d : Data) : ∃ t ts, stream d = t :: ts ∧ beginsNode t = true := by
  cases d with
  | null => exact ⟨_, _, rfl, rfl⟩
  | bool b => cases b <;> exact ⟨_, _, rfl, rfl⟩
  | int n => exact ⟨_, _, by rw [stream], rfl⟩
  | float x => exact ⟨_, _, by rw [stream], rfl⟩
  | text t => exact ⟨_, _, by rw [stream], rfl⟩
  | list items =>
    cases items with
    | nil => exact ⟨_, _, rfl, rfl⟩
    | cons d ds => exact ⟨_, _, stream_items d ds, rfl⟩
  | object fields =>
    cases fields with
    | nil => exact ⟨_, _, rfl, rfl⟩
    | cons field fields => exact ⟨_, _, stream_fields field fields, rfl⟩

/-- A value is there, so no empty scalar stands for it. -/
theorem ends_stream (d : Data) (ts : List Token) : endsEntry (stream d ++ ts) = false ∧
    endsItem (stream d ++ ts) = false ∧ endsPart (stream d ++ ts) = false := by
  obtain ⟨t, us, hstream, ht⟩ := stream_cons d
  rw [hstream, List.cons_append]
  cases t <;> first | exact ⟨rfl, rfl, rfl⟩ | cases ht

theorem head?_fieldStream (fields : List (Text × Data)) (ts : List Token) :
    (fieldStream fields ++ .blockEnd :: ts).head? ≠ some .blockEntry := by
  cases fields with
  | nil => nofun
  | cons field fields =>
    rw [fieldStream_cons]
    nofun

/-- The node of a value behind its key. -/
theorem node?_valueStream (key : Text) {d : Data} {fuel : Nat} {ts : List Token}
    (hd : ∀ {indentless : Bool} {fuel : Nat} {ts : List Token}, (stream d).length < fuel →
      node? handles true indentless fuel (stream d ++ ts) = some (nodeOf Text d, ts))
    (hitems : ∀ x xs, d = .list (x :: xs) → ∀ {fuel : Nat} {ts : List Token},
      (itemStream (x :: xs)).length < fuel → ts.head? ≠ some .blockEntry →
        indentlessItems? handles fuel (itemStream (x :: xs) ++ ts) =
          some (itemNodes Text (x :: xs), ts))
    (hfuel : (valueStream key d).length + 1 < fuel) (hts : ts.head? ≠ some .blockEntry) :
    endsPart (valueStream key d ++ ts) = false ∧
      node? handles true true fuel (valueStream key d ++ ts) = some (nodeOf Text d, ts) := by
  have hplain : (stream d).length + 1 < fuel → endsPart (stream d ++ ts) = false ∧
      node? handles true true fuel (stream d ++ ts) = some (nodeOf Text d, ts) := fun h =>
    ⟨(ends_stream d ts).2.2, hd (by omega)⟩
  unfold valueStream at hfuel ⊢
  split at hfuel
  · next x xs =>
    split at hfuel
    · next hkey =>
      rw [if_pos hkey]
      obtain ⟨fuel, rfl⟩ : ∃ k, fuel = k + 1 := ⟨fuel - 1, by omega⟩
      have hread : indentlessItems? handles fuel (itemStream (x :: xs) ++ ts) =
          some (itemNodes Text (x :: xs), ts) := hitems x xs rfl (by omega) hts
      rw [itemStream_cons] at hread ⊢
      exact ⟨rfl, (node?_indentless hread).trans (by rw [nodeOf])⟩
    · next hkey =>
      rw [if_neg hkey]
      exact hplain hfuel
  · exact hplain hfuel

mutual

theorem node?_stream : ∀ (d : Data) {indentless : Bool} {fuel : Nat} {ts : List Token},
    (stream d).length < fuel →
      node? handles true indentless fuel (stream d ++ ts) = some (nodeOf Text d, ts)
  | .null, _, fuel + 1, ts, _ => rfl
  | .bool true, _, fuel + 1, ts, _ => rfl
  | .bool false, _, fuel + 1, ts, _ => rfl
  | .int n, _, fuel + 1, ts, _ => by
    rw [stream, nodeOf]
    rfl
  | .float x, _, fuel + 1, ts, _ => by
    rw [stream, nodeOf]
    rfl
  | .text t, _, fuel + 1, ts, _ => by
    rw [stream, nodeOf]
    rfl
  | .list [], _, fuel + 2, ts, _ => rfl
  | .object [], _, fuel + 2, ts, _ => rfl
  | .list (d :: ds), _, fuel + 1, ts, hfuel => by
    rw [stream_items] at hfuel ⊢
    simp only [List.cons_append, List.length_cons, List.length_append] at hfuel
    rw [List.cons_append, List.cons_append, List.append_assoc, nodeOf]
    exact node?_items (blockItems?_stream (d :: ds) (by omega))
  | .object (field :: fields), _, fuel + 1, ts, hfuel => by
    rw [stream_fields] at hfuel ⊢
    simp only [List.cons_append, List.length_cons, List.length_append] at hfuel
    rw [List.cons_append, List.cons_append, List.append_assoc, nodeOf]
    exact node?_pairs (blockPairs?_stream (field :: fields) (by omega))

theorem blockItems?_stream : ∀ (ds : List Data) {fuel : Nat} {ts : List Token},
    (itemStream ds).length < fuel →
      blockItems? handles fuel (itemStream ds ++ .blockEnd :: ts) = some (itemNodes Text ds, ts)
  | [], fuel + 1, ts, _ => rfl
  | d :: ds, fuel + 1, ts, hfuel => by
    rw [itemStream_cons] at hfuel ⊢
    simp only [List.length_append, List.length_singleton] at hfuel
    rw [List.append_assoc, List.append_assoc]
    exact blockItems?_cons (ends_stream d _).1 (node?_stream d (by omega))
      (blockItems?_stream ds (by omega))

theorem indentlessItems?_stream : ∀ (ds : List Data) {fuel : Nat} {ts : List Token},
    (itemStream ds).length < fuel → ts.head? ≠ some .blockEntry →
      indentlessItems? handles fuel (itemStream ds ++ ts) = some (itemNodes Text ds, ts)
  | [], fuel + 1, ts, _, hts => by
    cases ts with
    | nil => rfl
    | cons t ts =>
      cases t <;> first | rfl | exact absurd rfl hts
  | d :: ds, fuel + 1, ts, hfuel, hts => by
    rw [itemStream_cons] at hfuel ⊢
    simp only [List.length_append, List.length_singleton] at hfuel
    rw [List.append_assoc, List.append_assoc]
    exact indentlessItems?_cons (ends_stream d _).2.1 (node?_stream d (by omega))
      (indentlessItems?_stream ds (by omega) hts)

theorem blockPairs?_stream : ∀ (fields : List (Text × Data)) {fuel : Nat} {ts : List Token},
    (fieldStream fields).length < fuel →
      blockPairs? handles fuel (fieldStream fields ++ .blockEnd :: ts) =
        some (fieldNodes Text fields, ts)
  | [], fuel + 1, ts, _ => rfl
  | (key, d) :: fields, fuel + 1, ts, hfuel => by
    rw [fieldStream_cons] at hfuel ⊢
    simp only [List.length_append, List.length_cons, List.length_nil] at hfuel
    obtain ⟨hends, hvalue⟩ := node?_valueStream key (node?_stream d)
      (by rintro x xs rfl; exact indentlessItems?_stream (x :: xs)) (show _ < fuel by omega)
      (head?_fieldStream fields ts)
    rw [List.append_assoc, List.append_assoc]
    refine blockPairs?_cons rfl ?_ hends hvalue (blockPairs?_stream fields (by omega))
    obtain ⟨fuel, rfl⟩ : ∃ k, fuel = k + 1 := ⟨fuel - 1, by omega⟩
    exact node?_scalar _ _ key

end

end Node

end Scaffold.Yaml
