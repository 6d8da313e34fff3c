import Scaffold.Proofs.Data.Valid
import Scaffold.Proofs.Yaml.Block
import Scaffold.Proofs.Yaml.Parse
import Scaffold.Proofs.Yaml.Resolve
import Scaffold.Yaml.Document

/-!
What written options are read as. Main statement: values that a document can describe come back
from their written form, unless they nest too deep to be read (`ofText?_block`).
-/

namespace Scaffold

namespace Data

mutual

/-- How deep lists and objects are nested. -/
def nesting : Data → Nat
  | .null | .bool _ | .int _ | .float _ | .text _ => 0
  | .list items => nestingItems items + 1
  | .object fields => nestingFields fields + 1

def nestingItems : List Data → Nat
  | [] => 0
  | d :: ds => max (nesting d) (nestingItems ds)

def nestingFields : List (Text × Data) → Nat
  | [] => 0
  | (_, d) :: fields => max (nesting d) (nestingFields fields)

end

end Data

namespace Yaml.Node

open Printer Data

variable {targets : List (Nat × Node Nat)}

/-- A reading that succeeds, with no alias followed, if `p` holds. -/
theorem ite_failure_bind {α β : Type} {p : Prop} [Decidable p] (a : α) (f : α → Reading β) :
    (if p then pure a else failure : Reading α) >>= f = if p then f a else failure := by
  split
  · rw [pure_bind]
  · rfl

theorem ite_ite_failure {α : Type} {m n depth : Nat} (r : Reading α) :
    (if m ≤ depth then if n ≤ depth then r else failure else failure) =
      if max m n ≤ depth then r else failure := by
  rw [← ite_and]
  simp only [Nat.max_le]

theorem scalarData?_text (t : Text) : scalarData? none (Style.of t = .plain) t = some (.text t) := by
  rw [scalarData?]
  split
  · next h => exact plainData?_of_readsAsText (admits_of_plain (of_decide_eq_true h)).2.1
  · rfl

theorem data_scalar (depth : Nat) {isPlain : Bool} {t : Text} {d : Data}
    (h : scalarData? none isPlain t = some d) :
    data targets depth (.scalar none none isPlain t) = pure d := by
  have hdata : data targets depth (.scalar none none isPlain t) =
      StateT.lift (scalarData? none isPlain t) := by
    cases depth with
    | zero =>
      rw [data]
      rfl
    | succ depth =>
      rw [data]
      rfl
  rw [hdata, h]
  rfl

theorem data_sequence (depth : Nat) (ns : List (Node Nat)) :
    data targets (depth + 1) (.sequence none none ns) =
      ns.mapM (data targets depth) >>= fun items => pure (.list items) := by
  rw [data]
  rfl

/-- Adds the field that a pair of nodes describes. -/
def addField (targets : List (Nat × Node Nat)) (depth : Nat) (fields : Bindings Data)
    (p : Node Nat × Node Nat) : Reading (Bindings Data) := do
  let name ← keyText targets p.1
  let d ← data targets depth p.2
  pure (fields.insert name d)

theorem data_mapping (depth : Nat) (ps : List (Node Nat × Node Nat)) :
    data targets (depth + 1) (.mapping none none ps) =
      ps.foldlM (addField targets depth) [] >>= fun fields => pure (.object fields) := by
  rw [data]
  rfl

theorem data_zero_sequence (ns : List (Node Nat)) :
    data targets 0 (.sequence none none ns) = failure := by
  rw [data]
  rfl

theorem data_zero_mapping (ps : List (Node Nat × Node Nat)) :
    data targets 0 (.mapping none none ps) = failure := by
  rw [data]
  rfl

theorem addField_scalar {depth : Nat} (fields : Bindings Data) {isPlain : Bool} {key : Text}
    {n : Node Nat} : addField targets depth fields (.scalar none none isPlain key, n) =
      data targets depth n >>= fun d => pure (fields.insert key d) := rfl

mutual

theorem data_nodeOf : ∀ (d : Data) (depth : Nat), IsValid d →
    data targets depth (nodeOf Nat d) = if nesting d ≤ depth then pure d else failure
  | .null, depth, _ => by
    rw [nesting, if_pos (Nat.zero_le _)]
    exact data_scalar depth rfl
  | .bool true, depth, _ => by
    rw [nesting, if_pos (Nat.zero_le _)]
    exact data_scalar depth rfl
  | .bool false, depth, _ => by
    rw [nesting, if_pos (Nat.zero_le _)]
    exact data_scalar depth rfl
  | .int n, depth, h => by
    rw [nesting, if_pos (Nat.zero_le _), nodeOf]
    exact data_scalar depth (plainData?_intText h)
  | .float (.finite _ m q), depth, h => by
    rw [nesting, if_pos (Nat.zero_le _), nodeOf]
    exact data_scalar depth (plainData?_floatText h)
  | .text t, depth, _ => by
    rw [nesting, if_pos (Nat.zero_le _), nodeOf]
    exact data_scalar depth (scalarData?_text t)
  | .list items, 0, _ => by
    rw [nesting, nodeOf, data_zero_sequence, if_neg (by omega)]
  | .object fields, 0, _ => by
    rw [nesting, nodeOf, data_zero_mapping, if_neg (by omega)]
  | .list items, depth + 1, h => by
    rw [nesting, nodeOf, data_sequence, mapM_itemNodes items depth h, ite_failure_bind]
    simp only [Nat.add_le_add_iff_right]
  | .object fields, depth + 1, h => by
    rw [nesting, nodeOf, data_mapping, foldlM_fieldNodes fields [] depth h.1 h.2, ite_failure_bind]
    simp only [Nat.add_le_add_iff_right, List.nil_append]

theorem mapM_itemNodes : ∀ (ds : List Data) (depth : Nat), AreValid ds →
    (itemNodes Nat ds).mapM (data targets depth) =
      if nestingItems ds ≤ depth then pure ds else failure
  | [], depth, _ => by
    rw [nestingItems, if_pos (Nat.zero_le _)]
    rfl
  | d :: ds, depth, h => by
    rw [nestingItems, itemNodes, List.mapM_cons, data_nodeOf d depth h.1, ite_failure_bind,
      mapM_itemNodes ds depth h.2, ite_failure_bind, ite_ite_failure]

theorem foldlM_fieldNodes : ∀ (fields : List (Text × Data)) (acc : Bindings Data) (depth : Nat),
    Bindings.Ascending (acc ++ fields) → FieldsValid fields →
      (fieldNodes Nat fields).foldlM (addField targets depth) acc =
        if nestingFields fields ≤ depth then pure (acc ++ fields) else failure
  | [], acc, depth, _, _ => by
    rw [nestingFields, if_pos (Nat.zero_le _), List.append_nil]
    rfl
  | (key, d) :: fields, acc, depth, hascending, h => by
    have hinsert : acc.insert key d = acc ++ [(key, d)] :=
      Bindings.insert_of_lt d fun p hp =>
        (List.pairwise_append.mp hascending).2.2 p hp (key, d) (List.mem_cons_self ..)
    have hsplit : acc ++ (key, d) :: fields = acc ++ [(key, d)] ++ fields := by simp
    rw [hsplit] at hascending ⊢
    rw [nestingFields, fieldNodes, List.foldlM_cons, addField_scalar, data_nodeOf d depth h.1,
      ite_failure_bind, hinsert, ite_failure_bind, foldlM_fieldNodes fields _ depth hascending h.2,
      ite_ite_failure]

end

/-! ## The whole document -/

mutual

theorem link?_nodeOf : ∀ (seen : Anchors) (d : Data),
    link? seen (nodeOf Text d) = some (nodeOf Nat d, seen)
  | seen, .null => rfl
  | seen, .bool true => rfl
  | seen, .bool false => rfl
  | seen, .int n => by
    rw [nodeOf, nodeOf]
    rfl
  | seen, .float x => by
    rw [nodeOf, nodeOf]
    rfl
  | seen, .text t => by
    rw [nodeOf, nodeOf]
    rfl
  | seen, .list items => by
    rw [nodeOf, nodeOf, link?, define]
    simp [linkItems?_itemNodes seen items]
  | seen, .object fields => by
    rw [nodeOf, nodeOf, link?, define]
    simp [linkPairs?_fieldNodes seen fields]

theorem linkItems?_itemNodes : ∀ (seen : Anchors) (ds : List Data),
    linkItems? seen (itemNodes Text ds) = some (itemNodes Nat ds, seen)
  | seen, [] => rfl
  | seen, d :: ds => by
    rw [itemNodes, itemNodes, linkItems?, link?_nodeOf seen d]
    simp [linkItems?_itemNodes seen ds]

theorem linkPairs?_fieldNodes : ∀ (seen : Anchors) (fields : List (Text × Data)),
    linkPairs? seen (fieldNodes Text fields) = some (fieldNodes Nat fields, seen)
  | seen, [] => rfl
  | seen, (key, d) :: fields => by
    rw [fieldNodes, fieldNodes, linkPairs?, link?, define]
    simp [link?_nodeOf seen d, linkPairs?_fieldNodes seen fields]

end

theorem toData?_nodeOf {d : Data} (h : IsValid d) :
    toData? (nodeOf Text d) = if nesting d ≤ maxDepth then some d else none := by
  rw [toData?, link?_nodeOf]
  simp only [Option.bind_eq_bind, Option.bind_some, data_nodeOf d _ h]
  split <;> rfl

theorem document?_stream (field : Text × Data) (fields : List (Text × Data)) {fuel : Nat}
    (hfuel : (stream (.object (field :: fields))).length < fuel) :
    document? fuel true (stream (.object (field :: fields))) =
      some (nodeOf Text (.object (field :: fields)), []) := by
  have hnode := @node?_stream standardHandles (.object (field :: fields)) false fuel [] hfuel
  rw [List.append_nil] at hnode
  rw [stream_fields] at hnode ⊢
  exact hnode

theorem ofText?_block (field : Text × Data) (fields : List (Text × Data)) :
    Node.ofText? (block (.object (field :: fields))) =
      some [nodeOf Text (.object (field :: fields))] := by
  obtain ⟨t, ts, hstream, _⟩ := stream_cons (.object (field :: fields))
  rw [Node.ofText?, tokens?_block, Option.bind_eq_bind, Option.bind_some, documents?,
    document?_stream field fields (by omega), hstream]
  rfl

end Yaml.Node

/-- Written options are read back, if they do not nest too deep. -/
theorem Yaml.ofText?_block {fields : List (Text × Data)} (hne : fields ≠ [])
    (h : (Data.object fields).IsValid) :
    Yaml.ofText? (Printer.block (.object fields)) =
      if (Data.object fields).nesting ≤ Node.maxDepth then some (.object fields) else none := by
  obtain ⟨field, fields, rfl⟩ := List.exists_cons_of_ne_nil hne
  rw [Yaml.ofText?, Node.ofText?_block, ← Node.toData?_nodeOf h]
  rfl

end Scaffold
