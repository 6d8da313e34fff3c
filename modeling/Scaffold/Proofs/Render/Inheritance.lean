import Scaffold.Proofs.Render.Effective
import Scaffold.Proofs.Render.Nesting

/-!
The values that stubs hand on when they `put` one another. A scope supplies what was supplied already
and its own defaults where nothing was (`supplied?_scope`), and each stub renders the next with its
scope. Main statement: at the end of a chain of stubs a key has the value that is supplied at its
beginning, or else the first default along the chain (`value_along_chain`).
-/

namespace Scaffold

namespace Visit

variable {env : Surroundings}

/-- What a key is worth at the end of a chain of stubs: the value that the first is given, or else
the first default along the chain. -/
def inherited? (key : Text) (v : Visit) (vs : List Visit) : Option Text :=
  (supplied? v.values key).or ((v :: vs).findSome? (·.stub.mergedDefault? key))

theorem supplied?_last {v : Visit} {vs : List Visit}
    (h : List.IsChain (DependsOn env) (v :: vs)) (key : Text) :
    supplied? ((v :: vs).getLast (List.cons_ne_nil v vs)).caller.values key =
      inherited? key v vs := by
  induction vs generalizing v with
  | nil =>
    rw [List.getLast_singleton, inherited?, List.findSome?_singleton]
    exact Stub.supplied?_scope v.stub v.values key
  | cons w vs ih =>
    obtain ⟨hfirst, hrest⟩ := List.isChain_cons_cons.mp h
    obtain ⟨_, _, hvalues, _⟩ := hfirst.step
    rw [List.getLast_cons (List.cons_ne_nil w vs), ih hrest, inherited?, inherited?, hvalues,
      Stub.supplied?_scope, Option.or_assoc, List.findSome?_cons (a := v)]
    cases v.stub.mergedDefault? key <;> rfl

theorem isSome_last {v : Visit} {vs : List Visit} (h : List.IsChain (DependsOn env) (v :: vs))
    (key : Text) :
    (((v :: vs).getLast (List.cons_ne_nil v vs)).caller.values.get? key).isSome = true ↔
      (v.values.get? key).isSome = true ∨ ∃ w ∈ v :: vs, key ∈ w.stub.parameters.map (·.key) := by
  induction vs generalizing v with
  | nil =>
    rw [List.getLast_singleton, List.exists_mem_cons_iff (a := v)]
    simp only [List.not_mem_nil, false_and, exists_false, or_false]
    exact Stub.isSome_scope v.stub v.values key
  | cons w vs ih =>
    obtain ⟨hfirst, hrest⟩ := List.isChain_cons_cons.mp h
    obtain ⟨_, _, hvalues, _⟩ := hfirst.step
    rw [List.getLast_cons (List.cons_ne_nil w vs), ih hrest, hvalues, Stub.isSome_scope, or_assoc,
      List.exists_mem_cons_iff (a := v)]

/-- What helpers and variables see at the end of a chain of stubs. Nothing at all is seen only of a
key that is neither among the given values nor a parameter of any stub on the way. -/
theorem value_along_chain {v : Visit} {vs : List Visit}
    (h : List.IsChain (DependsOn env) (v :: vs)) (key : Text) :
    let c := ((v :: vs).getLast (List.cons_ne_nil v vs)).caller
    (∀ t, inherited? key v vs = some t → c.view.values.get? key = some t) ∧
    (inherited? key v vs = none → c.view.values.get? key =
      if (v.values.get? key).isSome = true ∨ ∃ w ∈ v :: vs, key ∈ w.stub.parameters.map (·.key)
      then some [] else none) ∧
    (Argument.variable key).resolve c.values = .text ((inherited? key v vs).getD []) := by
  intro c
  have hsupplied : supplied? c.values key = inherited? key v vs := supplied?_last h key
  refine ⟨fun t ht => get?_of_supplied? (hsupplied.trans ht), fun hnone => ?_, ?_⟩
  · have hget := get?_of_not_supplied (hsupplied.trans hnone)
    rw [if_congr (isSome_last h key) rfl rfl] at hget
    exact hget
  · rw [Argument.resolve]
    cases hvalue : inherited? key v vs with
    | some t => rw [get?_of_supplied? (hsupplied.trans hvalue)]
    | none =>
      rw [get?_of_not_supplied (hsupplied.trans hvalue)]
      split <;> rfl

private def nested : Surroundings where
  read path :=
    if path = "b.stub".toList then .ok "\x7b?k[\"inner\"]?\x7d".toList else .error .missing
  now := ⟨0, 0⟩

private def outer : Visit :=
  ⟨⟨"\x7b?put(\"b\")?\x7d\x7b?k?\x7d".toList, some "a.stub".toList, .default⟩, [], 0⟩

private def inner : Visit :=
  ⟨⟨"\x7b?k[\"inner\"]?\x7d".toList, some "b.stub".toList, .default⟩, [(['k'], [])], 1⟩

private def putTag : Placeholder :=
  ⟨"put".toList, .helper, [], [.string ['b']], [], "\x7b?put(\"b\")?\x7d".toList, false⟩

private def keyTag : Placeholder :=
  ⟨['k'], .parameter, [], [], [], "\x7b?k?\x7d".toList, false⟩

private theorem outer_dependsOn : DependsOn nested outer inner := by
  have hpending : outer.stub.pending = [] ++ putTag :: [keyTag] := by
    rw [Stub.pending_of_descending (by decide)]
    rfl
  have hsibling : Helper.siblingPath (some "a.stub".toList) "b".toList = "b.stub".toList := by
    decide +kernel
  have hload : Stub.load nested.read (Helper.siblingPath (some "a.stub".toList) "b".toList)
      .default = .ok inner.stub := by
    rw [hsibling]
    rfl
  refine dependsOn_of_puts hpending nofun ?_
  exact ⟨rfl, rfl, by decide, ⟨.string ['b'], [], rfl, hload⟩, by decide, rfl⟩

/-- An outer stub that declares a key without a default leaves the inner default as it is. -/
theorem value_inner : List.IsChain (DependsOn nested) [outer, inner] ∧
    inner.caller.view.values.get? ['k'] = some "inner".toList := by
  have hchain : List.IsChain (DependsOn nested) [outer, inner] :=
    .cons_cons outer_dependsOn (.singleton inner)
  exact ⟨hchain, (value_along_chain hchain ['k']).1 _ (by decide)⟩

/-- An empty value that the first stub is given is seen as such, even if no stub on the way declares
the key. -/
theorem exists_undeclared_seen : ¬ ∀ (env : Surroundings) (v : Visit) (vs : List Visit),
    List.IsChain (DependsOn env) (v :: vs) → ∀ key, inherited? key v vs = none →
      (∀ w ∈ v :: vs, key ∉ w.stub.parameters.map (·.key)) →
      ((v :: vs).getLast (List.cons_ne_nil v vs)).caller.view.values.get? key = none := by
  intro h
  have hnone := h .bare ⟨.ofSource "\x7b?c()?\x7d".toList
    ⟨[], [(['c'], .custom fun _ _ => .ok [])]⟩, [(['z'], [])], 0⟩ [] (.singleton _) ['z']
    (by decide) (by decide)
  revert hnone
  decide

end Visit

end Scaffold
