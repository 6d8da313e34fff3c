import Mathlib.Data.List.Nodup
import Scaffold.Proofs.Placeholder.Derivation
import Scaffold.Proofs.Render.Pending
import Scaffold.Render

/-!
The parameters of a stub and the scope they make. Main statements: the keys of the parameters are
those of the parameter tags and all the variables (`key_mem_parameters`,
`variable_mem_parameters`), each of them once (`parameters_nodup`) and where it is met first
(`keys_parameters`), and the scope gives a parameter its effective value and leaves every other key
as it is (`scope_get?_of_mem`, `scope_get?_of_not_mem`). A parameter tag always has a value
(`baseValue_of_parameter`).
-/

namespace Scaffold

/-- There is nothing to read, and no time has passed. -/
def Surroundings.bare : Surroundings := ⟨fun _ => .error .missing, ⟨0, 0⟩⟩

namespace Parameter

/-- A parameter comes last unless its key is there already. -/
theorem keys_merge (p : Parameter) (ps : List Parameter) : (merge p ps).map (·.key) =
    if p.key ∈ ps.map (·.key) then ps.map (·.key) else ps.map (·.key) ++ [p.key] := by
  induction ps with
  | nil => rfl
  | cons q ps ih =>
    by_cases hq : q.key = p.key
    · have hhead : (if q.default.isEmpty then p else q).key = q.key := by
        split
        · exact hq.symm
        · rfl
      have hmem : p.key ∈ (q :: ps).map (·.key) := hq ▸ List.mem_cons_self ..
      rw [merge, if_pos hq, if_pos hmem, List.map_cons, hhead, List.map_cons]
    · have hmem : p.key ∈ (q :: ps).map (·.key) ↔ p.key ∈ ps.map (·.key) := by
        rw [List.map_cons, List.mem_cons, or_iff_right (Ne.symm hq)]
      rw [merge, if_neg hq, List.map_cons, ih, if_congr hmem rfl rfl, List.map_cons]
      split <;> rfl

/-- Merging makes up no parameter. -/
theorem eq_or_mem_of_mem_merge {p r : Parameter} {ps : List Parameter} (h : r ∈ merge p ps) :
    r = p ∨ r ∈ ps := by
  induction ps with
  | nil => exact .inl (List.mem_singleton.mp h)
  | cons q ps ih =>
    by_cases hkey : q.key = p.key
    · rw [merge, if_pos hkey] at h
      rcases List.mem_cons.mp h with rfl | h
      · split
        · exact .inl rfl
        · exact .inr (List.mem_cons_self ..)
      · exact .inr (List.mem_cons_of_mem _ h)
    · rw [merge, if_neg hkey] at h
      rcases List.mem_cons.mp h with rfl | h
      · exact .inr (List.mem_cons_self ..)
      · exact (ih h).imp_right (List.mem_cons_of_mem _)

end Parameter

namespace Placeholder

/-- Every placeholder is that of a tag, or else has neither a default nor anything to resolve. -/
theorem mem_parse {source : Text} {p : Placeholder} (h : p ∈ parse source) :
    (∃ tag ∈ Tag.scan source, ofTag tag = p) ∨ ∃ key, p = synthesize key := by
  rcases List.mem_append.mp h with h | h
  · exact .inl (List.mem_map.mp h)
  · obtain ⟨key, _, rfl⟩ := List.mem_map.mp h
    exact .inr ⟨key, rfl⟩

theorem ofTag_mem_parse {source : Text} {tag : Tag} (h : tag ∈ Tag.scan source) :
    ofTag tag ∈ parse source :=
  List.mem_append_left _ (List.mem_map_of_mem h)

/-- A variable is declared by a tag, or a synthetic placeholder stands for it. -/
theorem exists_of_variable {source : Text} {tag : Tag} {name : Text} (h : tag ∈ Tag.scan source)
    (hname : name ∈ (ofTag tag).variableNames) :
    ∃ p ∈ parse source, p.isHelper = false ∧ p.key = name := by
  have hall : name ∈ ((Tag.scan source).map ofTag).flatMap variableNames :=
    List.mem_flatMap.mpr ⟨ofTag tag, List.mem_map_of_mem h, hname⟩
  by_cases hdeclared : name ∈ (((Tag.scan source).map ofTag).filter (!·.isHelper)).map key
  · obtain ⟨p, hp, rfl⟩ := List.mem_map.mp hdeclared
    obtain ⟨hmem, hkind⟩ := List.mem_filter.mp hp
    refine ⟨p, List.mem_append_left _ hmem, ?_, rfl⟩
    simpa using hkind
  · have hnew := mem_newNames_iff.mpr ⟨hall, hdeclared⟩
    exact ⟨synthesize name, List.mem_append_right _ (List.mem_map_of_mem hnew), rfl, rfl⟩

end Placeholder

namespace Stub

variable {s : Stub}

private theorem keys_foldl (placeholders : List Placeholder) (ps : List Parameter) :
    (placeholders.foldl (fun ps p => Parameter.merge ⟨p.key, p.default⟩ ps) ps).map (·.key) =
      ps.map (·.key) ++ Placeholder.newNames (ps.map (·.key)) (placeholders.map (·.key)) := by
  induction placeholders generalizing ps with
  | nil => exact (List.append_nil _).symm
  | cons q placeholders ih =>
    rw [List.foldl_cons, ih, Parameter.keys_merge, List.map_cons]
    by_cases hq : q.key ∈ ps.map (·.key)
    · rw [if_pos hq, Placeholder.newNames_of_mem _ hq]
    · have hperm : (ps.map (·.key) ++ [q.key]).Perm (q.key :: ps.map (·.key)) :=
        List.perm_append_singleton _ _
      rw [if_neg hq, Placeholder.newNames_of_not_mem _ hq,
        Placeholder.newNames_congr (fun _ => hperm.mem_iff), List.append_assoc]
      rfl

/-- Each key comes where it is met first. -/
theorem keys_parameters (s : Stub) : s.parameters.map (·.key) =
    Placeholder.newNames [] ((s.placeholders.filter (!·.isHelper)).map (·.key)) :=
  keys_foldl _ []

theorem mem_keys_parameters {key : Text} : key ∈ s.parameters.map (·.key) ↔
    ∃ p ∈ s.placeholders, p.isHelper = false ∧ p.key = key := by
  rw [keys_parameters, Placeholder.mem_newNames_iff]
  simp [and_assoc]

theorem parameters_nodup (s : Stub) : (s.parameters.map (·.key)).Nodup := by
  rw [keys_parameters]
  exact Placeholder.newNames_nodup _ _

theorem any_key_eq (s : Stub) (key : Text) :
    s.parameters.any (·.key == key) = decide (key ∈ s.parameters.map (·.key)) := by
  by_cases hkey : key ∈ s.parameters.map (·.key)
  · obtain ⟨p, hp, rfl⟩ := List.mem_map.mp hkey
    rw [decide_eq_true hkey]
    exact List.any_eq_true.mpr ⟨p, hp, beq_self_eq_true _⟩
  · rw [decide_eq_false hkey]
    refine List.any_eq_false.mpr fun p hp heq => hkey ?_
    rw [← eq_of_beq heq]
    exact List.mem_map_of_mem hp

/-- Each parameter tag has its parameter. -/
theorem key_mem_parameters {tag : Tag} (h : tag ∈ Tag.scan s.source)
    (hkind : (Placeholder.ofTag tag).isHelper = false) :
    (Placeholder.ofTag tag).key ∈ s.parameters.map (·.key) :=
  mem_keys_parameters.mpr ⟨_, Placeholder.ofTag_mem_parse h, hkind, rfl⟩

/-- Each variable has its parameter. -/
theorem variable_mem_parameters {tag : Tag} {name : Text} (h : tag ∈ Tag.scan s.source)
    (hname : name ∈ (Placeholder.ofTag tag).variableNames) : name ∈ s.parameters.map (·.key) := by
  obtain ⟨p, hp, hkind, hkey⟩ := Placeholder.exists_of_variable h hname
  exact mem_keys_parameters.mpr ⟨p, hp, hkind, hkey⟩

/-- The default of a parameter is that of one of its tags. -/
theorem default_of_mem_parameters {p : Parameter} (h : p ∈ s.parameters) :
    ∃ q ∈ s.placeholders, q.isHelper = false ∧ q.key = p.key ∧ q.default = p.default := by
  have hfold (placeholders : List Placeholder) (ps : List Parameter)
      (h : p ∈ placeholders.foldl (fun ps p => Parameter.merge ⟨p.key, p.default⟩ ps) ps) :
      p ∈ ps ∨ ∃ q ∈ placeholders, q.key = p.key ∧ q.default = p.default := by
    induction placeholders generalizing ps with
    | nil => exact .inl h
    | cons q placeholders ih =>
      rcases ih _ h with hmerged | ⟨r, hr, hsame⟩
      · rcases Parameter.eq_or_mem_of_mem_merge hmerged with rfl | hps
        · exact .inr ⟨q, List.mem_cons_self .., rfl, rfl⟩
        · exact .inl hps
      · exact .inr ⟨r, List.mem_cons_of_mem _ hr, hsame⟩
  rcases hfold _ [] h with hnil | ⟨q, hq, hsame⟩
  · cases hnil
  · obtain ⟨hmem, hkind⟩ := List.mem_filter.mp hq
    exact ⟨q, hmem, by simpa using hkind, hsame⟩

private theorem get?_foldl_of_not_mem (value : Parameter → Text) {ps : List Parameter}
    (b : Bindings Text) {key : Text} (h : key ∉ ps.map (·.key)) :
    (ps.foldl (fun b p => b.insert p.key (value p)) b).get? key = b.get? key := by
  induction ps generalizing b with
  | nil => rfl
  | cons q ps ih =>
    have hq : key ≠ q.key := fun heq => h (heq ▸ List.mem_cons_self ..)
    have hps : key ∉ ps.map (·.key) := fun hmem => h (List.mem_cons_of_mem _ hmem)
    rw [List.foldl_cons, ih _ hps, Bindings.get?_insert_of_ne hq]

/-- Outside of its parameters a stub sees the values as they are given. -/
theorem scope_get?_of_not_mem {key : Text} (values : Bindings Text)
    (h : key ∉ s.parameters.map (·.key)) : (s.scope values).get? key = values.get? key :=
  get?_foldl_of_not_mem _ values h

/-- The effective value of a parameter. -/
theorem scope_get?_of_mem {p : Parameter} (values : Bindings Text) (h : p ∈ s.parameters) :
    (s.scope values).get? p.key = some ((supplied? values p.key).getD p.default) := by
  have hfold (value : Parameter → Text) (ps : List Parameter) (b : Bindings Text)
      (hnodup : (ps.map (·.key)).Nodup) (hp : p ∈ ps) :
      (ps.foldl (fun b p => b.insert p.key (value p)) b).get? p.key = some (value p) := by
    induction ps generalizing b with
    | nil => cases hp
    | cons q ps ih =>
      obtain ⟨hq, hps⟩ := List.nodup_cons.mp hnodup
      rw [List.foldl_cons]
      rcases List.mem_cons.mp hp with rfl | hp
      · rw [get?_foldl_of_not_mem value _ hq, Bindings.get?_insert_self]
      · exact ih _ hps hp
  exact hfold _ _ values s.parameters_nodup h

theorem baseValue_of_parameter (call : HelperCall) (c : Caller) (values : Bindings Text)
    {p : Placeholder} (h : p.isHelper = false) :
    baseValue call c values p = .ok ((supplied? values p.key).getD
      (if p.default.isEmpty then (c.values.get? p.key).getD [] else p.default)) := by
  have hkind : ¬ p.isHelper = true := by simp [h]
  rw [baseValue, if_neg hkind]
  cases supplied? values p.key with
  | some value => rfl
  | none => cases p.default.isEmpty <;> simp

end Stub

end Scaffold
