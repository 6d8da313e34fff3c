import Scaffold.Parameters
import Scaffold.Proofs.Render.Scope

/-!
What the rendered text of a stub without helpers depends on. Values reach it as the base value of a
tag and as variables among the arguments of filters. Main statement: both are values of parameters,
so that values for anything else make no difference (`renderText_eq_of_agree`).
-/

namespace Scaffold

private theorem foldlM_congr {α β : Type} {step other : β → α → Except StubError β} {l : List α}
    (b : β) (h : ∀ b, ∀ a ∈ l, step b a = other b a) : l.foldlM step b = l.foldlM other b := by
  induction l generalizing b with
  | nil => rfl
  | cons a l ih =>
    have hrest (b : β) : l.foldlM step b = l.foldlM other b :=
      ih b fun b a ha => h b a (List.mem_cons_of_mem _ ha)
    rw [List.foldlM_cons, List.foldlM_cons, h b a (List.mem_cons_self ..)]
    simp only [hrest]

namespace Stub

/-- The two give the same for each parameter, where an empty value counts as none. -/
def Agree (s : Stub) (values other : Bindings Text) : Prop :=
  ∀ p ∈ s.parameters, supplied? values p.key = supplied? other p.key

instance (s : Stub) (values other : Bindings Text) : Decidable (s.Agree values other) :=
  inferInstanceAs (Decidable (∀ p ∈ s.parameters, supplied? values p.key = supplied? other p.key))

variable {s : Stub} {values other : Bindings Text} {tag : Tag}

theorem Agree.supplied {key : Text} (h : s.Agree values other)
    (hkey : key ∈ s.parameters.map (·.key)) : supplied? values key = supplied? other key := by
  obtain ⟨p, hp, rfl⟩ := List.mem_map.mp hkey
  exact h p hp

theorem Agree.scope {key : Text} (h : s.Agree values other)
    (hkey : key ∈ s.parameters.map (·.key)) :
    (s.scope values).get? key = (s.scope other).get? key := by
  obtain ⟨p, hp, rfl⟩ := List.mem_map.mp hkey
  rw [scope_get?_of_mem values hp, scope_get?_of_mem other hp, h p hp]

/-- Literals need no values, and the variables are parameters. -/
theorem Agree.argument {arg : Argument} (h : s.Agree values other)
    (htag : tag ∈ Tag.scan s.source) (harg : arg ∈ (Placeholder.ofTag tag).arguments) :
    arg.resolve (s.scope values) = arg.resolve (s.scope other) := by
  cases arg with
  | string t => rfl
  | number t => rfl
  | «variable» name =>
    have hname : name ∈ (Placeholder.ofTag tag).variableNames :=
      List.mem_filterMap.mpr ⟨_, harg, rfl⟩
    have hsame := h.scope (variable_mem_parameters htag hname)
    rw [Argument.resolve, Argument.resolve, hsame]

theorem Agree.baseValue (h : s.Agree values other) (call : HelperCall) (depth : Nat)
    (htag : tag ∈ Tag.scan s.source) (hkind : (Placeholder.ofTag tag).isHelper = false) :
    Stub.baseValue call (s.caller values depth) values (Placeholder.ofTag tag) =
      Stub.baseValue call (s.caller other depth) other (Placeholder.ofTag tag) := by
  have hkey := key_mem_parameters htag hkind
  have hscope : (s.caller values depth).values.get? (Placeholder.ofTag tag).key =
      (s.caller other depth).values.get? (Placeholder.ofTag tag).key := h.scope hkey
  rw [baseValue_of_parameter _ _ _ hkind, baseValue_of_parameter _ _ _ hkind, h.supplied hkey,
    hscope]

theorem Agree.applyFilters (h : s.Agree values other) (depth : Nat)
    (htag : tag ∈ Tag.scan s.source) (t : Text) :
    Stub.applyFilters (s.caller values depth) (Placeholder.ofTag tag).filters t =
      Stub.applyFilters (s.caller other depth) (Placeholder.ofTag tag).filters t := by
  refine foldlM_congr t fun t f hf => ?_
  have hargs : f.args.map (·.resolve (s.caller values depth).values) =
      f.args.map (·.resolve (s.caller other depth).values) := by
    apply List.map_congr_left
    intro arg harg
    exact h.argument htag (List.mem_append_right _ (List.mem_flatMap.mpr ⟨f, hf, harg⟩))
  rw [hargs]
  rfl

theorem Agree.resolve (h : s.Agree values other) (call : HelperCall) (depth : Nat)
    (htag : tag ∈ Tag.scan s.source) (hkind : (Placeholder.ofTag tag).isHelper = false) :
    Stub.resolve call (s.caller values depth) values (Placeholder.ofTag tag) =
      Stub.resolve call (s.caller other depth) other (Placeholder.ofTag tag) := by
  rw [Stub.resolve, Stub.resolve, h.baseValue call depth htag hkind]
  simp only [h.applyFilters depth htag]

theorem Agree.substitute (h : s.Agree values other) (call : HelperCall) (depth : Nat)
    (hkind : ∀ tag ∈ Tag.scan s.source, (Placeholder.ofTag tag).isHelper = false) :
    s.substitute call values depth = s.substitute call other depth := by
  refine foldlM_congr s.source fun text p hp => ?_
  obtain ⟨tag, htag, rfl⟩ := mem_pending hp
  rw [h.resolve call depth htag (hkind tag htag)]

/-- A value for a key that is no parameter is seen by none of them. -/
theorem agree_insert {key : Text} (h : key ∉ s.parameters.map (·.key)) (values : Bindings Text)
    (value : Text) : s.Agree (values.insert key value) values := by
  intro p hp
  have hne : p.key ≠ key := fun heq => h (heq ▸ List.mem_map_of_mem hp)
  rw [supplied?, supplied?, Bindings.get?_insert_of_ne hne]

/-- The keys that are reported as unused are those of no parameter. -/
theorem not_mem_parameters_of_unused {keys : List Text} {key : Text}
    (h : s.accept values = .error (.unused keys)) (hkey : key ∈ keys) :
    key ∉ s.parameters.map (·.key) := by
  have hkeys : keys = values.names.filter fun key => !s.parameters.any (·.key == key) := by
    simp only [accept] at h
    split at h
    · cases h
    · split at h
      · cases h; rfl
      · split at h
        · cases h
        · cases h
  rw [hkeys] at hkey
  obtain ⟨_, hnone⟩ := List.mem_filter.mp hkey
  rw [any_key_eq] at hnone
  simpa using hnone

/-- Without helpers, what a stub renders to, be it a text or an error, is decided by the values of
its parameters; in particular no value for an unused key has a say in it. -/
theorem renderText_eq_of_agree (env : Surroundings) (s : Stub)
    (hkind : ∀ tag ∈ Tag.scan s.source, (Placeholder.ofTag tag).isHelper = false) :
    (∀ values other, s.Agree values other →
      s.renderText env values = s.renderText env other) ∧
    (∀ values keys, s.accept values = .error (.unused keys) → ∀ key ∈ keys, ∀ value,
      s.renderText env (values.insert key value) = s.renderText env values) := by
  have hagree (values other : Bindings Text) (h : s.Agree values other) :
      s.renderText env values = s.renderText env other := h.substitute _ 0 hkind
  refine ⟨hagree, fun values keys hunused key hkey value => ?_⟩
  exact hagree _ _ (agree_insert (not_mem_parameters_of_unused hunused hkey) values value)

private def joining : Stub :=
  ofSource ['{', '?', 'a', '.', 'f', '(', 'b', ')', '?', '}']
    ⟨[(['f'], fun t args => .ok (t ++ args.flatMap Value.toText))], []⟩

private theorem joining_kind :
    ∀ tag ∈ Tag.scan joining.source, (Placeholder.ofTag tag).isHelper = false := by decide

/-- A filter sees neither an empty value nor one for a key of another stub. -/
theorem renderText_joining :
    (∀ tag ∈ Tag.scan joining.source, (Placeholder.ofTag tag).isHelper = false) ∧
    (joining.Agree [(['a'], ['1']), (['b'], [])] [(['a'], ['1'])] ∧
      joining.renderText .bare [(['a'], ['1']), (['b'], [])] =
        joining.renderText .bare [(['a'], ['1'])]) ∧
    (joining.accept [(['a'], ['1']), (['c'], ['2'])] = .error (.unused [['c']]) ∧
      joining.renderText .bare (Bindings.insert ['c'] ['3'] [(['a'], ['1']), (['c'], ['2'])]) =
        joining.renderText .bare [(['a'], ['1']), (['c'], ['2'])]) := by
  obtain ⟨hagree, hunused⟩ := renderText_eq_of_agree .bare joining joining_kind
  have hsame : joining.Agree [(['a'], ['1']), (['b'], [])] [(['a'], ['1'])] := by decide
  have hreport : joining.accept [(['a'], ['1']), (['c'], ['2'])] = .error (.unused [['c']]) := rfl
  refine ⟨joining_kind, ⟨hsame, hagree _ _ hsame⟩, hreport, ?_⟩
  exact hunused _ _ hreport ['c'] (List.mem_singleton.mpr rfl) ['3']

end Stub

end Scaffold
