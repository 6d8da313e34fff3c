import Scaffold.Proofs.Render.Scope

/-!
What a key is worth in a stub. The value that is supplied for it comes first, then the default of
the first of its tags that has one (`mergedDefault?`). The parameters are a list of merged tags, the
scope is written over the given values, a tag looks for its value by itself and the required keys
are those without a default. Main statement: all of them mean the same value (`effective_everywhere`).
-/

namespace Scaffold

section Supplied

variable {values : Bindings Text} {key t : Text}

theorem supplied?_ne_nil (h : supplied? values key = some t) : t ≠ [] := by
  have hfilter := (Option.filter_eq_some_iff.mp h).2
  simpa using hfilter

theorem get?_of_supplied? (h : supplied? values key = some t) : values.get? key = some t :=
  (Option.filter_eq_some_iff.mp h).1

theorem get?_of_not_supplied (h : supplied? values key = none) :
    values.get? key = if (values.get? key).isSome = true then some [] else none := by
  cases hvalue : values.get? key with
  | none => rfl
  | some t =>
    have hnil : t = [] := by
      rw [supplied?, hvalue] at h
      simpa using h
    rw [hnil]
    rfl

end Supplied

namespace Parameter

/-- The default of the first parameter with the key. -/
def defaultIn (key : Text) : List Parameter → Text
  | [] => []
  | p :: ps => if p.key = key then p.default else defaultIn key ps

/-- A default is merged in where there is none yet. -/
theorem defaultIn_merge (p : Parameter) (ps : List Parameter) (key : Text) :
    defaultIn key (merge p ps) =
      if p.key = key ∧ defaultIn key ps = [] then p.default else defaultIn key ps := by
  induction ps with
  | nil => simp [merge, defaultIn]
  | cons q ps ih =>
    by_cases hq : q.key = p.key
    · rw [merge, if_pos hq]
      by_cases hkey : p.key = key
      · cases hdefault : q.default with
        | nil => simp [defaultIn, hkey, hq, hdefault]
        | cons c t => simp [defaultIn, hkey, hq, hdefault]
      · have hne : q.key ≠ key := fun heq => hkey (hq ▸ heq)
        cases hdefault : q.default <;> simp [defaultIn, hkey, hne]
    · rw [merge, if_neg hq, defaultIn, defaultIn, ih]
      by_cases hkey : q.key = key
      · have hne : p.key ≠ key := fun heq => hq (hkey.trans heq.symm)
        simp [hkey, hne]
      · simp [hkey]

theorem defaultIn_of_mem {p : Parameter} {ps : List Parameter} (h : p ∈ ps)
    (hnodup : (ps.map (·.key)).Nodup) : defaultIn p.key ps = p.default := by
  induction ps with
  | nil => cases h
  | cons q ps ih =>
    obtain ⟨hq, hps⟩ := List.nodup_cons.mp hnodup
    rcases List.mem_cons.mp h with rfl | hmem
    · exact if_pos rfl
    · have hne : q.key ≠ p.key := fun heq =>
        hq (List.mem_map.mpr ⟨p, hmem, heq.symm⟩)
      rw [defaultIn, if_neg hne, ih hmem hps]

end Parameter

namespace Placeholder

/-- The default that a parameter tag declares for the key, unless it is empty. -/
def declares? (key : Text) (p : Placeholder) : Option Text :=
  if p.isHelper = false ∧ p.key = key ∧ p.default ≠ [] then some p.default else none

theorem declares?_synthesize (key name : Text) : (synthesize name).declares? key = none :=
  if_neg fun h => h.2.2 rfl

end Placeholder

namespace Stub

variable {s : Stub} {values : Bindings Text} {key : Text}

/-- The first default, in source order, that is declared for the key and is not empty. -/
def mergedDefault? (s : Stub) (key : Text) : Option Text :=
  ((Tag.scan s.source).map Placeholder.ofTag).findSome? (·.declares? key)

private theorem defaultIn_foldl (key : Text) (placeholders : List Placeholder)
    (ps : List Parameter) :
    Parameter.defaultIn key ((placeholders.filter (!·.isHelper)).foldl
        (fun ps p => Parameter.merge ⟨p.key, p.default⟩ ps) ps) =
      if Parameter.defaultIn key ps = [] then
        (placeholders.findSome? (·.declares? key)).getD []
      else Parameter.defaultIn key ps := by
  induction placeholders generalizing ps with
  | nil => simp
  | cons p placeholders ih =>
    rw [List.findSome?_cons]
    cases hkind : p.isHelper with
    | true =>
      have hnone : p.declares? key = none := if_neg fun h => by rw [hkind] at h; cases h.1
      rw [List.filter_cons_of_neg (by simp [hkind]), ih, hnone]
    | false =>
      rw [List.filter_cons_of_pos (by simp [hkind]), List.foldl_cons, ih,
        Parameter.defaultIn_merge]
      by_cases hkey : p.key = key
      · by_cases hdefault : p.default = []
        · have hnone : p.declares? key = none := if_neg fun h => h.2.2 hdefault
          by_cases hfound : Parameter.defaultIn key ps = []
          · simp [hnone, hkey, hdefault, hfound]
          · simp [hfound]
        · by_cases hfound : Parameter.defaultIn key ps = []
          · simp [Placeholder.declares?, hkind, hkey, hdefault, hfound]
          · simp [hfound]
      · simp [Placeholder.declares?, hkey]

theorem default_eq_merged {p : Parameter} (h : p ∈ s.parameters) :
    p.default = (s.mergedDefault? p.key).getD [] := by
  have hsynthetic : (s.placeholders.findSome? (·.declares? p.key)) =
      s.mergedDefault? p.key := by
    rw [placeholders, Placeholder.parse, List.findSome?_append, mergedDefault?]
    have hnone (names : List Text) :
        (names.map Placeholder.synthesize).findSome? (·.declares? p.key) = none := by
      refine List.findSome?_eq_none_iff.mpr fun q hq => ?_
      obtain ⟨name, _, rfl⟩ := List.mem_map.mp hq
      exact Placeholder.declares?_synthesize p.key name
    rw [hnone, Option.or_none]
  rw [← Parameter.defaultIn_of_mem h s.parameters_nodup, parameters, defaultIn_foldl, hsynthetic]
  exact if_pos rfl

theorem mergedDefault?_eq_none (h : key ∉ s.parameters.map (·.key)) :
    s.mergedDefault? key = none := by
  refine List.findSome?_eq_none_iff.mpr fun p hp => if_neg fun hdeclares => h ?_
  obtain ⟨tag, htag, rfl⟩ := List.mem_map.mp hp
  exact hdeclares.2.1 ▸ key_mem_parameters htag hdeclares.1

theorem mergedDefault?_ne_nil {t : Text} (h : s.mergedDefault? key = some t) : t ≠ [] := by
  obtain ⟨p, _, hp⟩ := List.exists_of_findSome?_eq_some h
  unfold Placeholder.declares? at hp
  split at hp
  · next hdeclares => exact Option.some.inj hp ▸ hdeclares.2.2
  · cases hp

/-- What a key is worth: the value supplied for it, or else the first default of its tags, or else
the empty text. -/
def effective (s : Stub) (values : Bindings Text) (key : Text) : Text :=
  ((supplied? values key).or (s.mergedDefault? key)).getD []

/-- Where no tag has a default for a key, it is worth what is given, if anything is. -/
theorem effective_of_not_merged (values : Bindings Text) (h : s.mergedDefault? key = none) :
    s.effective values key = (values.get? key).getD [] := by
  rw [effective, h, Option.or_none]
  cases hsupplied : supplied? values key with
  | some t =>
    rw [get?_of_supplied? hsupplied]
  | none =>
    rw [get?_of_not_supplied hsupplied]
    split <;> rfl

theorem scope_get? (s : Stub) (values : Bindings Text) (key : Text) :
    (s.scope values).get? key =
      if key ∈ s.parameters.map (·.key) then some (s.effective values key)
      else values.get? key := by
  split
  · next hmem =>
    obtain ⟨p, hp, rfl⟩ := List.mem_map.mp hmem
    rw [scope_get?_of_mem values hp, default_eq_merged hp, effective]
    cases supplied? values p.key <;> rfl
  · next hmem => exact scope_get?_of_not_mem values hmem

/-- A scope supplies what was supplied before, and defaults where nothing was. -/
theorem supplied?_scope (s : Stub) (values : Bindings Text) (key : Text) :
    supplied? (s.scope values) key = (supplied? values key).or (s.mergedDefault? key) := by
  rw [supplied?, scope_get?, effective]
  split
  · cases hvalue : (supplied? values key).or (s.mergedDefault? key) with
    | none => rfl
    | some t =>
      have hne : t ≠ [] := by
        rcases Option.or_eq_some_iff.mp hvalue with h | ⟨_, h⟩
        · exact supplied?_ne_nil h
        · exact mergedDefault?_ne_nil h
      simp [hne]
  · next hmem => rw [mergedDefault?_eq_none hmem, Option.or_none, supplied?]

theorem isSome_scope (s : Stub) (values : Bindings Text) (key : Text) :
    ((s.scope values).get? key).isSome = true ↔
      (values.get? key).isSome = true ∨ key ∈ s.parameters.map (·.key) := by
  rw [scope_get?]
  by_cases hmem : key ∈ s.parameters.map (·.key)
  · rw [if_pos hmem]
    exact ⟨fun _ => .inr hmem, fun _ => rfl⟩
  · rw [if_neg hmem]
    exact ⟨.inl, fun h => h.resolve_right hmem⟩

/-! ## The parameters and their values -/

/-- The keys of the parameter tags, in source order. -/
def taggedKeys (s : Stub) : List Text :=
  (((Tag.scan s.source).map Placeholder.ofTag).filter (!·.isHelper)).map (·.key)

/-- The variables among the arguments of all tags, in source order. -/
def variableKeys (s : Stub) : List Text :=
  ((Tag.scan s.source).map Placeholder.ofTag).flatMap Placeholder.variableNames

/-- First the keys that have tags, then the other variables, each where it first occurs. -/
theorem keys_parameters_eq (s : Stub) : s.parameters.map (·.key) =
    s.taggedKeys.eraseDups ++ (s.variableKeys.filter (· ∉ s.taggedKeys)).eraseDups := by
  have hkeys : (s.placeholders.filter (!·.isHelper)).map (·.key) =
      s.taggedKeys ++ Placeholder.newNames s.taggedKeys s.variableKeys := by
    have hsynthetic (names : List Text) :
        ((names.map Placeholder.synthesize).filter (!·.isHelper)).map (·.key) = names := by
      rw [List.filter_eq_self.mpr (by simp [Placeholder.synthesize, Placeholder.isHelper]),
        List.map_map]
      exact List.map_id names
    rw [placeholders, Placeholder.parse, List.filter_append, List.map_append, hsynthetic]
    rfl
  have hnew : Placeholder.newNames s.taggedKeys
      (Placeholder.newNames s.taggedKeys s.variableKeys) =
        Placeholder.newNames s.taggedKeys s.variableKeys :=
    Placeholder.newNames_eq_self (Placeholder.newNames_nodup _ _)
      fun name hname => (Placeholder.mem_newNames_iff.mp hname).2
  rw [keys_parameters, hkeys, Placeholder.newNames_append, List.nil_append, hnew,
    Placeholder.newNames_eq_eraseDups, Placeholder.newNames_eq_eraseDups]
  simp

theorem requiredKeys_eq_filter (s : Stub) : s.requiredKeys =
    (s.parameters.map (·.key)).filter fun key => s.effective [] key = [] := by
  rw [requiredKeys, List.filter_map]
  refine congrArg (List.map Parameter.key) (List.filter_congr fun p hp => ?_)
  have hdefault : p.default = s.effective [] p.key := default_eq_merged hp
  rw [Parameter.isRequired, hdefault, Function.comp_apply, Bool.eq_iff_iff]
  simp

/-- A variable is worth the same whether it is one of the parameters or not. -/
theorem resolve_variable (s : Stub) (values : Bindings Text) (depth : Nat) (key : Text) :
    (Argument.variable key).resolve (s.caller values depth).values =
      .text (s.effective values key) := by
  rw [Argument.resolve, caller, scope_get?]
  split
  · rfl
  · next hmem => rw [effective_of_not_merged values (mergedDefault?_eq_none hmem)]

theorem baseValue_of_tag (call : HelperCall) (values : Bindings Text) (depth : Nat) {tag : Tag}
    (h : tag ∈ Tag.scan s.source) (hkind : (Placeholder.ofTag tag).isHelper = false) :
    baseValue call (s.caller values depth) values (Placeholder.ofTag tag) =
      .ok ((supplied? values (Placeholder.ofTag tag).key).getD
        (if (Placeholder.ofTag tag).default = [] then
          s.effective values (Placeholder.ofTag tag).key
        else (Placeholder.ofTag tag).default)) := by
  rw [baseValue_of_parameter call _ values hkind, caller, scope_get?,
    if_pos (key_mem_parameters h hkind)]
  simp

/-- The parameters are the keys with tags and the other variables, each of them once. The scope,
the variables and the tags give a key its one effective value, and what is required is what has
none where nothing is given. -/
theorem effective_everywhere (s : Stub) (values : Bindings Text) :
    (s.parameters.map (·.key) =
        s.taggedKeys.eraseDups ++ (s.variableKeys.filter (· ∉ s.taggedKeys)).eraseDups ∧
      (s.parameters.map (·.key)).Nodup) ∧
    (∀ key, (s.scope values).get? key =
      if key ∈ s.parameters.map (·.key) then some (s.effective values key)
      else values.get? key) ∧
    (∀ depth key, (Argument.variable key).resolve (s.caller values depth).values =
      .text (s.effective values key)) ∧
    (∀ call depth, ∀ tag ∈ Tag.scan s.source, (Placeholder.ofTag tag).isHelper = false →
      baseValue call (s.caller values depth) values (Placeholder.ofTag tag) =
        .ok ((supplied? values (Placeholder.ofTag tag).key).getD
          (if (Placeholder.ofTag tag).default = [] then
            s.effective values (Placeholder.ofTag tag).key
          else (Placeholder.ofTag tag).default))) ∧
    s.requiredKeys = (s.parameters.map (·.key)).filter fun key => s.effective [] key = [] := by
  refine ⟨⟨s.keys_parameters_eq, s.parameters_nodup⟩, s.scope_get? values, ?_, ?_,
    s.requiredKeys_eq_filter⟩
  · intro depth key
    exact s.resolve_variable values depth key
  · intro call depth tag htag hkind
    exact baseValue_of_tag call values depth htag hkind

/-- Two tags share a default, a helper has the name of a variable, and a variable has no tag. -/
private def sharing : Stub :=
  ofSource "\x7b?b?\x7d\x7b?b[\"B\"]?\x7d\x7b?y()?\x7d\x7b?x.f(y,b)?\x7d".toList .empty

private def sharedTag : Tag :=
  ⟨[.opening, .key .parameter ['b'], .closing], "\x7b?b?\x7d".toList, 0, 5⟩

private def halfGiven : Bindings Text := [(['b'], []), (['z'], ['1'])]

theorem effective_everywhere_sharing :
    (sharedTag ∈ Tag.scan sharing.source ∧ (Placeholder.ofTag sharedTag).isHelper = false) ∧
    sharing.parameters.map (·.key) = [['b'], ['x'], ['y']] ∧
    sharing.requiredKeys = [['x'], ['y']] ∧
    (sharing.scope halfGiven).get? ['b'] = some ['B'] ∧
    (sharing.scope halfGiven).get? ['z'] = some ['1'] ∧
    (∀ depth, (Argument.variable ['y']).resolve (sharing.caller halfGiven depth).values =
      .text []) ∧
    ∀ call depth, baseValue call (sharing.caller halfGiven depth) halfGiven
      (Placeholder.ofTag sharedTag) = .ok ['B'] := by
  have htag : sharedTag ∈ Tag.scan sharing.source := by decide
  obtain ⟨⟨hkeys, _⟩, hscope, hvariable, hbase, hrequired⟩ := effective_everywhere sharing halfGiven
  have hlist : sharing.parameters.map (·.key) = [['b'], ['x'], ['y']] := hkeys.trans (by decide)
  refine ⟨⟨htag, rfl⟩, hlist, ?_, ?_, ?_, fun depth => ?_, fun call depth => ?_⟩
  · rw [hrequired, hlist]
    decide
  · rw [hscope, hlist]
    decide
  · rw [hscope, hlist]
    decide
  · rw [hvariable]
    decide
  · rw [hbase call depth sharedTag htag rfl]
    exact congrArg Except.ok (by decide)

end Stub

end Scaffold
