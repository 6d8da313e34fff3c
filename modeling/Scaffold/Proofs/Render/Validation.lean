import Mathlib.Data.List.TakeWhile
import Scaffold.Parameters
import Scaffold.Proofs.Render.Failure
import Scaffold.Proofs.Render.Inheritance

/-!
Reading parameter values, checking them against a stub, and what the check is good for. Reading is
undone by writing keys and values with colons between them (`pairs_eq_ok`), the check tells unused
keys before missing ones (`accept_ok_iff`, `unfit_of_accept`), and where it passes, a parameter has
a value that is not empty (`scope_ne_nil`). Main statement: `validated_leaves_no_blank`.
-/

namespace Scaffold

namespace Bindings

variable {α : Type} {name : Text} {b : Bindings α}

theorem ofPairs_concat (pairs : List (Text × α)) (p : Text × α) :
    ofPairs (pairs ++ [p]) = insert p.1 p.2 (ofPairs pairs) := by
  rw [ofPairs, List.foldl_append]
  rfl

/-- The last pair with a name counts. -/
theorem get?_ofPairs {pairs : List (Text × α)} {a : α} :
    get? name (ofPairs pairs) = some a ↔
      ∃ before after, pairs = before ++ (name, a) :: after ∧ ∀ p ∈ after, p.1 ≠ name := by
  have hlast : get? name (ofPairs pairs) =
      (pairs.reverse.find? (·.1 = name)).map Prod.snd := by
    induction pairs using List.reverseRecOn with
    | nil => rfl
    | append_singleton pairs p ih =>
      rw [ofPairs_concat, List.reverse_append, List.reverse_singleton, List.singleton_append,
        List.find?_cons]
      by_cases hp : p.1 = name
      · subst hp
        rw [get?_insert_self]
        simp
      · rw [get?_insert_of_ne (Ne.symm hp), ih]
        simp [hp]
  rw [hlast, Option.map_eq_some_iff]
  constructor
  · rintro ⟨p, hfind, rfl⟩
    obtain ⟨hname, after, before, hpairs, hafter⟩ := List.find?_eq_some_iff_append.mp hfind
    obtain rfl : p.1 = name := of_decide_eq_true hname
    refine ⟨before.reverse, after.reverse, ?_, fun q hq => ?_⟩
    · rw [← List.reverse_reverse pairs, hpairs]
      simp
    · simpa using hafter q (List.mem_reverse.mp hq)
  · rintro ⟨before, after, rfl, hafter⟩
    refine ⟨(name, a), List.find?_eq_some_iff_append.mpr ⟨by simp, ?_⟩, rfl⟩
    refine ⟨after.reverse, before.reverse, by simp, fun q hq => ?_⟩
    simpa using hafter q (List.mem_reverse.mp hq)

theorem mem_names_iff : name ∈ names b ↔ ∃ a, get? name b = some a := by
  rw [← Option.isSome_iff_exists, Option.isSome_iff_ne_none, Ne, get?_eq_none, not_not]

end Bindings

namespace Parameters

variable {arg key value : Text} {args : List Text}

/-- An argument with the key and the value. -/
def written (p : Text × Text) : Text := p.1 ++ ':' :: p.2

theorem pair?_written (h : ':' ∉ key) : pair? (key ++ ':' :: value) = some (key, value) := by
  have hkey : ∀ c ∈ key, (c != ':') = true := by
    intro c hc
    simp only [bne_iff_ne]
    rintro rfl
    exact h hc
  rw [pair?, List.dropWhile_append_of_pos hkey, List.takeWhile_append_of_pos hkey]
  simp

theorem pairs_cons_written (h : ':' ∉ key) :
    pairs ((key ++ ':' :: value) :: args) = (pairs args).map ((key, value) :: ·) := by
  rw [pairs, List.mapM_cons, pair?_written h]
  rfl

theorem pairs_cons_malformed (h : ':' ∉ arg) :
    pairs (arg :: args) = .error (.malformed arg) := by
  have hnone : pair? arg = none := by
    have hdrop : arg.dropWhile (· != ':') = [] := by
      simp only [List.dropWhile_eq_nil_iff, bne_iff_ne]
      rintro c hc rfl
      exact h hc
    rw [pair?, hdrop]
  rw [pairs, List.mapM_cons, hnone]
  rfl

/-- The error is about the first argument without a colon. -/
theorem pairs_eq_error {e : ParameterError} : pairs args = .error e ↔
    ∃ arg, args.find? (':' ∉ ·) = some arg ∧ e = .malformed arg := by
  induction args with
  | nil =>
    constructor
    · intro h
      cases h
    · rintro ⟨arg, hfind, _⟩
      cases hfind
  | cons arg args ih =>
    rw [List.find?_cons]
    by_cases hcolon : ':' ∈ arg
    · obtain ⟨key, value, rfl, hkey⟩ := List.eq_append_cons_of_mem hcolon
      rw [pairs_cons_written hkey, decide_eq_false (not_not.mpr hcolon), ← ih]
      cases pairs args with
      | error e' => rfl
      | ok ps =>
        constructor
        · intro h
          cases h
        · intro h
          cases h
    · rw [pairs_cons_malformed hcolon, decide_eq_true hcolon]
      constructor
      · intro h
        exact ⟨arg, rfl, (Except.error.inj h).symm⟩
      · rintro ⟨other, hother, rfl⟩
        rw [Option.some.inj hother]

/-- What is read without an error is what is written out again. -/
theorem pairs_eq_ok {ps : List (Text × Text)} (h : pairs args = .ok ps) :
    args = ps.map written ∧ ∀ p ∈ ps, ':' ∉ p.1 := by
  induction args generalizing ps with
  | nil =>
    obtain rfl := Except.ok.inj h
    exact ⟨rfl, fun p hp => absurd hp List.not_mem_nil⟩
  | cons arg args ih =>
    by_cases hcolon : ':' ∈ arg
    · obtain ⟨key, value, rfl, hkey⟩ := List.eq_append_cons_of_mem hcolon
      rw [pairs_cons_written hkey] at h
      cases hrest : pairs args with
      | error e =>
        rw [hrest] at h
        cases h
      | ok rest =>
        rw [hrest] at h
        obtain rfl := Except.ok.inj h
        obtain ⟨rfl, hkeys⟩ := ih hrest
        refine ⟨rfl, fun p hp => ?_⟩
        rcases List.mem_cons.mp hp with rfl | hp
        · exact hkey
        · exact hkeys p hp
    · rw [pairs_cons_malformed hcolon] at h
      cases h

theorem written_inj {p q : Text × Text} (hp : ':' ∉ p.1) (hq : ':' ∉ q.1)
    (h : written p = written q) : p = q := by
  have hread : pair? (written p) = some p := pair?_written hp
  rw [h] at hread
  exact Option.some.inj (hread.symm.trans (pair?_written hq))

/-- The last of the arguments with the key has this value behind its first colon. -/
def LastGiven (args : List Text) (key value : Text) : Prop :=
  ':' ∉ key ∧ ∃ before after, args = before ++ (key ++ ':' :: value) :: after ∧
    ∀ later ∈ after, ¬ key ++ [':'] <+: later

theorem written_prefix_iff {p : Text × Text} (hp : ':' ∉ p.1) (hkey : ':' ∉ key) :
    key ++ [':'] <+: written p ↔ p.1 = key := by
  constructor
  · rintro ⟨rest, hrest⟩
    have hsame : written (key, rest) = written p := by
      rw [← hrest, written, List.append_assoc]
      rfl
    exact (congrArg Prod.fst (written_inj hkey hp hsame)).symm
  · rintro rfl
    exact ⟨p.2, by rw [written, List.append_assoc]; rfl⟩

theorem lastGiven_iff {ps : List (Text × Text)} (h : ∀ p ∈ ps, ':' ∉ p.1) :
    LastGiven (ps.map written) key value ↔ (Bindings.ofPairs ps).get? key = some value := by
  rw [Bindings.get?_ofPairs]
  constructor
  · rintro ⟨hkey, before, after, hargs, hafter⟩
    obtain ⟨before, rest, rfl, rfl, hrest⟩ := List.map_eq_append_iff.mp hargs
    obtain ⟨p, after, rfl, hp, rfl⟩ := List.map_eq_cons_iff.mp hrest
    have hcolon : ':' ∉ p.1 := h p (List.mem_append_right _ (List.mem_cons_self ..))
    obtain rfl : p = (key, value) := written_inj hcolon hkey hp
    refine ⟨before, after, rfl, fun q hq heq => ?_⟩
    have hq' : ':' ∉ q.1 := h q (List.mem_append_right _ (List.mem_cons_of_mem _ hq))
    exact hafter _ (List.mem_map_of_mem hq) ((written_prefix_iff hq' hkey).mpr heq)
  · rintro ⟨before, after, rfl, hafter⟩
    have hkey : ':' ∉ key := h (key, value) (List.mem_append_right _ (List.mem_cons_self ..))
    refine ⟨hkey, before.map written, after.map written, ?_, fun later hlater hprefix => ?_⟩
    · rw [List.map_append, List.map_cons]
      rfl
    · obtain ⟨q, hq, rfl⟩ := List.mem_map.mp hlater
      have hq' : ':' ∉ q.1 := h q (List.mem_append_right _ (List.mem_cons_of_mem _ hq))
      exact hafter q hq ((written_prefix_iff hq' hkey).mp hprefix)

theorem read_eq_error {e : ParameterError} : read args = .error e ↔
    ∃ arg, args.find? (':' ∉ ·) = some arg ∧ e = .malformed arg := by
  rw [← pairs_eq_error, read]
  cases pairs args with
  | error e' => rfl
  | ok ps =>
    constructor
    · intro h
      cases h
    · intro h
      cases h

theorem read_eq_ok {values : Bindings Text} (h : read args = .ok values) :
    values.Ascending ∧ ∀ key value, values.get? key = some value ↔ LastGiven args key value := by
  rw [read] at h
  cases hpairs : pairs args with
  | error e =>
    rw [hpairs] at h
    cases h
  | ok ps =>
    rw [hpairs] at h
    obtain rfl := Except.ok.inj h
    obtain ⟨rfl, hkeys⟩ := pairs_eq_ok hpairs
    exact ⟨Bindings.ascending_ofPairs ps, fun key value => (lastGiven_iff hkeys).symm⟩

end Parameters

namespace Stub

variable {s : Stub} {values : Bindings Text} {key : Text}

theorem mem_requiredKeys {p : Parameter} (h : p ∈ s.parameters) (hdefault : p.default = []) :
    p.key ∈ s.requiredKeys := by
  have hrequired : p.isRequired = true := by
    rw [Parameter.isRequired, hdefault]
    rfl
  exact List.mem_map_of_mem (List.mem_filter.mpr ⟨h, hrequired⟩)

theorem requiredKeys_sublist (s : Stub) :
    s.requiredKeys.Sublist (s.parameters.map (·.key)) :=
  List.filter_sublist.map _

/-- The supplied keys that no parameter has. -/
def unusedKeys (s : Stub) (values : Bindings Text) : List Text :=
  values.names.filter fun key => !s.parameters.any (·.key == key)

/-- The required keys that are not supplied. -/
def missingKeys (s : Stub) (values : Bindings Text) : List Text :=
  s.requiredKeys.filter fun key => !values.contains key

theorem mem_unusedKeys : key ∈ s.unusedKeys values ↔
    key ∈ values.names ∧ key ∉ s.parameters.map (·.key) := by
  rw [unusedKeys, List.mem_filter, any_key_eq, Bool.not_eq_true', decide_eq_false_iff_not]

theorem mem_missingKeys : key ∈ s.missingKeys values ↔
    key ∈ s.requiredKeys ∧ key ∉ values.names := by
  rw [missingKeys, List.mem_filter, Bool.not_eq_true', Bindings.contains_eq_false]

theorem unusedKeys_eq_nil : s.unusedKeys values = [] ↔
    ∀ key ∈ values.names, key ∈ s.parameters.map (·.key) := by
  simp only [List.eq_nil_iff_forall_not_mem, mem_unusedKeys, not_and, not_not]

theorem missingKeys_eq_nil : s.missingKeys values = [] ↔
    ∀ key ∈ s.requiredKeys, key ∈ values.names := by
  simp only [List.eq_nil_iff_forall_not_mem, mem_missingKeys, not_and, not_not]

theorem accept_eq (h : values ≠ []) : s.accept values =
    if s.unusedKeys values ≠ [] then .error (.unused (s.unusedKeys values))
    else if s.missingKeys values ≠ [] then .error (.missing (s.missingKeys values))
    else .ok () := by
  have hempty : ¬ values.isEmpty = true := by simpa using h
  exact if_neg hempty

theorem accept_ok_iff (h : values ≠ []) : s.accept values = .ok () ↔
    (∀ key ∈ values.names, key ∈ s.parameters.map (·.key)) ∧
      ∀ key ∈ s.requiredKeys, key ∈ values.names := by
  rw [accept_eq h, ← unusedKeys_eq_nil, ← missingKeys_eq_nil]
  by_cases hnone : s.unusedKeys values = []
  · by_cases hall : s.missingKeys values = []
    · simp [hnone, hall]
    · simp [hnone, hall]
  · simp [hnone]

/-- What the check says about values that do not fit: all keys that no parameter has, in ascending
order, or else all the required keys without a value, in the order of the parameters. -/
def Unfit (s : Stub) (values : Bindings Text) : ParameterError → Prop
  | .malformed _ => False
  | .unused keys => keys ≠ [] ∧ keys.Pairwise (· < ·) ∧
    ∀ key, key ∈ keys ↔ key ∈ values.names ∧ key ∉ s.parameters.map (·.key)
  | .missing keys => (∀ key ∈ values.names, key ∈ s.parameters.map (·.key)) ∧ keys ≠ [] ∧
    keys.Sublist (s.parameters.map (·.key)) ∧
    ∀ key, key ∈ keys ↔ key ∈ s.requiredKeys ∧ key ∉ values.names

theorem unfit_of_accept {e : ParameterError} (hascending : values.Ascending)
    (h : s.accept values = .error e) : s.Unfit values e := by
  have hne : values ≠ [] := by
    rintro rfl
    cases h
  rw [accept_eq hne] at h
  split at h
  · next hunused =>
    obtain rfl := Except.error.inj h
    have hnames : values.names.Pairwise (· < ·) := List.pairwise_map.mpr hascending
    exact ⟨hunused, hnames.sublist List.filter_sublist, fun _ => mem_unusedKeys⟩
  · next hunused =>
    split at h
    · next hmissing =>
      obtain rfl := Except.error.inj h
      exact ⟨unusedKeys_eq_nil.mp (not_not.mp hunused), hmissing,
        List.filter_sublist.trans s.requiredKeys_sublist, fun _ => mem_missingKeys⟩
    · cases h

/-- Accepted values that are not empty leave no parameter without one. -/
theorem scope_ne_nil (hne : values ≠ []) (haccept : s.accept values = .ok ())
    (hvalues : ∀ p ∈ values, p.2 ≠ []) (hkey : key ∈ s.parameters.map (·.key)) :
    ∃ t, (s.scope values).get? key = some t ∧ t ≠ [] := by
  obtain ⟨p, hp, rfl⟩ := List.mem_map.mp hkey
  refine ⟨_, scope_get?_of_mem values hp, ?_⟩
  cases hsupplied : supplied? values p.key with
  | some t => exact supplied?_ne_nil hsupplied
  | none =>
    intro hdefault
    have hrequired := mem_requiredKeys hp hdefault
    obtain ⟨t, ht⟩ := Bindings.mem_names_iff.mp (((accept_ok_iff hne).mp haccept).2 _ hrequired)
    have hempty := hvalues _ (Bindings.mem_of_get? ht)
    simp [supplied?, ht, hempty] at hsupplied

theorem baseValue_ne_nil (call : HelperCall) (depth : Nat) {tag : Tag} (hne : values ≠ [])
    (haccept : s.accept values = .ok ()) (hvalues : ∀ p ∈ values, p.2 ≠ [])
    (htag : tag ∈ Tag.scan s.source) (hkind : (Placeholder.ofTag tag).isHelper = false) :
    ∃ t, baseValue call (s.caller values depth) values (Placeholder.ofTag tag) = .ok t ∧
      t ≠ [] := by
  refine ⟨_, baseValue_of_parameter call _ values hkind, ?_⟩
  cases hsupplied : supplied? values (Placeholder.ofTag tag).key with
  | some t => exact supplied?_ne_nil hsupplied
  | none =>
    rw [Option.getD_none]
    split
    · obtain ⟨t, ht, hnil⟩ := scope_ne_nil hne haccept hvalues (key_mem_parameters htag hkind)
      rwa [caller, ht]
    · next hdefault => simpa using hdefault

theorem variable_ne_nil (depth : Nat) {tag : Tag} {name : Text} (hne : values ≠ [])
    (haccept : s.accept values = .ok ()) (hvalues : ∀ p ∈ values, p.2 ≠ [])
    (htag : tag ∈ Tag.scan s.source)
    (harg : Argument.variable name ∈ (Placeholder.ofTag tag).arguments) :
    ∃ t, (Argument.variable name).resolve (s.caller values depth).values = .text t ∧ t ≠ [] := by
  have hname : name ∈ (Placeholder.ofTag tag).variableNames :=
    List.mem_filterMap.mpr ⟨_, harg, rfl⟩
  obtain ⟨t, ht, hnil⟩ := scope_ne_nil hne haccept hvalues (variable_mem_parameters htag hname)
  refine ⟨t, ?_, hnil⟩
  rw [Argument.resolve, caller, ht]
  rfl

/-- Arguments are read unless one lacks a colon, the values are accepted exactly if they are for
parameters and for all the required ones, and accepted values that are not empty give every tag
and every variable one that is not empty. -/
theorem validated_leaves_no_blank (s : Stub) :
    (∀ args, (∀ e, Parameters.read args = .error e ↔
        ∃ arg, args.find? (':' ∉ ·) = some arg ∧ e = .malformed arg) ∧
      ∀ values, Parameters.read args = .ok values → values.Ascending ∧
        ∀ key value, values.get? key = some value ↔ Parameters.LastGiven args key value) ∧
    ∀ values : Bindings Text, values ≠ [] → values.Ascending →
      (s.accept values = .ok () ↔ (∀ key ∈ values.names, key ∈ s.parameters.map (·.key)) ∧
        ∀ key ∈ s.requiredKeys, key ∈ values.names) ∧
      (∀ e, s.accept values = .error e → s.Unfit values e) ∧
      (s.accept values = .ok () → (∀ p ∈ values, p.2 ≠ []) → ∀ tag ∈ Tag.scan s.source,
        ((Placeholder.ofTag tag).isHelper = false → ∀ call depth, ∃ t,
          baseValue call (s.caller values depth) values (Placeholder.ofTag tag) = .ok t ∧
            t ≠ []) ∧
        ∀ name, Argument.variable name ∈ (Placeholder.ofTag tag).arguments → ∀ depth, ∃ t,
          (Argument.variable name).resolve (s.caller values depth).values = .text t ∧ t ≠ []) := by
  refine ⟨fun args => ⟨fun e => Parameters.read_eq_error, fun values => Parameters.read_eq_ok⟩,
    fun values hne hascending => ⟨accept_ok_iff hne, fun e => unfit_of_accept hascending, ?_⟩⟩
  intro haccept hvalues tag htag
  constructor
  · intro hkind call depth
    exact baseValue_ne_nil call depth hne haccept hvalues htag hkind
  · intro name harg depth
    exact variable_ne_nil depth hne haccept hvalues htag harg

private def greeting : Stub := ofSource "\x7b? k ?\x7d\x7b? j[\"x\"].f(v) ?\x7d".toList ⟨[], []⟩

private def given : Bindings Text := [("k".toList, "a:b".toList), ("v".toList, "2".toList)]

/-- The default of one parameter makes up for its value, and the variable of a filter needs one. -/
theorem validated_greeting :
    (Parameters.read ["k:1".toList, "v".toList] = .error (.malformed "v".toList) ∧
      Parameters.LastGiven ["k:1".toList, "v:2".toList, "k:a:b".toList] "k".toList
        "a:b".toList) ∧
    (greeting.Unfit [("l".toList, "1".toList)] (.unused ["l".toList]) ∧
      greeting.Unfit [("k".toList, "1".toList)] (.missing ["v".toList])) ∧
    (∀ tag ∈ Tag.scan greeting.source, ∀ call depth, ∃ t,
      baseValue call (greeting.caller given depth) given (Placeholder.ofTag tag) = .ok t ∧
        t ≠ []) ∧
    ∃ tag ∈ Tag.scan greeting.source,
      Argument.variable "v".toList ∈ (Placeholder.ofTag tag).arguments ∧
      ∀ depth, ∃ t, (Argument.variable "v".toList).resolve (greeting.caller given depth).values =
        .text t ∧ t ≠ [] := by
  have hread : Parameters.read ["k:1".toList, "v:2".toList, "k:a:b".toList] = .ok given := by
    decide
  have hkinds : ∀ tag ∈ Tag.scan greeting.source, (Placeholder.ofTag tag).isHelper = false := by
    decide
  have hvariable : ∃ tag ∈ Tag.scan greeting.source,
      Argument.variable "v".toList ∈ (Placeholder.ofTag tag).arguments := by decide
  have haccept : greeting.accept given = .ok () := by decide
  have hfull : ∀ p ∈ given, p.2 ≠ [] := by decide
  have hunused : greeting.accept [("l".toList, "1".toList)] = .error (.unused ["l".toList]) := by
    decide
  have hmissing : greeting.accept [("k".toList, "1".toList)] = .error (.missing ["v".toList]) := by
    decide
  obtain ⟨hargs, hvalues⟩ := validated_leaves_no_blank greeting
  obtain ⟨hascending, hlast⟩ := (hargs _).2 _ hread
  have hblank := (hvalues given (List.cons_ne_nil _ _) hascending).2.2 haccept hfull
  refine ⟨⟨((hargs _).1 _).mpr ⟨_, rfl, rfl⟩, (hlast _ _).mp rfl⟩, ⟨?_, ?_⟩, ?_, ?_⟩
  · exact (hvalues _ (List.cons_ne_nil _ _) (List.pairwise_singleton _ _)).2.1 _ hunused
  · exact (hvalues _ (List.cons_ne_nil _ _) (List.pairwise_singleton _ _)).2.1 _ hmissing
  · intro tag htag
    exact (hblank tag htag).1 (hkinds tag htag)
  · obtain ⟨tag, htag, harg⟩ := hvariable
    exact ⟨tag, htag, harg, (hblank tag htag).2 _ harg⟩

end Stub

end Scaffold
