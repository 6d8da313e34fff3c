import Mathlib.Data.List.Nodup
import Scaffold.Proofs.Render.Scope

/-!
When rendering with the built-in catalog fails, and with which error. Filters are total but for
`replace`, and arguments always have values, so that each tag fails, or does not, by the way it is
written (`settles_resolve`). Main statement: the error is that of the first tag at fault, longer
ones first and then in source order, whatever the values are (`renderText_error_iff`).
-/

namespace Scaffold

/-- The result is the given error, or some text if none is given. -/
def Settles (fault : Option StubError) (result : Except StubError Text) : Prop :=
  match fault with
  | some e => result = .error e
  | none => ∃ t, result = .ok t

theorem settles_ok (t : Text) : Settles none (.ok t) := ⟨t, rfl⟩

theorem settles_error (e : StubError) : Settles (some e) (.error e) := rfl

theorem Settles.bind {fault rest : Option StubError} {result : Except StubError Text}
    {f : Text → Except StubError Text} (h : Settles fault result) (hf : ∀ t, Settles rest (f t)) :
    Settles (fault.or rest) (result >>= f) := by
  cases fault with
  | some e =>
    obtain rfl : result = .error e := h
    exact settles_error e
  | none =>
    obtain ⟨t, rfl⟩ := h
    exact hf t

/-- A loop fails with the first of its steps that does. -/
theorem settles_foldlM {α : Type} {fault : α → Option StubError}
    {step : Text → α → Except StubError Text} {l : List α} (t : Text)
    (h : ∀ a ∈ l, ∀ t, Settles (fault a) (step t a)) :
    Settles (l.findSome? fault) (l.foldlM step t) := by
  induction l generalizing t with
  | nil => exact settles_ok t
  | cons a l ih =>
    have hhead := h a (List.mem_cons_self ..) t
    have hrest (t : Text) : Settles (l.findSome? fault) (l.foldlM step t) :=
      ih t fun b hb => h b (List.mem_cons_of_mem _ hb)
    have hor : (a :: l).findSome? fault = (fault a).or (l.findSome? fault) := by
      rw [List.findSome?_cons]
      cases fault a <;> rfl
    rw [hor, List.foldlM_cons]
    exact hhead.bind hrest

theorem settles_error_iff {fault : Option StubError} {result : Except StubError Text}
    (h : Settles fault result) (e : StubError) : result = .error e ↔ fault = some e := by
  cases fault with
  | some d =>
    obtain rfl : result = .error d := h
    constructor
    · intro he
      rw [Except.error.inj he]
    · intro he
      rw [Option.some.inj he]
  | none =>
    obtain ⟨t, rfl⟩ := h
    constructor
    · intro he
      cases he
    · intro he
      cases he

namespace Bindings

theorem get?_eq_none {α : Type} {name : Text} {b : Bindings α} :
    get? name b = none ↔ name ∉ names b := by
  induction b with
  | nil => simp [get?, names]
  | cons p b ih =>
    obtain ⟨n, x⟩ := p
    by_cases hn : n = name
    · simp [get?, names, hn]
    · simp only [get?, if_neg hn, ih, names, List.map_cons, List.mem_cons, not_or]
      exact ⟨fun h => ⟨Ne.symm hn, h⟩, fun h => h.2⟩

theorem contains_eq_false {α : Type} {name : Text} {b : Bindings α} :
    b.contains name = false ↔ name ∉ names b := by
  rw [contains, Option.isSome_eq_false_iff, Option.isNone_iff_eq_none, get?_eq_none]

end Bindings

/-! ## What a tag fails with -/

/-- What a filter call fails with under the built-in catalog, on any text. -/
def FilterCall.fault? (f : FilterCall) : Option StubError :=
  if Registry.default.filters.contains f.name = false then some (.undefinedFilter f.name)
  else if f.name = "replace".toList ∧ f.args.length < 2 then
    some (.invalidArguments "replace".toList
      ("expected 2 arguments, got ".toList ++ Decimal.digitText f.args.length))
  else none

/-- What a tag other than a `put` fails with: its helper is called first, and then its filters are
applied from left to right. -/
def Placeholder.fault? (p : Placeholder) : Option StubError :=
  (if p.isHelper = true ∧ p.key ≠ "date".toList then some (.undefinedHelper p.key) else none).or
    (p.filters.findSome? FilterCall.fault?)

/-- The tag calls a helper other than `date`, names a filter outside the built-in catalog, or calls
`replace` with fewer than two arguments. -/
def Placeholder.AtFault (p : Placeholder) : Prop :=
  (p.isHelper = true ∧ p.key ≠ "date".toList) ∨
    ∃ f ∈ p.filters, f.name ∉ Registry.default.filterNames ∨
      (f.name = "replace".toList ∧ f.args.length < 2)

instance (p : Placeholder) : Decidable p.AtFault :=
  inferInstanceAs (Decidable ((p.isHelper = true ∧ p.key ≠ "date".toList) ∨
    ∃ f ∈ p.filters, f.name ∉ Registry.default.filterNames ∨
      (f.name = "replace".toList ∧ f.args.length < 2)))

theorem FilterCall.isSome_fault? (f : FilterCall) : f.fault?.isSome = true ↔
    f.name ∉ Registry.default.filterNames ∨
      (f.name = "replace".toList ∧ f.args.length < 2) := by
  unfold fault?
  split
  · next h =>
    have hname : f.name ∉ Registry.default.filterNames := Bindings.contains_eq_false.mp h
    exact ⟨fun _ => .inl hname, fun _ => rfl⟩
  · next h =>
    have hname : ¬ f.name ∉ Registry.default.filterNames := mt Bindings.contains_eq_false.mpr h
    split
    · next hargs => exact ⟨fun _ => .inr hargs, fun _ => rfl⟩
    · next hargs => simp only [hname, hargs, Option.isSome_none, Bool.false_eq_true, or_self]

theorem Placeholder.isSome_fault? (p : Placeholder) : p.fault?.isSome = true ↔ p.AtFault := by
  unfold fault? AtFault
  by_cases h : p.isHelper = true ∧ p.key ≠ "date".toList
  · rw [if_pos h, Option.some_or]
    exact ⟨fun _ => .inl h, fun _ => rfl⟩
  · rw [if_neg h, Option.none_or, List.findSome?_isSome_iff]
    simp only [FilterCall.isSome_fault?, h, false_or]

namespace Registry

private theorem caseFilters_total {r : Registry} {entry : Text × Filter}
    (fs : List (Text × (Text → Text)))
    (h : entry ∈ (fs.foldl (fun r f => r.addFilter f.1 (.ofFunction f.2)) r).filters) :
    entry ∈ r.filters ∨ ∃ g, entry.2 = .ofFunction g := by
  induction fs generalizing r with
  | nil => exact .inl h
  | cons f fs ih =>
    rcases ih h with h | h
    · rcases Bindings.mem_insert h with rfl | h
      · exact .inr ⟨f.2, rfl⟩
      · exact .inl h
    · exact .inr h

/-- Every built-in filter but `replace` is a function of the text. -/
theorem default_filter_total {name : Text} {f : Filter} (hname : name ≠ "replace".toList)
    (h : default.filters.get? name = some f) : ∃ g, f = .ofFunction g := by
  have hmem := Bindings.mem_of_get? h
  rcases Bindings.mem_insert hmem with heq | hmem
  · exact ⟨_, congrArg Prod.snd heq⟩
  · rcases Bindings.mem_insert hmem with heq | hmem
    · exact ⟨_, congrArg Prod.snd heq⟩
    · rcases Bindings.mem_insert hmem with heq | hmem
      · exact absurd (congrArg Prod.fst heq) hname
      · rcases caseFilters_total caseFilters hmem with hnil | hg
        · cases hnil
        · exact hg

theorem default_replace : default.filters.get? "replace".toList = some .replace := rfl

theorem default_helper {name : Text} (hdate : name ≠ "date".toList) (hput : name ≠ "put".toList) :
    default.helpers.get? name = none := by
  have hhelpers : default.helpers =
      Bindings.insert "put".toList .put (Bindings.insert "date".toList .date []) := rfl
  rw [hhelpers, Bindings.get?_insert_of_ne hput, Bindings.get?_insert_of_ne hdate]
  rfl

end Registry

theorem Filter.settles_replace (t : Text) (args : List Value) :
    Settles (if args.length < 2 then some (.invalidArguments "replace".toList
      ("expected 2 arguments, got ".toList ++ Decimal.digitText args.length)) else none)
      (Filter.replace t args) := by
  match args with
  | [] => exact settles_error _
  | [_] => exact settles_error _
  | _ :: _ :: rest =>
    have hlen (a b : Value) : ¬ (a :: b :: rest).length < 2 := by
      simp only [List.length_cons]
      omega
    rw [if_neg (hlen _ _)]
    exact settles_ok _

theorem settles_applyFilter (f : FilterCall) (t : Text) {args : List Value}
    (hargs : args.length = f.args.length) :
    Settles f.fault? (Registry.default.applyFilter f.name t args) := by
  unfold FilterCall.fault? Registry.applyFilter
  by_cases hname : Registry.default.filters.contains f.name = false
  · rw [if_pos hname, Bindings.get?_eq_none.mpr (Bindings.contains_eq_false.mp hname)]
    exact settles_error _
  · rw [if_neg hname]
    by_cases hreplace : f.name = "replace".toList
    · have hsettles := Filter.settles_replace t args
      rw [hargs] at hsettles
      simpa only [hreplace, Registry.default_replace, true_and] using hsettles
    · have hfault : ¬ (f.name = "replace".toList ∧ f.args.length < 2) := fun h => hreplace h.1
      rw [if_neg hfault]
      cases hget : Registry.default.filters.get? f.name with
      | none =>
        exact absurd (Bindings.contains_eq_false.mpr (Bindings.get?_eq_none.mp hget)) hname
      | some g =>
        obtain ⟨h, rfl⟩ := Registry.default_filter_total hreplace hget
        exact settles_ok (h t)

theorem Helper.call_undefined (env : Surroundings) {c : Caller} {name : Text} (args : List Value)
    (h : c.registry.helpers.get? name = none) :
    Helper.call env c name args = .error (.undefinedHelper name) := by
  unfold Helper.call Helper.callWithin
  rw [h]

theorem Helper.call_date (env : Surroundings) {c : Caller} {name : Text} (args : List Value)
    (h : c.registry.helpers.get? name = some .date) : ∃ t, Helper.call env c name args = .ok t := by
  unfold Helper.call Helper.callWithin
  rw [h]
  exact ⟨_, rfl⟩

namespace Stub

theorem settles_baseValue (env : Surroundings) {c : Caller} (values : Bindings Text)
    {p : Placeholder} (hregistry : c.registry = .default)
    (hput : p.isHelper = true → p.key ≠ "put".toList) :
    Settles (if p.isHelper = true ∧ p.key ≠ "date".toList then some (.undefinedHelper p.key)
      else none) (baseValue (Helper.call env) c values p) := by
  by_cases hkind : p.isHelper = true
  · rw [baseValue, if_pos hkind]
    by_cases hdate : p.key = "date".toList
    · have hget : c.registry.helpers.get? p.key = some .date := by
        rw [hregistry, hdate]
        rfl
      rw [if_neg fun h => h.2 hdate]
      exact Helper.call_date env _ hget
    · have hget : c.registry.helpers.get? p.key = none := by
        rw [hregistry]
        exact Registry.default_helper hdate (hput hkind)
      rw [if_pos ⟨hkind, hdate⟩]
      exact Helper.call_undefined env _ hget
  · have hparameter : p.isHelper = false := by simpa using hkind
    rw [if_neg fun h => hkind h.1, baseValue_of_parameter _ _ _ hparameter]
    exact settles_ok _

theorem settles_applyFilters {c : Caller} (hregistry : c.registry = .default)
    (filters : List FilterCall) (t : Text) :
    Settles (filters.findSome? FilterCall.fault?) (applyFilters c filters t) := by
  refine settles_foldlM t fun f _ t => ?_
  rw [hregistry]
  exact settles_applyFilter f t (List.length_map _)

/-- How a tag is written decides whether it has a value. -/
theorem settles_resolve (env : Surroundings) {c : Caller} (values : Bindings Text)
    {p : Placeholder} (hregistry : c.registry = .default)
    (hput : p.isHelper = true → p.key ≠ "put".toList) :
    Settles p.fault? (resolve (Helper.call env) c values p) :=
  (settles_baseValue env values hregistry hput).bind (settles_applyFilters hregistry p.filters)

end Stub

/-! ## Which tag comes first -/

section FirstOf

variable {α β : Type} {le : α → α → Bool} {f : α → Option β} {l : List α} {a b : α}

/-- Of the elements at which `f` has a value, the least by `le`, and the first one among equals. -/
private def IsFirst (le : α → α → Bool) (f : α → Option β) (l : List α) (a : α) : Prop :=
  ∃ before after, l = before ++ a :: after ∧ (f a).isSome = true ∧
    (∀ x ∈ before, (f x).isSome = true → le x a = false) ∧
    ∀ x ∈ after, (f x).isSome = true → le a x = true

private theorem isFirst_unique (ha : IsFirst le f l a) (hb : IsFirst le f l b) : a = b := by
  obtain ⟨u, v, hl, hfa, hu, hv⟩ := ha
  obtain ⟨u', v', hl', hfb, hu', hv'⟩ := hb
  rw [hl] at hl'
  rcases List.append_eq_append_iff.mp hl' with ⟨m, hm, hrest⟩ | ⟨m, hm, hrest⟩
  · cases m with
    | nil => exact (List.cons.inj hrest).1
    | cons x m =>
      obtain ⟨rfl, rfl⟩ := List.cons.inj hrest
      have hle := hv b (by simp) hfb
      rw [hu' a (by simp [hm]) hfa] at hle
      cases hle
  · cases m with
    | nil => exact (List.cons.inj hrest).1.symm
    | cons x m =>
      obtain ⟨rfl, rfl⟩ := List.cons.inj hrest
      have hle := hv' a (by simp) hfa
      rw [hu b (by simp [hm]) hfb] at hle
      cases hle

private theorem not_pair_sublist {u v : List α} {x : α} (hu : x ∉ u) (hne : x ≠ a) (hv : a ∉ v) :
    ¬ [x, a].Sublist (u ++ a :: v) := by
  intro h
  obtain ⟨left, right, hpair, hleft, hright⟩ := List.sublist_append_iff.mp h
  cases left with
  | cons y left =>
    obtain ⟨rfl, _⟩ := List.cons.inj hpair
    exact hu (hleft.subset (List.mem_cons_self ..))
  | nil =>
    rw [← show [x, a] = right from hpair] at hright
    rcases List.sublist_cons_iff.mp hright with hin | ⟨_, heq, _⟩
    · exact hv (hin.subset (by simp))
    · exact hne (List.cons.inj heq).1

/-- What is found first in a sorted list comes first in the list itself, for the sort is stable. -/
private theorem exists_isFirst_of_mergeSort
    (htrans : ∀ a b c, le a b = true → le b c = true → le a c = true)
    (htotal : ∀ a b, (le a b || le b a) = true) (hnodup : l.Nodup) {c : β}
    (h : (l.mergeSort le).findSome? f = some c) : ∃ a, IsFirst le f l a ∧ f a = some c := by
  have hperm := List.mergeSort_perm l le
  have hsorted := List.pairwise_mergeSort htrans htotal l
  obtain ⟨u, a, v, hsort, hfa, hu⟩ := List.findSome?_eq_some_iff.mp h
  have hnodup' : (u ++ a :: v).Nodup := hsort ▸ hperm.nodup_iff.mpr hnodup
  obtain ⟨_, hav, _⟩ := List.nodup_append.mp hnodup'
  have hleft (x : α) (hsome : (f x).isSome = true) : x ∉ u := by
    intro hx
    rw [hu x hx] at hsome
    cases hsome
  have hmem : a ∈ l := hperm.mem_iff.mp (by simp [hsort])
  obtain ⟨before, after, hl⟩ := List.append_of_mem hmem
  rw [hl] at hnodup
  obtain ⟨_, hafter, hdisjoint⟩ := List.nodup_append.mp hnodup
  refine ⟨a, ⟨before, after, hl, by rw [hfa]; rfl, fun x hx hsome => ?_, fun x hx hsome => ?_⟩, hfa⟩
  · have hne : x ≠ a := hdisjoint x hx a (List.mem_cons_self ..)
    refine Bool.eq_false_iff.mpr fun hle => ?_
    have hpair : [x, a].Sublist l := by
      rw [hl]
      exact (List.singleton_sublist.mpr hx).append (List.singleton_sublist.mpr (by simp))
    have hpair' := List.pair_sublist_mergeSort htrans htotal hle hpair
    rw [hsort] at hpair'
    exact not_pair_sublist (hleft x hsome) hne (List.nodup_cons.mp hav).1 hpair'
  · have hne : x ≠ a := fun heq => (List.nodup_cons.mp hafter).1 (heq ▸ hx)
    have hxl : x ∈ l.mergeSort le := hperm.mem_iff.mpr (by simp [hl, hx])
    rw [hsort] at hsorted hxl
    have hxv : x ∈ v := by
      rcases List.mem_append.mp hxl with hxu | hxv
      · exact absurd hxu (hleft x hsome)
      · exact (List.mem_cons.mp hxv).resolve_left hne
    obtain ⟨_, hright, _⟩ := List.pairwise_append.mp hsorted
    exact (List.pairwise_cons.mp hright).1 x hxv

/-- A stable sort puts that element before all others at which `f` has a value. -/
private theorem findSome?_mergeSort
    (htrans : ∀ a b c, le a b = true → le b c = true → le a c = true)
    (htotal : ∀ a b, (le a b || le b a) = true) (hnodup : l.Nodup) {c : β} :
    (l.mergeSort le).findSome? f = some c ↔ ∃ a, IsFirst le f l a ∧ f a = some c := by
  constructor
  · exact exists_isFirst_of_mergeSort htrans htotal hnodup
  · rintro ⟨a, hfirst, hfa⟩
    cases hfind : (l.mergeSort le).findSome? f with
    | none =>
      obtain ⟨before, after, hl, _⟩ := hfirst
      have hmem : a ∈ l.mergeSort le := (List.mergeSort_perm l le).mem_iff.mpr (by simp [hl])
      rw [List.findSome?_eq_none_iff.mp hfind a hmem] at hfa
      cases hfa
    | some d =>
      obtain ⟨b, hb, hfb⟩ := exists_isFirst_of_mergeSort htrans htotal hnodup hfind
      rw [isFirst_unique hb hfirst, hfa] at hfb
      exact hfb.symm

end FirstOf

namespace Tag

/-- Of the tags at fault this is the first to be replaced: those before it in the source are
shorter, and those behind it are not longer. -/
def FirstAtFault (source : Text) (tag : Tag) : Prop :=
  ∃ before after, scan source = before ++ tag :: after ∧ (Placeholder.ofTag tag).AtFault ∧
    (∀ t ∈ before, (Placeholder.ofTag t).AtFault → Text.bytes t.code < Text.bytes tag.code) ∧
    ∀ t ∈ after, (Placeholder.ofTag t).AtFault → Text.bytes t.code ≤ Text.bytes tag.code

end Tag

namespace Stub

/-- Leaving out the repetitions of a text changes nothing about what is found first. -/
private theorem findSome?_distinct {β : Type} {f : Placeholder → Option β} {seen : List Text}
    {ps : List Placeholder} (hsame : ∀ p ∈ ps, ∀ q ∈ ps, p.code = q.code → f p = f q)
    (hseen : ∀ p ∈ ps, p.code ∈ seen → f p = none) :
    (distinct seen ps).findSome? f = ps.findSome? f := by
  induction ps generalizing seen with
  | nil => rfl
  | cons p ps ih =>
    have htail := fun q hq r hr => hsame q (List.mem_cons_of_mem _ hq) r (List.mem_cons_of_mem _ hr)
    by_cases hp : p.code ∈ seen
    · rw [distinct_of_mem ps hp, List.findSome?_cons, hseen p (List.mem_cons_self ..) hp]
      exact ih htail fun q hq => hseen q (List.mem_cons_of_mem _ hq)
    · rw [distinct_of_not_mem ps hp, List.findSome?_cons, List.findSome?_cons]
      cases hfp : f p with
      | some b => rfl
      | none =>
        refine ih htail fun q hq hqcode => ?_
        rcases List.mem_cons.mp hqcode with heq | hqcode
        · rw [hsame q (List.mem_cons_of_mem _ hq) p (List.mem_cons_self ..) heq, hfp]
        · exact hseen q (List.mem_cons_of_mem _ hq) hqcode

/-- The first of the tags at fault, in the order of their substitution. -/
theorem pending_fault_iff (s : Stub) (e : StubError) :
    s.pending.findSome? Placeholder.fault? = some e ↔
      ∃ tag, Tag.FirstAtFault s.source tag ∧ (Placeholder.ofTag tag).fault? = some e := by
  have hsort : (s.placeholders.filter (!·.synthetic)).mergeSort
      (fun p q => decide (Text.bytes q.code ≤ Text.bytes p.code)) =
      ((Tag.scan s.source).mergeSort fun a b =>
        decide (Text.bytes b.code ≤ Text.bytes a.code)).map Placeholder.ofTag := by
    rw [placeholders, Placeholder.parse_filter]
    refine (List.map_mergeSort fun a _ b _ => ?_).symm
    rw [(Placeholder.ofTag_code a).1, (Placeholder.ofTag_code b).1]
  have hdistinct : s.pending.findSome? Placeholder.fault? =
      ((Tag.scan s.source).mergeSort fun a b =>
        decide (Text.bytes b.code ≤ Text.bytes a.code)).findSome?
          fun tag => (Placeholder.ofTag tag).fault? := by
    rw [pending, findSome?_distinct, hsort, List.findSome?_map]
    · rfl
    · rw [hsort]
      intro p hp q hq hcode
      obtain ⟨a, ha, rfl⟩ := List.mem_map.mp hp
      obtain ⟨b, hb, rfl⟩ := List.mem_map.mp hq
      rw [(Placeholder.ofTag_code a).1, (Placeholder.ofTag_code b).1] at hcode
      rw [Placeholder.ofTag_eq_of_code_eq (List.mem_mergeSort.mp ha) (List.mem_mergeSort.mp hb)
        hcode]
    · intro p _ hp
      cases hp
  rw [hdistinct, findSome?_mergeSort (fun a b c hab hbc => ?_) (fun a b => ?_)
    (Tag.scan_nodup s.source)]
  · simp only [IsFirst, Tag.FirstAtFault, Placeholder.isSome_fault?, decide_eq_false_iff_not,
      decide_eq_true_eq, Nat.not_le]
  · simp only [decide_eq_true_eq] at *
    omega
  · simp only [Bool.or_eq_true, decide_eq_true_eq]
    omega

variable {s : Stub}

theorem settles_renderText (env : Surroundings) (values : Bindings Text)
    (hregistry : s.registry = .default)
    (hput : ∀ tag ∈ Tag.scan s.source, (Placeholder.ofTag tag).isHelper = true →
      (Placeholder.ofTag tag).key ≠ "put".toList) :
    Settles (s.pending.findSome? Placeholder.fault?) (s.renderText env values) := by
  refine settles_foldlM s.source fun p hp text => ?_
  obtain ⟨tag, htag, rfl⟩ := mem_pending hp
  have hresolve := settles_resolve env (c := s.caller values 0) values hregistry (hput tag htag)
  have hstep := hresolve.bind fun v =>
    settles_ok (Text.replace (Placeholder.ofTag tag).code v text)
  rwa [Option.or_none] at hstep

/-- With the built-in catalog and without `put`, a render fails exactly if some tag is at fault by
the way it is written. The error is that of the first such tag, longer ones first and then in
source order. No value has a say in it. -/
theorem renderText_error_iff (env : Surroundings) (s : Stub) (hregistry : s.registry = .default)
    (hput : ∀ tag ∈ Tag.scan s.source, (Placeholder.ofTag tag).isHelper = true →
      (Placeholder.ofTag tag).key ≠ "put".toList) :
    (∀ values, (∃ e, s.renderText env values = .error e) ↔
      ∃ tag ∈ Tag.scan s.source, (Placeholder.ofTag tag).AtFault) ∧
    (∀ values e, s.renderText env values = .error e ↔
      ∃ tag, Tag.FirstAtFault s.source tag ∧ (Placeholder.ofTag tag).fault? = some e) ∧
    (∀ values other,
      (∃ e, s.renderText env values = .error e ∧ s.renderText env other = .error e) ∨
        ∃ t u, s.renderText env values = .ok t ∧ s.renderText env other = .ok u) := by
  have hsettles (values : Bindings Text) := settles_renderText env values hregistry hput
  refine ⟨fun values => ?_, fun values e => ?_, fun values other => ?_⟩
  · simp only [settles_error_iff (hsettles values), ← Option.isSome_iff_exists,
      List.findSome?_isSome_iff, Placeholder.isSome_fault?]
    constructor
    · rintro ⟨p, hp, hfault⟩
      obtain ⟨tag, htag, rfl⟩ := mem_pending hp
      exact ⟨tag, htag, hfault⟩
    · rintro ⟨tag, htag, hfault⟩
      obtain ⟨p, hp, hcode⟩ := code_mem_pending htag
      obtain ⟨other, hother, rfl⟩ := mem_pending hp
      rw [(Placeholder.ofTag_code other).1] at hcode
      refine ⟨_, hp, ?_⟩
      rwa [Placeholder.ofTag_eq_of_code_eq hother htag hcode]
  · rw [settles_error_iff (hsettles values), pending_fault_iff]
  · have hvalues := hsettles values
    have hother := hsettles other
    cases hfault : s.pending.findSome? Placeholder.fault? with
    | some e =>
      rw [hfault] at hvalues hother
      exact .inl ⟨e, hvalues, hother⟩
    | none =>
      rw [hfault] at hvalues hother
      obtain ⟨t, ht⟩ := hvalues
      obtain ⟨u, hu⟩ := hother
      exact .inr ⟨t, u, ht, hu⟩

private def faulty : Stub :=
  ofSource "{?a.x?}{?b.replace(a)?}{?c.lower?}{?d.replace(b)?}".toList .default

private theorem faulty_put : ∀ tag ∈ Tag.scan faulty.source,
    (Placeholder.ofTag tag).isHelper = true → (Placeholder.ofTag tag).key ≠ "put".toList := by
  decide

private def longest : Tag :=
  ⟨[.opening, .key .parameter ['b'], .filter "replace".toList, .argument (.variable ['a']),
    .closing], "{?b.replace(a)?}".toList, 7, 23⟩

private theorem longest_first : Tag.FirstAtFault faulty.source longest :=
  ⟨(Tag.scan faulty.source).take 1, (Tag.scan faulty.source).drop 2, by decide, by decide,
    by decide, by decide⟩

/-- The unknown filter of the first tag is not reached: two longer tags fail before it, and of
these the first in the source. -/
theorem renderText_faulty :
    faulty.registry = .default ∧
    (∀ tag ∈ Tag.scan faulty.source,
      (Placeholder.ofTag tag).isHelper = true → (Placeholder.ofTag tag).key ≠ "put".toList) ∧
    faulty.renderText .bare [] = .error (.invalidArguments "replace".toList
      "expected 2 arguments, got 1".toList) := by
  obtain ⟨_, herror, _⟩ := renderText_error_iff .bare faulty rfl faulty_put
  exact ⟨rfl, faulty_put, (herror [] _).mpr ⟨longest, longest_first, rfl⟩⟩

end Stub

end Scaffold
