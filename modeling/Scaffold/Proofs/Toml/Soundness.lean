import Scaffold.Proofs.Data.Valid
import Scaffold.Toml.Document

/-!
What TOML documents describe are values that a document can describe (`isValid_of_document?`).
-/

namespace Scaffold.Toml

open Data

/-! ## Tables -/

theorem fieldsToData_eq_map (fields : List (Text × Item)) :
    fieldsToData fields = fields.map fun p => (p.1, p.2.toData) := by
  induction fields with
  | nil => rfl
  | cons p fields ih => simp [fieldsToData, ih]

theorem elementsToData_eq_map (elements : List (List (Text × Item))) :
    elementsToData elements = elements.map fun fields => .object (fieldsToData fields) := by
  induction elements with
  | nil => rfl
  | cons fields elements ih => simp [elementsToData, ih]

theorem fieldsToData_insert (name : Text) (i : Item) (fields : Bindings Item) :
    fieldsToData (fields.insert name i) = Bindings.insert name i.toData (fieldsToData fields) := by
  induction fields with
  | nil => rfl
  | cons p fields ih =>
    obtain ⟨n, x⟩ := p
    simp only [fieldsToData, Bindings.insert]
    split
    · rfl
    split
    · rfl
    · rw [fieldsToData, ih]

namespace Table

/-- A table whose object a document can describe. -/
def IsValid (t : Table) : Prop := Data.IsValid (.object (fieldsToData t.fields))

theorem isValid_nil (implicit dotted : Bool) : IsValid ⟨implicit, dotted, []⟩ :=
  ⟨List.Pairwise.nil, trivial⟩

theorem IsValid.set {t : Table} (ht : t.IsValid) (name : Text) {i : Item} (hi : i.toData.IsValid) :
    (t.set name i).IsValid := by
  rw [IsValid, Table.set, fieldsToData_insert]
  exact isValid_insert name ht hi

theorem IsValid.get? {t : Table} (ht : t.IsValid) {name : Text} {i : Item}
    (h : t.get? name = some i) : i.toData.IsValid := by
  have hmem : (name, i.toData) ∈ fieldsToData t.fields := by
    rw [fieldsToData_eq_map]
    exact List.mem_map_of_mem (Bindings.mem_of_get? h)
  exact fieldsValid_iff.mp ht.2 _ hmem

/-- A change that keeps tables valid may be made further down. -/
theorem IsValid.descend? {byDots : Bool} {change : Table → Option Table}
    (hchange : ∀ t t', IsValid t → change t = some t' → IsValid t') (path : List Text)
    {t t' : Table} (ht : IsValid t) (h : Table.descend? byDots change path t = some t') :
    IsValid t' := by
  induction path generalizing t t' with
  | nil => exact hchange t t' ht h
  | cons name path ih =>
    rw [Table.descend?] at h
    split at h
    · obtain ⟨child, hchild, h⟩ := Option.bind_eq_some_iff.mp h
      cases h
      exact ht.set name (ih (isValid_nil _ _) hchild)
    · cases h
    · next elements hget =>
      obtain ⟨fields, hlast, h⟩ := Option.bind_eq_some_iff.mp h
      obtain ⟨child, hchild, h⟩ := Option.bind_eq_some_iff.mp h
      cases h
      have helements : ∀ fields ∈ elements, IsValid ⟨false, false, fields⟩ := fun fields hmem => by
        have hvalid := areValid_iff.mp (ht.get? hget)
        rw [elementsToData_eq_map] at hvalid
        exact hvalid _ (List.mem_map_of_mem hmem)
      have hvalid : IsValid child := ih (helements fields (List.mem_of_getLast? hlast)) hchild
      refine ht.set name (areValid_iff.mpr ?_)
      rw [elementsToData_eq_map]
      intro d hd
      obtain ⟨fields, hfields, rfl⟩ := List.mem_map.mp hd
      obtain hfields | hfields := List.mem_append.mp hfields
      · exact helements fields (List.mem_of_mem_dropLast hfields)
      · obtain rfl := List.mem_singleton.mp hfields
        exact hvalid
    · next implicit dotted fields hget =>
      have hvalid : IsValid ⟨implicit, dotted, fields⟩ := ht.get? hget
      split at h
      · cases h
      · obtain ⟨child, hchild, h⟩ := Option.bind_eq_some_iff.mp h
        cases h
        exact ht.set name (ih hvalid hchild)

theorem IsValid.addValue? {t t' : Table} (ht : t.IsValid) {path : List Text} {name : Text} {d : Data}
    (hd : d.IsValid) (h : t.addValue? path name d = some t') : t'.IsValid := by
  refine ht.descend? (fun s s' hs h => ?_) path h
  split at h
  · cases h
  · cases h
    exact hs.set name hd

theorem IsValid.openTable? {t t' : Table} (ht : t.IsValid) {path : List Text} {name : Text}
    (h : t.openTable? path name = some t') : t'.IsValid := by
  refine ht.descend? (fun s s' hs h => ?_) path h
  split at h
  · cases h
    exact hs.set name (isValid_nil false false)
  · next fields hget =>
    cases h
    have hvalid : (Item.table true false fields).toData.IsValid := hs.get? hget
    exact hs.set name hvalid
  · cases h

theorem IsValid.openElement? {t t' : Table} (ht : t.IsValid) {path : List Text} {name : Text}
    (h : t.openElement? path name = some t') : t'.IsValid := by
  refine ht.descend? (fun s s' hs h => ?_) path h
  split at h
  · cases h
    exact hs.set name ⟨isValid_nil false false, trivial⟩
  · next elements hget =>
    cases h
    refine hs.set name (areValid_iff.mpr fun d hd => ?_)
    rw [elementsToData_eq_map, List.map_append] at hd
    obtain hd | hd := List.mem_append.mp hd
    · rw [← elementsToData_eq_map] at hd
      exact areValid_iff.mp (hs.get? hget) d hd
    · obtain rfl := List.mem_singleton.mp hd
      exact isValid_nil false false
  · cases h

end Table

/-! ## Values -/

theorem isValid_of_int? {n : Int} {t rest : Text} {d : Data} (h : int? n t = some (d, rest)) :
    d.IsValid := by
  rw [int?] at h
  split at h
  · next hn =>
    cases h
    rw [IsValid, hn, Bool.true_or]
  · cases h

theorem isValid_of_integer? {t rest : Text} {d : Data} (h : integer? t = some (d, rest)) :
    d.IsValid := by
  rw [integer?.eq_def] at h
  split at h
  · obtain ⟨_, _, h⟩ := Option.bind_eq_some_iff.mp h
    exact isValid_of_int? h
  · obtain ⟨_, _, h⟩ := Option.bind_eq_some_iff.mp h
    exact isValid_of_int? h
  · obtain ⟨_, _, h⟩ := Option.bind_eq_some_iff.mp h
    exact isValid_of_int? h
  · obtain ⟨_, _, h⟩ := Option.bind_eq_some_iff.mp h
    exact isValid_of_int? h

theorem isValid_of_decimal {number t rest : Text} {d : Data}
    (h : (Decimal.read? number >>= fun d => if Binary64.ofDecimal d = .infinite false then none
      else pure (Data.ofFloat (Binary64.ofDecimal d), t)) = some (d, rest)) : d.IsValid := by
  obtain ⟨number, _, h⟩ := Option.bind_eq_some_iff.mp h
  split at h
  · cases h
  · cases h
    exact isValid_ofDecimal number

theorem isValid_of_float? {t rest : Text} {d : Data} (h : float? t = some (d, rest)) :
    d.IsValid := by
  rw [float?] at h
  obtain ⟨⟨whole, u⟩, _, h⟩ := Option.bind_eq_some_iff.mp h
  dsimp only at h
  split at h
  · split at h
    · exact isValid_of_decimal h
    · exact isValid_of_decimal h
  · obtain ⟨_, _, h⟩ := Option.bind_eq_some_iff.mp h
    exact isValid_of_decimal h

/-- A date or a time becomes an object with its text. -/
theorem isValid_date (name t : Text) : IsValid (.object [(name, .text t)]) := by
  rw [IsValid]
  exact ⟨List.pairwise_singleton _ _, trivial, trivial⟩

theorem isValid_of_dateTime? {t rest : Text} {d : Data} (h : dateTime? t = some (d, rest)) :
    d.IsValid := by
  rw [dateTime?] at h
  split at h
  · split at h
    · cases h
      exact isValid_date _ _
    · cases h
      exact isValid_date _ _
  · obtain ⟨_, _, h⟩ := Option.bind_eq_some_iff.mp h
    cases h
    exact isValid_date _ _

theorem isValid_of_specialFloat? {t rest : Text} {d : Data} (h : specialFloat? t = some (d, rest)) :
    d.IsValid := by
  rw [specialFloat?] at h
  split at h
  · cases h
    trivial
  · cases h
    trivial
  · cases h

theorem orElse_cases {a b : Option (Data × Text)} {p : Data × Text} (h : orElse a b = some p) :
    a = some p ∨ b = some p := by
  cases a with
  | none => exact .inr h
  | some q => exact .inl h

section Value

/-- A reader of values that a document can describe. -/
def IsSound (value : Reader Data) : Prop := ∀ {t rest d}, value t = some (d, rest) → d.IsValid

variable {value : Reader Data} (hvalue : IsSound value)
include hvalue

theorem areValid_of_elements? {fuel : Nat} {t rest : Text} {ds : List Data}
    (h : elements? value fuel t = some (ds, rest)) : AreValid ds := by
  induction fuel generalizing t rest ds with
  | zero => cases h
  | succ fuel ih =>
    rw [elements?] at h
    split at h
    · cases h
      trivial
    · obtain ⟨⟨d, u⟩, hd, h⟩ := Option.bind_eq_some_iff.mp h
      dsimp only at h
      split at h
      · cases h
        exact ⟨hvalue hd, trivial⟩
      · obtain ⟨⟨ds, v⟩, hds, h⟩ := Option.bind_eq_some_iff.mp h
        cases h
        exact ⟨hvalue hd, ih hds⟩
      · cases h

theorem isValid_of_pair? {t rest : Text} {key : List Text} {d : Data}
    (h : pair? value t = some ((key, d), rest)) : d.IsValid := by
  rw [pair?] at h
  obtain ⟨⟨found, u⟩, _, h⟩ := Option.bind_eq_some_iff.mp h
  simp only at h
  split at h
  · obtain ⟨⟨d, v⟩, hd, h⟩ := Option.bind_eq_some_iff.mp h
    cases h
    exact hvalue hd
  · cases h

omit hvalue in
theorem isValid_of_addPair? {table table' : Table} {key : List Text} {d : Data}
    (htable : table.IsValid) (hd : d.IsValid) (h : addPair? table key d = some table') :
    table'.IsValid := by
  rw [addPair?] at h
  obtain ⟨name, _, h⟩ := Option.bind_eq_some_iff.mp h
  exact htable.addValue? hd h

theorem isValid_of_pairs? {fuel : Nat} {table table' : Table} {t rest : Text}
    (htable : table.IsValid) (h : pairs? value fuel table t = some (table', rest)) :
    table'.IsValid := by
  induction fuel generalizing table t with
  | zero => cases h
  | succ fuel ih =>
    rw [pairs?] at h
    obtain ⟨⟨⟨key, d⟩, u⟩, hpair, h⟩ := Option.bind_eq_some_iff.mp h
    obtain ⟨added, hadd, h⟩ := Option.bind_eq_some_iff.mp h
    have hadded := isValid_of_addPair? htable (isValid_of_pair? hvalue hpair) hadd
    split at h
    · cases h
      exact hadded
    · exact ih hadded h
    · cases h

end Value

theorem isValid_toFields {t : Table} (h : t.IsValid) : Data.IsValid (.object t.toFields) := by
  have hfields : t.toFields = fieldsToData t.fields := (fieldsToData_eq_map t.fields).symm
  rw [hfields]
  exact h

theorem isSound_value? (depth : Nat) : IsSound (value? depth) := by
  induction depth with
  | zero => nofun
  | succ depth ih =>
    intro t rest d h
    rw [value?.eq_def] at h
    dsimp only at h
    split at h
    · cases h
    next c u =>
    split at h
    · obtain ⟨⟨s, v⟩, _, hs⟩ := Option.map_eq_some_iff.mp h
      cases hs
      trivial
    split at h
    · split at h
      · cases h
      · obtain ⟨⟨ds, v⟩, hds, hlist⟩ := Option.map_eq_some_iff.mp h
        cases hlist
        exact areValid_of_elements? ih hds
    split at h
    · split at h
      · cases h
      split at h
      · cases h
        exact Table.isValid_nil false false
      · obtain ⟨⟨table, v⟩, htable, hobject⟩ := Option.map_eq_some_iff.mp h
        cases hobject
        exact isValid_toFields (isValid_of_pairs? ih (Table.isValid_nil _ _) htable)
    split at h
    · cases h
      trivial
    · cases h
      trivial
    · obtain h | h := orElse_cases h
      · exact isValid_of_dateTime? h
      obtain h | h := orElse_cases h
      · exact isValid_of_float? h
      obtain h | h := orElse_cases h
      · exact isValid_of_specialFloat? h
      · exact isValid_of_integer? h

/-! ## Documents -/

theorem isValid_of_addLine? {p p' : Progress} {t rest : Text} (hp : p.root.IsValid)
    (h : addLine? p t = some (p', rest)) : p'.root.IsValid := by
  rw [addLine?.eq_def] at h
  split at h
  · obtain ⟨⟨⟨key, isElement⟩, u⟩, _, h⟩ := Option.bind_eq_some_iff.mp h
    obtain ⟨name, _, h⟩ := Option.bind_eq_some_iff.mp h
    dsimp only at h
    split at h
    · obtain ⟨root, hroot, h⟩ := Option.bind_eq_some_iff.mp h
      obtain ⟨v, _, h⟩ := Option.bind_eq_some_iff.mp h
      cases h
      exact hp.openElement? hroot
    · obtain ⟨root, hroot, h⟩ := Option.bind_eq_some_iff.mp h
      obtain ⟨v, _, h⟩ := Option.bind_eq_some_iff.mp h
      cases h
      exact hp.openTable? hroot
  · obtain ⟨⟨⟨key, d⟩, u⟩, hpair, h⟩ := Option.bind_eq_some_iff.mp h
    obtain ⟨root, hroot, h⟩ := Option.bind_eq_some_iff.mp h
    obtain ⟨v, _, h⟩ := Option.bind_eq_some_iff.mp h
    cases h
    have hd := isValid_of_pair? (isSound_value? _) hpair
    exact hp.descend? (fun s s' hs => isValid_of_addPair? hs hd) _ hroot

theorem isValid_of_lines? {fuel : Nat} {p : Progress} {t : Text} {table : Table}
    (hp : p.root.IsValid) (h : lines? fuel p t = some table) : table.IsValid := by
  induction fuel generalizing p t with
  | zero => cases h
  | succ fuel ih =>
    rw [lines?] at h
    split at h
    · cases h
      exact hp
    · split at h
      · cases h
        exact hp
      · cases h
    · obtain ⟨⟨q, u⟩, hline, h⟩ := Option.bind_eq_some_iff.mp h
      exact ih (isValid_of_addLine? hp hline) h

/-- What a TOML text describes. -/
theorem isValid_of_document? {t : Text} {fields : List (Text × Data)}
    (h : document? t = some fields) : Data.IsValid (.object fields) := by
  rw [document?.eq_def] at h
  obtain ⟨table, htable, rfl⟩ := Option.map_eq_some_iff.mp h
  exact isValid_toFields (isValid_of_lines? (Table.isValid_nil _ _) htable)

end Scaffold.Toml
