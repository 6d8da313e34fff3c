import Scaffold.Proofs.Number.Rounding
import Scaffold.Data
import Scaffold.Word

/-!
The values that a document can describe. Main statements: an object stays one when a field is put
into it (`isValid_insert`), and a decimal becomes one (`isValid_ofDecimal`).
-/

namespace Scaffold

namespace Data

mutual

/-- Whether a document can describe a value: whole numbers have 64 bits, other numbers are doubles,
and the fields of an object are in order. -/
def IsValid : Data → Prop
  | .null | .bool _ | .text _ => True
  | .int n => (isInt64 n || isUnsigned64 n) = true
  | .float (.finite _ m q) => Binary64.IsDouble m q
  | .float _ => False
  | .list items => AreValid items
  | .object fields => Bindings.Ascending fields ∧ FieldsValid fields

def AreValid : List Data → Prop
  | [] => True
  | d :: ds => IsValid d ∧ AreValid ds

def FieldsValid : List (Text × Data) → Prop
  | [] => True
  | (_, d) :: fields => IsValid d ∧ FieldsValid fields

end

theorem areValid_iff {ds : List Data} : AreValid ds ↔ ∀ d ∈ ds, IsValid d := by
  induction ds with
  | nil => simp [AreValid]
  | cons d ds ih => simp [AreValid, ih]

theorem fieldsValid_iff {fields : List (Text × Data)} :
    FieldsValid fields ↔ ∀ p ∈ fields, IsValid p.2 := by
  induction fields with
  | nil => simp [FieldsValid]
  | cons p fields ih => simp [FieldsValid, ih]

theorem isValid_insert {fields : Bindings Data} {d : Data} (name : Text)
    (hfields : IsValid (.object fields)) (hd : IsValid d) :
    IsValid (.object (fields.insert name d)) := by
  refine ⟨Bindings.ascending_insert name d hfields.1, fieldsValid_iff.mpr fun p hp => ?_⟩
  obtain rfl | hp := Bindings.mem_insert hp
  · exact hd
  · exact fieldsValid_iff.mp hfields.2 p hp

theorem isValid_ofDecimal (d : Decimal) : IsValid (.ofFloat (Binary64.ofDecimal d)) := by
  cases h : Binary64.ofDecimal d with
  | finite negative m q => exact Binary64.isDouble_of_ofDecimal h
  | infinite negative => trivial
  | nan => trivial

end Data

end Scaffold
