/-!
The integers that fit into machine words.
-/

namespace Scaffold

/-- Integers of 64 bits, one of them for the sign. -/
def isInt64 (n : Int) : Bool := -9223372036854775808 ≤ n && n ≤ 9223372036854775807

theorem isInt64_iff (n : Int) :
    isInt64 n = true ↔ -9223372036854775808 ≤ n ∧ n ≤ 9223372036854775807 := by
  rw [isInt64, Bool.and_eq_true, decide_eq_true_eq, decide_eq_true_eq]

/-- Integers of 64 bits without a sign. -/
def isUnsigned64 (n : Int) : Bool := 0 ≤ n && n ≤ 18446744073709551615

end Scaffold
