import Mathlib
import Scaffold.Registry
import Scaffold.Proofs.Number.Rounding
import Scaffold.Proofs.Placeholder.Literal

/-!
The numbers among the arguments of a tag. Main statement: each is written as a numeral, and stands
for an integer if it has no point and 63 bits hold it, and for the double nearest to it otherwise
(`resolve_number`).
-/

namespace Scaffold

/-- One or more digits, and maybe a point with any number of digits behind it. -/
inductive IsNumeral : Text → Prop where
  | whole {digits : Text} (hne : digits ≠ []) (hdigits : digits.all Char.isDigit = true) :
      IsNumeral digits
  | pointed {digits fraction : Text} (hne : digits ≠ [])
      (hdigits : digits.all Char.isDigit = true) (hfraction : fraction.all Char.isDigit = true) :
      IsNumeral (digits ++ '.' :: fraction)

theorem isNumeral_iff {t : Text} : isNumeral t = true ↔ IsNumeral t := by
  constructor
  · intro h
    cases t with
    | nil => cases h
    | cons c t =>
      obtain ⟨hchars, hpoints⟩ := Bool.and_eq_true_iff.mp h
      obtain ⟨hc, ht⟩ := Bool.and_eq_true_iff.mp hchars
      obtain ⟨tail, fraction, rfl⟩ := Grammar.exists_fraction ht (of_decide_eq_true hpoints)
      have hdigits : (c :: tail.1).all Char.isDigit = true := by
        rw [List.all_cons, hc, tail.2]
        rfl
      cases fraction with
      | none =>
        rw [Grammar.fractionText, List.append_nil]
        exact .whole (List.cons_ne_nil _ _) hdigits
      | some fraction => exact .pointed (List.cons_ne_nil c tail.1) hdigits fraction.2
  · intro h
    have hhead {c : Char} {tail : Text} (hall : (c :: tail).all Char.isDigit = true) :
        c.isDigit = true ∧ tail.all Char.isDigit = true := by
      rwa [List.all_cons, Bool.and_eq_true] at hall
    cases h with
    | whole hne hdigits =>
      obtain ⟨c, tail, rfl⟩ := List.exists_cons_of_ne_nil hne
      obtain ⟨hc, htail⟩ := hhead hdigits
      have hnumeral := Grammar.isNumeral_number hc ⟨tail, htail⟩ none
      rwa [Grammar.fractionText, List.append_nil] at hnumeral
    | pointed hne hdigits hfraction =>
      obtain ⟨c, tail, rfl⟩ := List.exists_cons_of_ne_nil hne
      obtain ⟨hc, htail⟩ := hhead hdigits
      exact Grammar.isNumeral_number hc ⟨tail, htail⟩ (some ⟨_, hfraction⟩)

theorem IsNumeral.digits {t : Text} (h : IsNumeral t) (hpoint : '.' ∉ t) :
    t ≠ [] ∧ t.all Char.isDigit = true := by
  cases h with
  | whole hne hdigits => exact ⟨hne, hdigits⟩
  | pointed hne hdigits hfraction => exact absurd (by simp) hpoint

namespace Decimal

/-! ## What a numeral stands for -/

/-- What digits stand for by their places, counted from the last. -/
def placeValue (digits : Text) : Nat := Nat.ofDigits 10 (digits.reverse.map digitValue)

/-- The number that a numeral stands for. -/
def numeralValue (t : Text) : ℚ :=
  let whole := t.takeWhile (· != '.')
  let fraction := (t.dropWhile (· != '.')).drop 1
  placeValue whole + placeValue fraction / 10 ^ fraction.length

theorem placeValue_append (s t : Text) :
    placeValue (s ++ t) = placeValue s * 10 ^ t.length + placeValue t := by
  rw [placeValue, List.reverse_append, List.map_append, Nat.ofDigits_append, List.length_map,
    List.length_reverse, Nat.mul_comm, Nat.add_comm]
  rfl

theorem ofDigits_eq_placeValue (t : Text) : ofDigits t = placeValue t := by
  induction t using List.reverseRecOn with
  | nil => rfl
  | append_singleton t c ih =>
    rw [placeValue_append, ← ih, ofDigits_append, Nat.mul_comm]
    simp [placeValue]

theorem point_not_mem {digits : Text} (h : digits.all Char.isDigit = true) : '.' ∉ digits :=
  fun hpoint => absurd (List.all_eq_true.mp h '.' hpoint) (by decide)

theorem ne_point {t : Text} (h : '.' ∉ t) : ∀ c ∈ t, (c != '.') = true :=
  fun _ hc => bne_iff_ne.mpr fun heq => h (heq ▸ hc)

theorem numeralValue_of_not_mem {t : Text} (h : '.' ∉ t) : numeralValue t = placeValue t := by
  have htake : t.takeWhile (· != '.') = t := List.takeWhile_eq_self_iff.mpr (ne_point h)
  have hdrop : t.dropWhile (· != '.') = [] := List.dropWhile_eq_nil_iff.mpr (ne_point h)
  rw [numeralValue, htake, hdrop]
  simp [placeValue]

theorem numeralValue_append {s : Text} (h : '.' ∉ s) (t : Text) :
    numeralValue (s ++ '.' :: t) = placeValue s + placeValue t / 10 ^ t.length := by
  rw [numeralValue, List.takeWhile_append_of_pos (ne_point h),
    List.dropWhile_append_of_pos (ne_point h)]
  simp

/-! ## What a numeral is read as -/

/-- A numeral is read as the number that it stands for. -/
theorem read?_numeral {t : Text} (h : IsNumeral t) :
    ∃ d, read? t = some d ∧ d.negative = false ∧ Binary64.magnitude d = numeralValue t := by
  cases h with
  | whole hne hdigits =>
    have hread := read?_of_digits false t [] hne (List.all_eq_true.mp hdigits) nofun rfl rfl
    refine ⟨⟨false, ofDigits t, 0⟩, by simpa [signText] using hread, rfl, ?_⟩
    rw [numeralValue_of_not_mem (point_not_mem hdigits), Binary64.magnitude, ofDigits_eq_placeValue,
      zpow_zero, mul_one]
  | @pointed digits fraction hne hdigits hfraction =>
    have hread := read?_positional false digits fraction hne fun c hc =>
      (List.mem_append.mp hc).elim (List.all_eq_true.mp hdigits c) (List.all_eq_true.mp hfraction c)
    refine ⟨⟨false, ofDigits (digits ++ fraction), -fraction.length⟩, hread, rfl, ?_⟩
    have hten : (10 : ℚ) ^ fraction.length ≠ 0 := by positivity
    rw [numeralValue_append (point_not_mem hdigits), Binary64.magnitude, ofDigits_eq_placeValue,
      placeValue_append, zpow_neg, zpow_natCast]
    push_cast
    field_simp

theorem isInt64_ofDigits_iff {t : Text} (hpoint : '.' ∉ t) :
    isInt64 (ofDigits t) = true ↔ numeralValue t ≤ 2 ^ 63 - 1 := by
  have hcast : ((ofDigits t : Nat) : ℚ) ≤ 2 ^ 63 - 1 ↔ ofDigits t ≤ 9223372036854775807 := by
    rw [← @Nat.cast_le ℚ]
    norm_num
  rw [isInt64_iff, numeralValue_of_not_mem hpoint, ← ofDigits_eq_placeValue, hcast]
  omega

end Decimal

namespace Value

open Decimal

/-- A numeral never stands for itself as a text. -/
theorem ofNumber_numeral {t : Text} (h : IsNumeral t) :
    ('.' ∉ t ∧ numeralValue t ≤ 2 ^ 63 - 1 ∧ ofNumber t = .int (ofDigits t)) ∨
      (¬ ('.' ∉ t ∧ numeralValue t ≤ 2 ^ 63 - 1) ∧
        ∃ x, ofNumber t = .float x ∧ x.IsNearest false (numeralValue t)) := by
  by_cases hint : '.' ∉ t ∧ numeralValue t ≤ 2 ^ 63 - 1
  · obtain ⟨hpoint, hsmall⟩ := hint
    obtain ⟨hne, hdigits⟩ := h.digits hpoint
    have hword := (isInt64_ofDigits_iff hpoint).mpr hsmall
    exact .inl ⟨hpoint, hsmall, if_pos ⟨hpoint, hne, hdigits, hword⟩⟩
  · obtain ⟨d, hread, hsign, hvalue⟩ := read?_numeral h
    have hnearest := Binary64.isNearest_ofDecimal d
    rw [hsign, hvalue] at hnearest
    refine .inr ⟨hint, _, ?_, hnearest⟩
    rw [ofNumber, if_neg fun hword => hint ⟨hword.1, (isInt64_ofDigits_iff hword.1).mp hword.2.2.2⟩,
      hread]

theorem toText_ofDigits {t : Text} (h : t.all Char.isDigit = true) :
    (Value.int (ofDigits t)).toText = trimZeros t := by
  have hsign : ¬ (ofDigits t : Int) < 0 := by omega
  rw [toText, intText, if_neg hsign, Int.natAbs_natCast,
    digitText_eq_trimZeros (List.all_eq_true.mp h)]

end Value

namespace Argument

open Decimal

variable {source t : Text} {tag : Tag}

/-- A number among the arguments of a tag is a numeral. It resolves to the integer that it stands
for if it has no point and 63 bits hold it, to the double nearest to what it stands for otherwise,
and never to a text. An integer is passed on without leading zeros. -/
theorem resolve_number (htag : tag ∈ Tag.scan source) (ht : .argument (.number t) ∈ tag.tokens)
    (scope : Bindings Text) :
    IsNumeral t ∧
    (∀ n, (number t).resolve scope = .int n ↔
      '.' ∉ t ∧ (n : ℚ) = numeralValue t ∧ n ≤ 2 ^ 63 - 1) ∧
    (¬ ('.' ∉ t ∧ numeralValue t ≤ 2 ^ 63 - 1) ↔
      ∃ x, (number t).resolve scope = .float x ∧ x.IsNearest false (numeralValue t)) ∧
    (∀ s, (number t).resolve scope ≠ .text s) ∧
    ∀ n, (number t).resolve scope = .int n → (Value.int n).toText = trimZeros t := by
  have hnumeral : IsNumeral t := isNumeral_iff.mp (Tag.isWritable_of_mem_scan htag _ ht)
  refine ⟨hnumeral, ?_⟩
  rcases Value.ofNumber_numeral hnumeral with ⟨hpoint, hsmall, hint⟩ | ⟨hlarge, x, hfloat, hnearest⟩
  · have hvalue := numeralValue_of_not_mem hpoint
    rw [← ofDigits_eq_placeValue] at hvalue
    rw [resolve, hint]
    refine ⟨fun n => ⟨?_, ?_⟩, ?_, nofun, ?_⟩
    · rintro ⟨⟩
      rw [hvalue] at hsmall ⊢
      exact ⟨hpoint, Int.cast_natCast _, by exact_mod_cast hsmall⟩
    · rintro ⟨-, hn, -⟩
      rw [hvalue] at hn
      have hsame : n = ofDigits t := by exact_mod_cast hn
      rw [hsame]
    · exact iff_of_false (not_not.mpr ⟨hpoint, hsmall⟩) (by rintro ⟨x, ⟨⟩, -⟩)
    · rintro n ⟨⟩
      exact Value.toText_ofDigits (hnumeral.digits hpoint).2
  · rw [resolve, hfloat]
    refine ⟨fun n => iff_of_false nofun ?_, iff_of_true hlarge ⟨x, rfl, hnearest⟩, nofun, nofun⟩
    rintro ⟨hpoint, hn, hsmall⟩
    rw [← hn] at hlarge
    exact hlarge ⟨hpoint, by exact_mod_cast hsmall⟩

/-- The least number that 63 bits do not hold, and one that they hold, with leading zeros. -/
theorem resolve_number_bounds :
    ∃ tag ∈ Tag.scan "\x7b?a.b(007, 9223372036854775808)?\x7d".toList,
      .argument (.number "007".toList) ∈ tag.tokens ∧
      .argument (.number "9223372036854775808".toList) ∈ tag.tokens ∧
      (number "007".toList).resolve [] = .int 7 ∧ (Value.int 7).toText = ['7'] ∧
      ∃ x, (number "9223372036854775808".toList).resolve [] = .float x ∧
        x.IsNearest false (2 ^ 63) := by
  have htokens : ∃ tag ∈ Tag.scan "\x7b?a.b(007, 9223372036854775808)?\x7d".toList,
      .argument (.number "007".toList) ∈ tag.tokens ∧
      .argument (.number "9223372036854775808".toList) ∈ tag.tokens := by decide
  obtain ⟨tag, htag, hpadded, hbound⟩ := htokens
  have hseven : numeralValue "007".toList = (7 : Nat) := numeralValue_of_not_mem (by decide)
  have hlarge : numeralValue "9223372036854775808".toList = (9223372036854775808 : Nat) :=
    numeralValue_of_not_mem (by decide)
  have hint : (number "007".toList).resolve [] = .int 7 :=
    ((resolve_number htag hpadded []).2.1 7).mpr ⟨by decide, by rw [hseven]; rfl, by decide⟩
  obtain ⟨x, hx, hnearest⟩ := (resolve_number htag hbound []).2.2.1.mp fun h => by
    have := h.2
    rw [hlarge] at this
    norm_num at this
  refine ⟨tag, htag, hpadded, hbound, hint, (resolve_number htag hpadded []).2.2.2.2 7 hint, x, hx,
    ?_⟩
  rw [hlarge] at hnearest
  exact_mod_cast hnearest

end Argument

end Scaffold
