import Mathlib.Algebra.Order.Field.Power
import Mathlib.Data.Rat.Cast.Order
import Mathlib.Tactic.FieldSimp
import Mathlib.Tactic.Linarith
import Mathlib.Tactic.Positivity
import Mathlib.Tactic.Ring
import Scaffold.Binary64
import Scaffold.Proofs.Number.Digits

/-!
The double nearest to a number. Main statement: a decimal is read as the double nearest to it, and
as infinite from half a unit beyond the largest double on (`ofDecimal_eq_iff`).
-/

namespace Scaffold.Binary64

/-- A mantissa and an exponent in the form with the least exponent. -/
structure IsDouble (m : Nat) (q : Int) : Prop where
  least : -1074 ≤ q
  greatest : q ≤ 971
  lt : m < mantissaBound
  full : q = -1074 ∨ mantissaBound / 2 ≤ m

theorem inUnits_pos (num : Nat) {den base : Nat} (hden : 0 < den) (hbase : 0 < base) (e : Int) :
    0 < (inUnits num den base e).2 := by
  rw [inUnits]
  split
  · exact Nat.mul_pos hden (Nat.pow_pos hbase)
  · exact hden

theorem inUnits_div (num den : Nat) {base : Nat} (hbase : 0 < base) (e : Int) :
    ((inUnits num den base e).1 : ℚ) / (inUnits num den base e).2 =
      num / den / (base : ℚ) ^ e := by
  have hb : (base : ℚ) ≠ 0 := by positivity
  rw [inUnits]
  split
  · next h =>
    obtain ⟨n, rfl⟩ := Int.eq_ofNat_of_zero_le h
    simp [Nat.pow_eq, div_div]
  · next h =>
    obtain ⟨n, hn⟩ := Int.eq_ofNat_of_zero_le (show 0 ≤ -e by omega)
    obtain rfl : e = -n := by omega
    simp [Nat.pow_eq]
    ring

/-! ## Rounding to a natural number -/

/-- The natural number nearest to `y`, and the even one of two. -/
structure RoundsTo (y : ℚ) (n : Nat) : Prop where
  low : (n : ℚ) - 1 / 2 ≤ y
  high : y ≤ n + 1 / 2
  odd : n % 2 = 1 → (n : ℚ) - 1 / 2 < y ∧ y < n + 1 / 2

theorem roundsTo_roundHalfEven (a : Nat) {b : Nat} (hb : 0 < b) :
    RoundsTo (a / b) (roundHalfEven a b) := by
  obtain ⟨n, hn⟩ : ∃ n, n = a / b := ⟨_, rfl⟩
  obtain ⟨r, hr⟩ : ∃ r, r = a % b := ⟨_, rfl⟩
  have hrb : r < b := hr ▸ Nat.mod_lt a hb
  have hsplit : (a : ℚ) / b = n + r / b := by
    have hwhole : a = b * n + r := by
      rw [hn, hr]
      exact (Nat.div_add_mod a b).symm
    have hbne : (b : ℚ) ≠ 0 := Nat.cast_ne_zero.mpr hb.ne'
    rw [hwhole]
    push_cast
    field_simp
  have hb' : (0 : ℚ) < b := Nat.cast_pos.mpr hb
  have hnonneg : (0 : ℚ) ≤ r / b := by positivity
  have hlt : (r : ℚ) / b < 1 := by
    rw [div_lt_one hb']
    exact_mod_cast hrb
  have hhigh : (r : ℚ) / b ≤ 1 / 2 ↔ 2 * r ≤ b := by
    rw [div_le_iff₀ hb', ← @Nat.cast_le ℚ]
    push_cast
    constructor <;> intro h <;> linarith
  have hlow : 1 / 2 ≤ (r : ℚ) / b ↔ b ≤ 2 * r := by
    rw [le_div_iff₀ hb', ← @Nat.cast_le ℚ]
    push_cast
    constructor <;> intro h <;> linarith
  rw [hsplit, roundHalfEven, ← hn, ← hr]
  split
  · next hup =>
    have hge := hlow.mpr (by omega)
    refine ⟨by push_cast; linarith, by push_cast; linarith, fun hodd => ?_⟩
    have hgt := not_le.mp (mt hhigh.mp (by omega))
    push_cast
    exact ⟨by linarith, by linarith⟩
  · next hdown =>
    have hle := hhigh.mpr (by omega)
    refine ⟨by linarith, by linarith, fun hodd => ?_⟩
    have hlt := not_le.mp (mt hlow.mp (by omega))
    exact ⟨by linarith, by linarith⟩

/-! ## The exponent -/

/-- In units of this power of two, a number has a mantissa of the right size. -/
structure IsUnit (x : ℚ) (e : Int) : Prop where
  least : -1074 ≤ e
  lt : x < 2 ^ (53 + e)
  full : e = -1074 ∨ 2 ^ (52 + e) ≤ x

theorem mantissaBound_eq : (mantissaBound : ℚ) = 2 ^ (53 : Int) ∧
    ((mantissaBound / 2 : Nat) : ℚ) = 2 ^ (52 : Int) := by
  constructor <;> norm_num [mantissaBound]

theorem div_lt_mantissaBound (x : ℚ) (e : Int) : x / 2 ^ e < mantissaBound ↔ x < 2 ^ (53 + e) := by
  rw [mantissaBound_eq.1, div_lt_iff₀ (by positivity), ← zpow_add₀ two_ne_zero]

theorem mantissaBound_le_div (x : ℚ) (e : Int) :
    ((mantissaBound / 2 : Nat) : ℚ) ≤ x / 2 ^ e ↔ 2 ^ (52 + e) ≤ x := by
  rw [mantissaBound_eq.2, le_div_iff₀ (by positivity), ← zpow_add₀ two_ne_zero]

/-- The power of two that a fraction is measured in. -/
def unitOf (num den : Nat) : Int :=
  let low := max ((num.log2 : Int) - den.log2 - 53) (-1074)
  if (inUnits num den 2 low).1 / (inUnits num den 2 low).2 < mantissaBound then low else low + 1

section Exponent

variable {num den : Nat} (hnum : 0 < num) (hden : 0 < den)
include hnum hden

theorem lt_fraction : (2 : ℚ) ^ ((num.log2 : Int) - den.log2 - 1) < num / den ∧
    (num / den : ℚ) < 2 ^ ((num.log2 : Int) - den.log2 + 1) := by
  have hnlow : (2 : ℚ) ^ (num.log2 : Int) ≤ num := by
    rw [zpow_natCast]
    exact_mod_cast Nat.log2_self_le hnum.ne'
  have hdlow : (2 : ℚ) ^ (den.log2 : Int) ≤ den := by
    rw [zpow_natCast]
    exact_mod_cast Nat.log2_self_le hden.ne'
  have hnhigh : (num : ℚ) < 2 ^ ((num.log2 : Int) + 1) := by
    rw [← Nat.cast_succ, zpow_natCast]
    exact_mod_cast @Nat.lt_log2_self num
  have hdhigh : (den : ℚ) < 2 ^ ((den.log2 : Int) + 1) := by
    rw [← Nat.cast_succ, zpow_natCast]
    exact_mod_cast @Nat.lt_log2_self den
  have hdpos : (0 : ℚ) < den := Nat.cast_pos.mpr hden
  constructor
  · rw [lt_div_iff₀ hdpos]
    calc (2 : ℚ) ^ ((num.log2 : Int) - den.log2 - 1) * den
        < 2 ^ ((num.log2 : Int) - den.log2 - 1) * 2 ^ ((den.log2 : Int) + 1) :=
          mul_lt_mul_of_pos_left hdhigh (by positivity)
      _ = 2 ^ (num.log2 : Int) := by
          rw [← zpow_add₀ two_ne_zero]
          congr 1
          ring
      _ ≤ num := hnlow
  · rw [div_lt_iff₀ hdpos]
    calc (num : ℚ) < 2 ^ ((num.log2 : Int) + 1) := hnhigh
      _ = 2 ^ ((num.log2 : Int) - den.log2 + 1) * 2 ^ (den.log2 : Int) := by
          rw [← zpow_add₀ two_ne_zero]
          congr 1
          ring
      _ ≤ 2 ^ ((num.log2 : Int) - den.log2 + 1) * den :=
          mul_le_mul_of_nonneg_left hdlow (by positivity)

theorem isUnit_unitOf : IsUnit (num / den) (unitOf num den) := by
  obtain ⟨hlow, hhigh⟩ := lt_fraction hnum hden
  obtain ⟨x, hx⟩ : ∃ x : ℚ, x = num / den := ⟨_, rfl⟩
  obtain ⟨log, hlog⟩ : ∃ log : Int, log = (num.log2 : Int) - den.log2 := ⟨_, rfl⟩
  obtain ⟨low, hlowdef⟩ : ∃ low : Int, low = max (log - 53) (-1074) := ⟨_, rfl⟩
  have hmantissa : (inUnits num den 2 low).1 / (inUnits num den 2 low).2 < mantissaBound ↔
      x < 2 ^ (53 + low) := by
    have hunit := inUnits_pos num hden (show 0 < 2 by decide) low
    rw [Nat.div_lt_iff_lt_mul hunit, ← div_lt_mantissaBound, hx, ← Nat.cast_ofNat (R := ℚ) (n := 2),
      ← inUnits_div num den (by decide), div_lt_iff₀ (Nat.cast_pos.mpr hunit)]
    exact_mod_cast Iff.rfl
  rw [unitOf, ← hlog, ← hlowdef, ← hx]
  rw [← hlog, ← hx] at hlow hhigh
  have hpow : ∀ {a b : Int}, a ≤ b → (2 : ℚ) ^ a ≤ 2 ^ b := zpow_le_zpow_right₀ one_le_two
  split
  · next h =>
    refine ⟨by omega, hmantissa.mp h, ?_⟩
    by_cases hsmall : low = -1074
    · exact .inl hsmall
    · exact .inr ((hpow (by omega)).trans hlow.le)
  · next h =>
    rw [hmantissa, not_lt] at h
    refine ⟨by omega, hhigh.trans_le (hpow ?_), .inr ((hpow (by omega)).trans h)⟩
    omega

end Exponent

/-! ## The nearest double -/

/-- A mantissa of one bit too many is one of the next power of two. -/
def settle (negative : Bool) (m : Nat) (e : Int) : Binary64 :=
  let (m, e) := if m = mantissaBound then (mantissaBound / 2, e + 1) else (m, e)
  if 971 < e then .infinite negative else .finite negative m e

theorem ofFraction_eq_settle (negative : Bool) (num den : Nat) : ofFraction negative num den =
    settle negative (roundHalfEven (inUnits num den 2 (unitOf num den)).1
      (inUnits num den 2 (unitOf num den)).2) (unitOf num den) := rfl

/-- How far the double below is, in halves of the last place. -/
def below (m : Nat) (q : Int) : Nat := if m = mantissaBound / 2 ∧ -1074 < q then 1 else 2

theorem below_le (m : Nat) (q : Int) : below m q ≤ 2 := by
  rw [below]
  split <;> decide

theorem below_div_le (m : Nat) (q : Int) : (below m q : ℚ) / 4 ≤ 1 / 2 := by
  have : (below m q : ℚ) ≤ 2 := by exact_mod_cast below_le m q
  linarith

/-- Between the midpoints to the neighbours of a double, in units of its last place. The midpoints
count if its mantissa is even. -/
structure Near (m : Nat) (q : Int) (y : ℚ) : Prop where
  low : (m : ℚ) - below m q / 4 ≤ y
  high : y ≤ m + 1 / 2
  odd : m % 2 = 1 → (m : ℚ) - below m q / 4 < y ∧ y < m + 1 / 2

theorem Near.half_le {m : Nat} {q : Int} {y : ℚ} (h : Near m q y) (hm : 0 < m) : 1 / 2 ≤ y := by
  have hone : (1 : ℚ) ≤ m := by exact_mod_cast hm
  have := below_div_le m q
  linarith [h.low]

theorem Near.lt {m : Nat} {q : Int} {y : ℚ} (hnear : Near m q y) (h : IsDouble m q) :
    y < mantissaBound - 1 / 2 := by
  have hhigh := hnear.high
  have hlt := h.lt
  by_cases hlast : m + 1 = mantissaBound
  · have hodd := (hnear.odd (by rw [mantissaBound] at hlast; omega)).2
    rw [← hlast]
    push_cast
    linarith
  · have hle : ((m + 2 : Nat) : ℚ) ≤ mantissaBound := Nat.cast_le.mpr (by omega)
    push_cast at hle
    linarith

theorem Near.le {m : Nat} {q : Int} {y : ℚ} (hnear : Near m q y) (h : IsDouble m q)
    (hq : -1074 < q) : (mantissaBound - 1 / 2 : ℚ) / 2 ≤ y := by
  have hlow := hnear.low
  have hhalf : (mantissaBound : ℚ) / 2 = (mantissaBound / 2 : Nat) := by norm_num [mantissaBound]
  have hfull := h.full.resolve_left hq.ne'
  rw [sub_div, hhalf]
  by_cases hleast : m = mantissaBound / 2
  · -- Directly below a power of two the last place is half as wide.
    rw [below, if_pos ⟨hleast, hq⟩, hleast] at hlow
    norm_num at hlow ⊢
    linarith
  · have hbelow := below_div_le m q
    have hgt : ((mantissaBound / 2 + 1 : Nat) : ℚ) ≤ m := Nat.cast_le.mpr (by omega)
    push_cast at hgt
    linarith

section Unique

variable {v y : ℚ} {m n : Nat} {q r : Int}

theorem Near.exponent_le (hm : IsDouble m q) (hn : IsDouble n r) (hv : Near m q (v / 2 ^ q))
    (hw : Near n r (v / 2 ^ r)) : r ≤ q := by
  refine Int.not_lt.mp fun hqr => ?_
  have hlt := hv.lt hm
  have hle := hw.le hn (by have := hm.least; omega)
  rw [div_lt_iff₀ (by positivity)] at hlt
  rw [le_div_iff₀ (by positivity)] at hle
  have hpow : (2 : ℚ) ^ (q + 1) ≤ 2 ^ r := zpow_le_zpow_right₀ one_le_two (by omega)
  rw [zpow_add_one₀ two_ne_zero] at hpow
  have hbound : (0 : ℚ) ≤ (mantissaBound - 1 / 2) / 2 := by norm_num [mantissaBound]
  have hscaled := mul_le_mul_of_nonneg_left hpow hbound
  linarith

/-- A midpoint goes to the even one of the two mantissas beside it. -/
theorem Near.mantissa_le (hv : Near m q y) (hw : Near n q y) : n ≤ m := by
  refine Nat.not_lt.mp fun hmn => ?_
  have hle : ((m + 1 : Nat) : ℚ) ≤ n := Nat.cast_le.mpr hmn
  have hbelow := below_div_le n q
  push_cast at hle
  by_cases hodd : m % 2 = 1
  · linarith [(hv.odd hodd).2, hw.low]
  · by_cases hnext : n % 2 = 1
    · linarith [(hw.odd hnext).1, hv.high]
    · have hfar : ((m + 2 : Nat) : ℚ) ≤ n := Nat.cast_le.mpr (by omega)
      push_cast at hfar
      linarith [hv.high, hw.low]

/-- A number has one nearest double. -/
theorem Near.unique (hm : IsDouble m q) (hn : IsDouble n r) (hv : Near m q (v / 2 ^ q))
    (hw : Near n r (v / 2 ^ r)) : m = n ∧ q = r := by
  obtain rfl : q = r :=
    Int.le_antisymm (Near.exponent_le hn hm hw hv) (Near.exponent_le hm hn hv hw)
  exact ⟨Nat.le_antisymm (hw.mantissa_le hv) (hv.mantissa_le hw), rfl⟩

end Unique

/-- Half a unit of the last place beyond the largest double. -/
def overflowBound : ℚ := (mantissaBound - 1 / 2) * 2 ^ (971 : Int)

theorem overflowBound_le_two_zpow : overflowBound ≤ 2 ^ (1024 : Int) := by
  have hmantissa : (mantissaBound : ℚ) - 1 / 2 ≤ 2 ^ (53 : Int) := by
    rw [mantissaBound_eq.1]
    linarith
  calc overflowBound ≤ 2 ^ (53 : Int) * 2 ^ (971 : Int) :=
        mul_le_mul_of_nonneg_right hmantissa (by positivity)
    _ = 2 ^ (1024 : Int) := (zpow_add₀ two_ne_zero 53 971).symm

/-- The double that the number of this sign and magnitude is nearest to. -/
def IsNearest (negative : Bool) (v : ℚ) : Binary64 → Prop
  | .finite sign m q => sign = negative ∧ IsDouble m q ∧ Near m q (v / 2 ^ q)
  | .infinite sign => sign = negative ∧ overflowBound ≤ v
  | .nan => False

theorem Near.lt_overflowBound {v : ℚ} {m : Nat} {q : Int} (hnear : Near m q (v / 2 ^ q))
    (h : IsDouble m q) : v < overflowBound := by
  have hlt := hnear.lt h
  rw [div_lt_iff₀ (by positivity)] at hlt
  have hbound : (0 : ℚ) ≤ mantissaBound - 1 / 2 := by norm_num [mantissaBound]
  have hpow : (2 : ℚ) ^ q ≤ 2 ^ (971 : Int) := zpow_le_zpow_right₀ one_le_two h.greatest
  exact hlt.trans_le (mul_le_mul_of_nonneg_left hpow hbound)

theorem IsNearest.unique {negative : Bool} {v : ℚ} {x y : Binary64} (hx : x.IsNearest negative v)
    (hy : y.IsNearest negative v) : x = y := by
  cases x with
  | finite sign m q =>
    obtain ⟨rfl, hm, hnear⟩ := hx
    cases y with
    | finite sign n r =>
      obtain ⟨rfl, hn, hnext⟩ := hy
      obtain ⟨rfl, rfl⟩ := Near.unique hm hn hnear hnext
      rfl
    | infinite sign => exact absurd hy.2 (hnear.lt_overflowBound hm).not_ge
    | nan => exact hy.elim
  | infinite sign =>
    obtain ⟨rfl, hbound⟩ := hx
    cases y with
    | finite sign n r => exact absurd hbound (hy.2.2.lt_overflowBound hy.2.1).not_ge
    | infinite sign => rw [hy.1]
    | nan => exact hy.elim
  | nan => exact hx.elim

section Settle

variable {v : ℚ} {e : Int} {r : Nat} (hunit : IsUnit v e)
include hunit

theorem half_le_div (he : -1074 < e) : ((mantissaBound / 2 : Nat) : ℚ) ≤ v / 2 ^ e :=
  (mantissaBound_le_div v e).mpr (hunit.full.resolve_left he.ne')

theorem mantissa_le (h : RoundsTo (v / 2 ^ e) r) : r ≤ mantissaBound := by
  have hlt := (div_lt_mantissaBound v e).mpr hunit.lt
  have hlow := h.low
  have : (r : ℚ) < (mantissaBound + 1 : Nat) := by
    push_cast
    linarith
  exact Nat.lt_succ_iff.mp (Nat.cast_lt.mp this)

theorem half_le_mantissa (he : -1074 < e) (h : RoundsTo (v / 2 ^ e) r) : mantissaBound / 2 ≤ r := by
  have hfull := half_le_div hunit he
  have hhigh := h.high
  have : ((mantissaBound / 2 : Nat) : ℚ) < (r + 1 : Nat) := by
    push_cast
    linarith
  exact Nat.lt_succ_iff.mp (Nat.cast_lt.mp this)

theorem near_mantissa (h : RoundsTo (v / 2 ^ e) r) : Near r e (v / 2 ^ e) := by
  by_cases hpower : r = mantissaBound / 2 ∧ -1074 < e
  · have hfull := half_le_div hunit hpower.2
    rw [← hpower.1] at hfull
    refine ⟨?_, h.high, fun hodd => ?_⟩
    · have : (0 : ℚ) ≤ below r e / 4 := by positivity
      linarith
    · rw [hpower.1] at hodd
      exact absurd hodd (by decide)
  · have hbelow : (below r e : ℚ) / 4 = 1 / 2 := by
      rw [below, if_neg hpower]
      norm_num
    exact ⟨hbelow ▸ h.low, h.high, hbelow ▸ h.odd⟩

/-- A mantissa of one bit too many, in units of the next power of two. -/
theorem near_carried (h : RoundsTo (v / 2 ^ e) mantissaBound) :
    Near (mantissaBound / 2) (e + 1) (v / 2 ^ (e + 1)) := by
  have hlow := h.low
  have hlt := (div_lt_mantissaBound v e).mpr hunit.lt
  have hleast := hunit.least
  have hhalf : v / 2 ^ (e + 1) = v / 2 ^ e / 2 := by rw [zpow_add_one₀ two_ne_zero, div_div]
  have hbound : (mantissaBound : ℚ) = 2 * ((mantissaBound / 2 : Nat) : ℚ) := by
    norm_num [mantissaBound]
  rw [hhalf]
  refine ⟨?_, by linarith, fun hodd => absurd hodd (by decide)⟩
  rw [below, if_pos ⟨rfl, by omega⟩]
  push_cast
  linarith

theorem overflowBound_le_of_unit (he : 971 < e) : overflowBound ≤ v :=
  calc overflowBound ≤ 2 ^ (1024 : Int) := overflowBound_le_two_zpow
    _ ≤ 2 ^ (52 + e) := zpow_le_zpow_right₀ one_le_two (by omega)
    _ ≤ v := hunit.full.resolve_left (by omega)

theorem isNearest_settle (negative : Bool) (h : RoundsTo (v / 2 ^ e) r) :
    (settle negative r e).IsNearest negative v := by
  have hleast := hunit.least
  rw [settle]
  by_cases hcarry : r = mantissaBound
  · subst hcarry
    rw [if_pos rfl]
    dsimp only
    split
    · next hover =>
      have hpow : (2 : ℚ) ^ (971 : Int) ≤ 2 ^ e := zpow_le_zpow_right₀ one_le_two (by omega)
      have hlow := (le_div_iff₀ (by positivity)).mp h.low
      have hbound : (0 : ℚ) ≤ mantissaBound - 1 / 2 := by norm_num [mantissaBound]
      exact ⟨rfl, (mul_le_mul_of_nonneg_left hpow hbound).trans hlow⟩
    · exact ⟨rfl, ⟨by omega, by omega, by decide, .inr (Nat.le_refl _)⟩, near_carried hunit h⟩
  · have hlt : r < mantissaBound := lt_of_le_of_ne (mantissa_le hunit h) hcarry
    have hfull : e = -1074 ∨ mantissaBound / 2 ≤ r :=
      hleast.eq_or_lt.imp Eq.symm fun he => half_le_mantissa hunit he h
    rw [if_neg hcarry]
    dsimp only
    split
    · next hover => exact ⟨rfl, overflowBound_le_of_unit hunit hover⟩
    · exact ⟨rfl, ⟨hleast, by omega, hlt, hfull⟩, near_mantissa hunit h⟩

end Settle

theorem isNearest_ofFraction (negative : Bool) {num den : Nat} (hnum : 0 < num) (hden : 0 < den) :
    (ofFraction negative num den).IsNearest negative (num / den) := by
  have hround := roundsTo_roundHalfEven (inUnits num den 2 (unitOf num den)).1
    (inUnits_pos num hden (show 0 < 2 by decide) (unitOf num den))
  rw [inUnits_div num den (show 0 < 2 by decide), Nat.cast_ofNat] at hround
  rw [ofFraction_eq_settle]
  exact isNearest_settle (isUnit_unitOf hnum hden) negative hround

/-! ## Decimals -/

/-- The number that a decimal stands for, but for its sign. -/
def magnitude (d : Decimal) : ℚ := d.digits * 10 ^ d.scale

theorem magnitude_of_isPadded {d e : Decimal} {zeros : Nat} (h : d.IsPadded e zeros)
    (hd : d.digits ≠ 0) : magnitude e = magnitude d := by
  have hten : (10 : ℚ) ≠ 0 := by norm_num
  rw [magnitude, magnitude, h.digits, h.scale hd, zpow_sub₀ hten, zpow_natCast]
  push_cast
  field_simp

theorem zpow_le_magnitude {d : Decimal} (hd : d.digits ≠ 0) :
    (10 : ℚ) ^ (((Decimal.digitText d.digits).length : Int) + d.scale - 1) ≤ magnitude d := by
  obtain ⟨len, hlen⟩ : ∃ len, len = (Decimal.digitText d.digits).length := ⟨_, rfl⟩
  have hlenpos : 0 < len := hlen ▸ Nat.length_toDigits_pos
  have hpow : (10 : ℚ) ^ (len - 1) ≤ d.digits := by
    exact_mod_cast hlen ▸ (Decimal.pow_length_le hd).1
  have hsum : (len : Int) + d.scale - 1 = ((len - 1 : Nat) : Int) + d.scale := by omega
  rw [← hlen, hsum, zpow_add₀ (by norm_num), zpow_natCast, magnitude]
  exact mul_le_mul_of_nonneg_right hpow (by positivity)

theorem magnitude_lt_zpow {d : Decimal} (hd : d.digits ≠ 0) :
    magnitude d < (10 : ℚ) ^ (((Decimal.digitText d.digits).length : Int) + d.scale) := by
  have hpow : (d.digits : ℚ) < 10 ^ (Decimal.digitText d.digits).length := by
    exact_mod_cast (Decimal.pow_length_le hd).2
  rw [zpow_add₀ (by norm_num), zpow_natCast, magnitude]
  exact mul_lt_mul_of_pos_right hpow (by positivity)

/-- The least number of 331 places is infinite. -/
theorem overflowBound_le_ten_zpow : overflowBound ≤ 10 ^ (330 : Int) := by
  have hpow : (2 : ℚ) ^ 1024 ≤ 10 ^ 330 := by
    exact_mod_cast (show (2 : Nat) ^ 1024 ≤ 10 ^ 330 by decide +kernel)
  refine overflowBound_le_two_zpow.trans ?_
  rw [zpow_ofNat, zpow_ofNat]
  exact hpow

/-- What lies below half the least double is rounded to zero. -/
theorem near_zero {v : ℚ} (hv : 0 ≤ v) (h : v < 10 ^ (-330 : Int)) :
    Near 0 (-1074) (v / 2 ^ (-1074 : Int)) := by
  have hpow : (2 : ℚ) ^ 1075 ≤ 10 ^ 330 := by
    exact_mod_cast (show (2 : Nat) ^ 1075 ≤ 10 ^ 330 by decide +kernel)
  have hinv : ((10 : ℚ) ^ 330)⁻¹ ≤ (2 ^ 1075)⁻¹ := inv_anti₀ (by positivity) hpow
  have hnonneg : 0 ≤ v / 2 ^ (-1074 : Int) := by positivity
  have hhalf : v / 2 ^ (-1074 : Int) ≤ 1 / 2 := by
    have hstep : (2 : ℚ) ^ (-1075 : Int) = 1 / 2 * 2 ^ (-1074 : Int) := by
      have htwo : (2 : ℚ) ≠ 0 := two_ne_zero
      rw [mul_comm, one_div]
      exact zpow_sub_one₀ htwo (-1074)
    rw [div_le_iff₀ (by positivity), ← hstep]
    rw [zpow_neg, zpow_ofNat] at h ⊢
    exact (h.trans_le hinv).le
  have hbelow : (0 : ℚ) ≤ below 0 (-1074) / 4 := by positivity
  rw [← zero_add (1 / 2 : ℚ), ← Nat.cast_zero] at hhalf
  exact ⟨by rw [Nat.cast_zero]; linarith, hhalf, nofun⟩

theorem isDouble_zero : IsDouble 0 (-1074) := ⟨by decide, by decide, by decide, .inl rfl⟩

theorem isNearest_ofDecimal (d : Decimal) : (ofDecimal d).IsNearest d.negative (magnitude d) := by
  simp only [ofDecimal]
  by_cases hzero : d.digits = 0
  · rw [if_pos (.inl hzero), magnitude, hzero, Nat.cast_zero, zero_mul]
    exact ⟨rfl, isDouble_zero, near_zero le_rfl (by positivity)⟩
  split
  · next hsmall =>
    have hbound : (10 : ℚ) ^ (((Decimal.digitText d.digits).length : Int) + d.scale) ≤
        10 ^ (-330 : Int) :=
      zpow_le_zpow_right₀ (by norm_num) (hsmall.resolve_left hzero).le
    refine ⟨rfl, isDouble_zero, near_zero ?_ ((magnitude_lt_zpow hzero).trans_le hbound)⟩
    rw [magnitude]
    positivity
  split
  · next hlarge =>
    have hbound : (10 : ℚ) ^ (330 : Int) ≤
        10 ^ (((Decimal.digitText d.digits).length : Int) + d.scale - 1) :=
      zpow_le_zpow_right₀ (by norm_num) (by omega)
    exact ⟨rfl, overflowBound_le_ten_zpow.trans (hbound.trans (zpow_le_magnitude hzero))⟩
  · have hnum : 0 < (inUnits d.digits 1 10 (-d.scale)).1 := by
      rw [inUnits]
      split
      · exact Nat.pos_of_ne_zero hzero
      · exact Nat.mul_pos (Nat.pos_of_ne_zero hzero) (Nat.pow_pos (by decide))
    have hnearest := isNearest_ofFraction d.negative hnum
      (inUnits_pos d.digits (show 0 < 1 by decide) (show 0 < 10 by decide) (-d.scale))
    rwa [inUnits_div d.digits 1 (show 0 < 10 by decide) (-d.scale), Nat.cast_one, div_one, zpow_neg,
      div_inv_eq_mul, Nat.cast_ofNat] at hnearest

/-- A decimal is read as the double nearest to it. -/
theorem ofDecimal_eq_iff {d : Decimal} {x : Binary64} :
    ofDecimal d = x ↔ x.IsNearest d.negative (magnitude d) :=
  ⟨fun h => h ▸ isNearest_ofDecimal d, fun h => (isNearest_ofDecimal d).unique h⟩

/-- What a decimal is rounded to has the form of a double, unless it is too large for one. -/
theorem isDouble_of_ofDecimal {d : Decimal} {n : Bool} {m : Nat} {q : Int}
    (h : ofDecimal d = .finite n m q) : IsDouble m q :=
  (ofDecimal_eq_iff.mp h).2.1

end Scaffold.Binary64
