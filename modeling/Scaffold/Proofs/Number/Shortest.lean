import Scaffold.Proofs.Number.Rounding

/-!
The shortest decimal of a double reads back as that double (`ofDecimal_of_isPadded`,
`ofDecimal_of_read?_compact`): every decimal that a grid yields lies between the midpoints to the
neighbours of the double, and one of the grids that are tried is fine enough to yield one.
-/

namespace Scaffold.Binary64

/-! ## One grid -/

/-- `2 ^ q` in units of `10 ^ k`. -/
def gridUnit (q k : Int) : Nat × Nat := inUnits (Nat.pow 2 q.toNat) (Nat.pow 2 (-q).toNat) 10 k

/-- Whether a multiple of `10 ^ k` lies between the midpoints, by whole numbers. -/
def inside (m : Nat) (q k : Int) (n : Nat) : Bool :=
  let x := 4 * n * (gridUnit q k).2
  let low := (4 * m - below m q) * (gridUnit q k).1
  let high := (4 * m + 2) * (gridUnit q k).1
  if m % 2 = 0 then low ≤ x ∧ x ≤ high else low < x ∧ x < high

/-- How many multiples of `10 ^ k` lie below `m · 2 ^ q`. -/
def gridFloor (m : Nat) (q k : Int) : Nat := m * (gridUnit q k).1 / (gridUnit q k).2

theorem inside_of_onGrid? {tie : Tie} {m n : Nat} {q k : Int} (h : onGrid? tie m q k = some n) :
    inside m q k n = true := by
  have hcases : (inside m q k (gridFloor m q k) = true ∧ n = gridFloor m q k) ∨
      (inside m q k (gridFloor m q k + 1) = true ∧ n = gridFloor m q k + 1) := by
    unfold onGrid? at h
    dsimp only at h
    split at h
    · next hfloor hnext =>
      split at h
      · exact .inl ⟨hfloor, (Option.some.inj h).symm⟩
      · split at h
        · exact .inr ⟨hnext, (Option.some.inj h).symm⟩
        · split at h
          · exact .inl ⟨hfloor, (Option.some.inj h).symm⟩
          · exact .inr ⟨hnext, (Option.some.inj h).symm⟩
    · next hfloor _ => exact .inl ⟨hfloor, (Option.some.inj h).symm⟩
    · next hnext => exact .inr ⟨hnext, (Option.some.inj h).symm⟩
    · cases h
  obtain ⟨hinside, rfl⟩ | ⟨hinside, rfl⟩ := hcases <;> exact hinside

theorem exists_onGrid? {m : Nat} {q k : Int} (tie : Tie)
    (h : inside m q k (gridFloor m q k + 1) = true) : ∃ n, onGrid? tie m q k = some n := by
  unfold onGrid?
  dsimp only
  split
  · split
    · exact ⟨_, rfl⟩
    · split
      · exact ⟨_, rfl⟩
      · split <;> exact ⟨_, rfl⟩
  · exact ⟨_, rfl⟩
  · exact ⟨_, rfl⟩
  · next hnext => exact absurd (hnext.symm.trans h) Bool.false_ne_true

section Grid

variable (q k : Int)

theorem gridUnit_pos : 0 < (gridUnit q k).1 ∧ 0 < (gridUnit q k).2 := by
  refine ⟨?_, inUnits_pos _ (Nat.pow_pos (by decide)) (by decide) k⟩
  rw [gridUnit, inUnits]
  split
  · exact Nat.pow_pos (by decide)
  · exact Nat.mul_pos (Nat.pow_pos (by decide)) (Nat.pow_pos (by decide))

theorem gridUnit_div : ((gridUnit q k).1 : ℚ) / (gridUnit q k).2 = 2 ^ q / 10 ^ k := by
  rw [gridUnit, inUnits_div _ _ (show 0 < 10 by decide), Nat.cast_ofNat]
  congr 1
  simp only [Nat.pow_eq, Nat.cast_pow, Nat.cast_ofNat]
  rw [← zpow_natCast, ← zpow_natCast, ← zpow_sub₀ two_ne_zero]
  congr 1
  omega

variable {q k} {m : Nat}

theorem inside_iff_near (hm : 0 < m) (n : Nat) :
    inside m q k n = true ↔ Near m q (n * 10 ^ k / 2 ^ q) := by
  obtain ⟨ha, hb⟩ := gridUnit_pos q k
  have hunit := gridUnit_div q k
  rw [inside]
  generalize gridUnit q k = unit at ha hb hunit ⊢
  obtain ⟨a, b⟩ := unit
  have hbelow := below_le m q
  have ha' : (0 : ℚ) < a := Nat.cast_pos.mpr ha
  have hb' : (0 : ℚ) < b := Nat.cast_pos.mpr hb
  have hy : (n : ℚ) * 10 ^ k / 2 ^ q = n * b / a := by
    have hinv := congrArg (·⁻¹) hunit
    simp only [inv_div] at hinv
    rw [mul_div_assoc, ← hinv, mul_div_assoc]
  have hlow : ((4 * m - below m q : Nat) : ℚ) = 4 * (m - below m q / 4) := by
    rw [Nat.cast_sub (by omega)]
    push_cast
    ring
  have hle : (4 * m - below m q) * a ≤ 4 * n * b ↔ (m : ℚ) - below m q / 4 ≤ n * b / a := by
    rw [le_div_iff₀ ha', ← @Nat.cast_le ℚ]
    push_cast [hlow]
    constructor <;> intro h <;> linarith
  have hlt : (4 * m - below m q) * a < 4 * n * b ↔ (m : ℚ) - below m q / 4 < n * b / a := by
    rw [lt_div_iff₀ ha', ← @Nat.cast_lt ℚ]
    push_cast [hlow]
    constructor <;> intro h <;> linarith
  have hle' : 4 * n * b ≤ (4 * m + 2) * a ↔ (n : ℚ) * b / a ≤ m + 1 / 2 := by
    rw [div_le_iff₀ ha', ← @Nat.cast_le ℚ]
    push_cast
    constructor <;> intro h <;> linarith
  have hlt' : 4 * n * b < (4 * m + 2) * a ↔ (n : ℚ) * b / a < m + 1 / 2 := by
    rw [div_lt_iff₀ ha', ← @Nat.cast_lt ℚ]
    push_cast
    constructor <;> intro h <;> linarith
  rw [hy]
  split
  · next heven =>
    rw [decide_eq_true_iff, hle, hle']
    exact ⟨fun h => ⟨h.1, h.2, fun hodd => by omega⟩, fun h => ⟨h.low, h.high⟩⟩
  · next hodd =>
    rw [decide_eq_true_iff, hlt, hlt']
    exact ⟨fun h => ⟨h.1.le, h.2.le, fun _ => h⟩, fun h => h.odd (by omega)⟩

/-- On a fine grid the next multiple above a double lies between the midpoints. -/
theorem near_gridFloor (h : 2 * (10 : ℚ) ^ k < 2 ^ q) :
    Near m q ((gridFloor m q k + 1 : Nat) * 10 ^ k / 2 ^ q) := by
  obtain ⟨ha, hb⟩ := gridUnit_pos q k
  have hunit := gridUnit_div q k
  have hfloor : gridFloor m q k = m * (gridUnit q k).1 / (gridUnit q k).2 := rfl
  generalize gridUnit q k = unit at ha hb hunit hfloor
  obtain ⟨a, b⟩ := unit
  have hb' : (0 : ℚ) < b := Nat.cast_pos.mpr hb
  have hten : (0 : ℚ) < 10 ^ k := by positivity
  have htwo : (0 : ℚ) < 2 ^ q := by positivity
  have hlow : (m : ℚ) * (a / b) < (gridFloor m q k + 1 : Nat) := by
    rw [hfloor, ← mul_div_assoc, div_lt_iff₀ hb']
    exact_mod_cast Nat.lt_mul_of_div_lt (Nat.lt_succ_self (m * a / b)) hb
  have hhigh : ((gridFloor m q k : Nat) : ℚ) ≤ m * (a / b) := by
    rw [hfloor, ← mul_div_assoc, le_div_iff₀ hb']
    exact_mod_cast Nat.div_mul_le_self (m * a) b
  rw [hunit, ← mul_div_assoc, div_lt_iff₀ hten] at hlow
  rw [hunit, ← mul_div_assoc, le_div_iff₀ hten] at hhigh
  have hbelow : (0 : ℚ) ≤ below m q / 4 := by positivity
  have hlow' : (m : ℚ) < (gridFloor m q k + 1 : Nat) * 10 ^ k / 2 ^ q := (lt_div_iff₀ htwo).mpr hlow
  have hhigh' : ((gridFloor m q k + 1 : Nat) : ℚ) * 10 ^ k / 2 ^ q < m + 1 / 2 := by
    rw [div_lt_iff₀ htwo]
    push_cast
    linarith
  exact ⟨by linarith, hhigh'.le, fun _ => ⟨by linarith, hhigh'⟩⟩

end Grid

/-! ## The first grid -/

/-- If the finest of the grids tried is fine enough, the first one that yields a decimal yields one
between the midpoints. -/
theorem near_firstGrid {m : Nat} {q : Int} (tie : Tie) (hm : 0 < m) (count : Nat) (k : Int)
    (hfine : 2 * (10 : ℚ) ^ (k - count) < 2 ^ q) : Near m q ((firstGrid tie m q (count + 1) k).1 *
      10 ^ (firstGrid tie m q (count + 1) k).2 / 2 ^ q) := by
  induction count generalizing k with
  | zero =>
    rw [Nat.cast_zero, sub_zero] at hfine
    obtain ⟨n, hn⟩ := exists_onGrid? tie ((inside_iff_near hm _).mpr (near_gridFloor hfine))
    rw [firstGrid, hn]
    exact (inside_iff_near hm n).mp (inside_of_onGrid? hn)
  | succ count ih =>
    rw [firstGrid]
    cases hn : onGrid? tie m q k with
    | some n => exact (inside_iff_near hm n).mp (inside_of_onGrid? hn)
    | none =>
      refine ih (k - 1) ?_
      have hsame : k - 1 - (count : Int) = k - (count + 1 : Nat) := by omega
      rwa [hsame]

/-- A power of ten against one of two, by the logarithm of two to five places. -/
theorem ten_zpow_le {j s : Int} (h : 100000 * j ≤ 30103 * s) (hlow : -1074 ≤ s) (hhigh : s ≤ 1024) :
    (10 : ℚ) ^ j ≤ 2 ^ (s + 12) := by
  obtain hj | hj := le_or_gt 0 j
  · obtain ⟨n, rfl⟩ := Int.eq_ofNat_of_zero_le hj
    have hcube : ((10 : ℚ) ^ (n : Int)) ^ 3 ≤ (2 ^ (s + 12)) ^ 3 := by
      calc ((10 : ℚ) ^ (n : Int)) ^ 3 = (10 ^ 3) ^ n := by rw [zpow_natCast, pow_right_comm]
        _ ≤ (2 ^ 10) ^ n := pow_le_pow_left₀ (by norm_num) (by norm_num) n
        _ = 2 ^ ((10 * n : Nat) : Int) := by rw [zpow_natCast, pow_mul]
        _ ≤ 2 ^ ((s + 12) * (3 : Nat)) := zpow_le_zpow_right₀ one_le_two (by omega)
        _ = (2 ^ (s + 12)) ^ 3 := by rw [zpow_mul, zpow_natCast]
    exact le_of_pow_le_pow_left₀ (by decide) (by positivity) hcube
  · obtain ⟨n, hn⟩ := Int.eq_ofNat_of_zero_le (show 0 ≤ -j by omega)
    obtain rfl : j = -n := by omega
    have hseventh : (2 ^ (-(s + 12))) ^ 7 ≤ ((10 : ℚ) ^ n) ^ 7 := by
      calc ((2 : ℚ) ^ (-(s + 12))) ^ 7 = 2 ^ (-(s + 12) * (7 : Nat)) := by rw [zpow_mul, zpow_natCast]
        _ ≤ 2 ^ ((23 * n : Nat) : Int) := zpow_le_zpow_right₀ one_le_two (by omega)
        _ = (2 ^ 23) ^ n := by rw [zpow_natCast, pow_mul]
        _ ≤ (10 ^ 7) ^ n := pow_le_pow_left₀ (by norm_num) (by norm_num) n
        _ = ((10 : ℚ) ^ n) ^ 7 := by rw [pow_right_comm]
    have hpow := le_of_pow_le_pow_left₀ (by decide) (by positivity) hseventh
    rw [zpow_neg] at hpow
    rw [zpow_neg, zpow_natCast]
    exact inv_le_of_inv_le₀ (by positivity) hpow

theorem near_shortest {m : Nat} {q : Int} (h : IsDouble m q) (hm : 0 < m) (tie : Tie)
    (negative : Bool) :
    Near m q (magnitude (shortest tie negative m q) / 2 ^ q) := by
  rw [shortest, if_neg hm.ne', magnitude]
  refine near_firstGrid tie hm 23 _ ?_
  have hlog : m.log2 < 53 := (Nat.log2_lt hm.ne').mpr h.lt
  obtain ⟨s, hs⟩ : ∃ s : Int, s = (m.log2 : Int) + q + 1 := ⟨_, rfl⟩
  obtain ⟨j, hj⟩ : ∃ j : Int, j = s * 30103 / 100000 := ⟨_, rfl⟩
  have hleast := h.least
  have hgreatest := h.greatest
  have hten := ten_zpow_le (j := j) (s := s) (by omega) (by omega) (by omega)
  rw [← hs, ← hj]
  have hsplit : j + 1 - (23 : Nat) = j - 22 := by omega
  rw [hsplit, zpow_sub₀ (by norm_num), ← mul_div_assoc, div_lt_iff₀ (by positivity)]
  calc 2 * (10 : ℚ) ^ j ≤ 2 * 2 ^ (s + 12) := by linarith
    _ = 2 ^ (s + 13) := by
      rw [← zpow_one_add₀ two_ne_zero]
      congr 1
      ring
    _ ≤ 2 ^ (q + 66) := zpow_le_zpow_right₀ one_le_two (by omega)
    _ = 2 ^ q * 2 ^ (66 : Int) := zpow_add₀ two_ne_zero _ _
    _ < 2 ^ q * 10 ^ (22 : Int) := mul_lt_mul_of_pos_left (by norm_num) (by positivity)

/-- The shortest decimal of a double reads back as it, and so it does with further zeros. -/
theorem ofDecimal_of_isPadded {m : Nat} {q : Int} (h : IsDouble m q) {tie : Tie} {negative : Bool}
    {d : Decimal} {zeros : Nat} (hd : (shortest tie negative m q).IsPadded d zeros) :
    ofDecimal d = .finite negative m q := by
  have hsign : (shortest tie negative m q).negative = negative := by
    rw [shortest]
    split <;> rfl
  obtain rfl | hm := Nat.eq_zero_or_pos m
  · obtain rfl : q = -1074 := h.full.resolve_right (by decide)
    have hzero : d.digits = 0 := by rw [hd.digits, shortest, if_pos rfl, Nat.zero_mul]
    rw [ofDecimal, hzero, hd.negative, hsign]
    simp
  · have hnear := near_shortest h hm tie negative
    have hdigits : (shortest tie negative m q).digits ≠ 0 := fun hzero => by
      have hhalf := hnear.half_le hm
      rw [magnitude, hzero, Nat.cast_zero, zero_mul, zero_div] at hhalf
      linarith
    rw [← magnitude_of_isPadded hd hdigits] at hnear
    exact ofDecimal_eq_iff.mpr ⟨(hd.negative.trans hsign).symm, h, hnear⟩

/-- The compact form of the shortest decimal is read as the double. -/
theorem ofDecimal_of_read?_compact {m : Nat} {q : Int} (h : IsDouble m q) (tie : Tie)
    (negative : Bool) : (Decimal.read? (shortest tie negative m q).compact).map ofDecimal =
      some (.finite negative m q) := by
  obtain ⟨d, zeros, hread, hd⟩ := Decimal.read?_compact (shortest tie negative m q)
  rw [hread, Option.map_some, ofDecimal_of_isPadded h hd]

end Scaffold.Binary64
