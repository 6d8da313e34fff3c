import Mathlib.Algebra.Group.Nat.Defs
import Mathlib.Data.List.Induction
import Scaffold.Decimal

/-!
Digits of natural numbers, and the reading of written decimals. Main statement: the compact form of
a decimal is read as the same number, maybe with further zeros among its digits (`read?_compact`).
-/

namespace Scaffold.Decimal

/-! ## Digits -/

theorem digitText_ne_nil (n : Nat) : digitText n ≠ [] := Nat.toDigits_ne_nil

theorem isDigit_of_mem_digitText {n : Nat} {c : Char} (h : c ∈ digitText n) : c.isDigit = true :=
  Nat.isDigit_of_mem_toDigits (by decide) (by decide) h

theorem ofDigits_digitText (n : Nat) : ofDigits (digitText n) = n :=
  Nat.ofDigitChars_toDigits (by decide) (by decide)

theorem digitText_of_ge {n : Nat} (h : 10 ≤ n) :
    digitText n = digitText (n / 10) ++ [(n % 10).digitChar] :=
  Nat.toDigits_of_base_le (by decide) h

theorem digitText_of_lt {n : Nat} (h : n < 10) : digitText n = [n.digitChar] :=
  Nat.toDigits_of_lt_base h

theorem head?_digitText_ne {n : Nat} (h : n ≠ 0) : (digitText n).head? ≠ some '0' := by
  induction n using Nat.strongRecOn with
  | ind n ih =>
    obtain hlt | hge := Nat.lt_or_ge n 10
    · have hchars : ∀ k < 10, k ≠ 0 → k.digitChar ≠ '0' := by decide
      simpa [digitText_of_lt hlt] using hchars n hlt h
    · have hhead := ih (n / 10) (by omega) (by omega)
      obtain ⟨c, t, ht⟩ := List.exists_cons_of_ne_nil (digitText_ne_nil (n / 10))
      rw [digitText_of_ge hge, ht]
      rwa [ht] at hhead

theorem pow_length_le {n : Nat} (h : n ≠ 0) :
    10 ^ ((digitText n).length - 1) ≤ n ∧ n < 10 ^ (digitText n).length := by
  have hpos : 0 < (digitText n).length := Nat.length_toDigits_pos
  refine ⟨?_, (Nat.length_toDigits_le_iff (by decide) hpos).mp (Nat.le_refl _)⟩
  by_cases hone : (digitText n).length = 1
  · rw [hone]
    omega
  · refine Nat.le_of_not_lt fun hlt => ?_
    have := (Nat.length_toDigits_le_iff (b := 10) (by decide) (by omega)).mpr hlt
    rw [digitText] at *
    omega

theorem ofDigits_append (s t : Text) : ofDigits (s ++ t) = t.foldl (fun n c => 10 * n + digitValue c)
    (ofDigits s) := List.foldl_append

theorem ofDigits_append_zeros (t : Text) (n : Nat) :
    ofDigits (t ++ List.replicate n '0') = ofDigits t * 10 ^ n := by
  induction n with
  | zero => simp
  | succ n ih =>
    rw [List.replicate_succ', ← List.append_assoc, ofDigits_append, ih]
    change 10 * (ofDigits t * 10 ^ n) + 0 = _
    rw [Nat.add_zero, Nat.pow_succ', Nat.mul_left_comm]

theorem ofDigits_zeros_append (n : Nat) (t : Text) :
    ofDigits (List.replicate n '0' ++ t) = ofDigits t := by
  have hzeros := ofDigits_append_zeros [] n
  rw [List.nil_append] at hzeros
  rw [ofDigits_append, hzeros]
  simp [ofDigits]

theorem exists_digitChar {c : Char} (h : c.isDigit = true) : ∃ n < 10, c = n.digitChar := by
  have hall : ∀ n < 10, Char.ofNat (48 + n) = n.digitChar := by decide
  obtain ⟨hlow, hhigh⟩ : 48 ≤ c.toNat ∧ c.toNat ≤ 57 := Char.isDigit_iff_toNat.mp h
  refine ⟨c.toNat - 48, by omega, ?_⟩
  rw [← hall _ (by omega), Nat.add_sub_cancel' hlow, Char.ofNat_toNat]

/-- Behind a first digit that is no zero, digits are written back as they are. -/
theorem digitText_ofDigits {t : Text} (hne : t ≠ []) (hdigits : ∀ c ∈ t, c.isDigit = true)
    (hhead : t.head? ≠ some '0') : digitText (ofDigits t) = t := by
  induction t using List.reverseRecOn with
  | nil => exact absurd rfl hne
  | append_singleton t c ih =>
    obtain ⟨n, hn, rfl⟩ := exists_digitChar (hdigits c (by simp))
    have hlast : ofDigits (t ++ [n.digitChar]) = 10 * ofDigits t + n := by
      rw [ofDigits_append, List.foldl_cons, List.foldl_nil, digitValue]
      exact congrArg _ (Nat.toNat_digitChar_sub_48_of_lt_ten hn)
    rw [hlast]
    by_cases hnil : t = []
    · subst hnil
      exact (congrArg digitText (Nat.zero_add n)).trans (digitText_of_lt hn)
    · rw [List.head?_append, List.head?_eq_some_head hnil, Option.some_or,
        ← List.head?_eq_some_head hnil] at hhead
      have hsame := ih hnil (fun d hd => hdigits d (List.mem_append_left _ hd)) hhead
      have hpos : 0 < ofDigits t := Nat.pos_of_ne_zero fun hzero => by
        rw [← hsame, hzero] at hhead
        exact hhead rfl
      rw [digitText, ← Nat.toDigits_append_toDigits (by decide) hpos hn, Nat.toDigits_of_lt_base hn]
      exact congrArg (· ++ _) hsame

/-- Digits without leading zeros. Of zeros alone there is left one. -/
def trimZeros (t : Text) : Text := if t.all (· == '0') then ['0'] else t.dropWhile (· == '0')

theorem digitText_eq_trimZeros {t : Text} (hdigits : ∀ c ∈ t, c.isDigit = true) :
    digitText (ofDigits t) = trimZeros t := by
  induction t with
  | nil => rfl
  | cons c t ih =>
    by_cases hzero : c = '0'
    · subst hzero
      have htrim : trimZeros ('0' :: t) = trimZeros t := by simp [trimZeros]
      rw [htrim, ← ih fun d hd => hdigits d (List.mem_cons_of_mem _ hd)]
      rfl
    · rw [digitText_ofDigits (List.cons_ne_nil c t) hdigits (by simpa using hzero)]
      simp [trimZeros, hzero]

/-! ## Reading -/

theorem readSign_signText (negative : Bool) {c : Char} (hc : isDigit c = true) (t : Text) :
    readSign (signText negative ++ c :: t) = (negative, c :: t) := by
  cases negative with
  | true => rfl
  | false =>
    have hsign : c ≠ '-' ∧ c ≠ '+' := by
      constructor <;> rintro rfl <;> exact absurd hc (by decide)
    simp only [signText, Bool.false_eq_true, if_false, List.nil_append]
    rw [readSign]
    · rintro rest ⟨⟩
      exact hsign.1 rfl
    · rintro rest ⟨⟩
      exact hsign.2 rfl

theorem intText_eq (n : Int) : intText n = signText (decide (n < 0)) ++ digitText n.natAbs := by
  rw [intText]
  split <;> simp_all [signText]

theorem readExponent?_intText (n : Int) : readExponent? ('e' :: intText n) = some n := by
  obtain ⟨c, s, hdigits⟩ := List.exists_cons_of_ne_nil (digitText_ne_nil n.natAbs)
  have hall : ∀ d ∈ c :: s, isDigit d = true := fun d hd => isDigit_of_mem_digitText (hdigits ▸ hd)
  have hvalue := hdigits ▸ ofDigits_digitText n.natAbs
  rw [readExponent?, intText_eq, hdigits, readSign_signText _ (hall c (List.mem_cons_self ..))]
  simp only [true_or, if_true, List.isEmpty_cons, List.all_eq_true.mpr hall, hvalue, Bool.not_true,
    Bool.false_eq_true, or_self, if_false, decide_eq_true_eq]
  split
  · congr 1
    omega
  · congr 1
    omega

theorem span_digits {s t : Text} (hs : ∀ c ∈ s, isDigit c = true)
    (ht : ∀ c ∈ t.head?, isDigit c = false) :
    (s ++ t).takeWhile isDigit = s ∧ (s ++ t).dropWhile isDigit = t := by
  rw [List.takeWhile_append_of_pos hs, List.dropWhile_append_of_pos hs]
  cases t with
  | nil => simp
  | cons c t =>
    have hc := ht c rfl
    simp [hc]

theorem readFraction_point {s t : Text} (hs : ∀ c ∈ s, isDigit c = true)
    (ht : ∀ c ∈ t.head?, isDigit c = false) : readFraction ('.' :: (s ++ t)) = (s, t) := by
  obtain ⟨htake, hdrop⟩ := span_digits hs ht
  rw [readFraction, htake, hdrop]

/-- Digits, then what a fraction and an exponent are read from. -/
theorem read?_of_digits (negative : Bool) (whole tail : Text) {fraction rest : Text} {e : Int}
    (hne : whole ≠ []) (hwhole : ∀ c ∈ whole, isDigit c = true)
    (htail : ∀ c ∈ tail.head?, isDigit c = false)
    (hfraction : readFraction tail = (fraction, rest)) (hexponent : readExponent? rest = some e) :
    read? (signText negative ++ (whole ++ tail)) =
      some ⟨negative, ofDigits (whole ++ fraction), e - fraction.length⟩ := by
  obtain ⟨htake, hdrop⟩ := span_digits hwhole htail
  obtain ⟨c, s, rfl⟩ := List.exists_cons_of_ne_nil hne
  rw [List.cons_append] at htake hdrop
  rw [read?, List.cons_append, readSign_signText _ (hwhole c (List.mem_cons_self ..))]
  simp only [htake, hdrop, hfraction, hexponent]
  simp

theorem read?_point (negative : Bool) (whole fraction exponent : Text) {e : Int}
    (hne : whole ≠ []) (hdigits : ∀ c ∈ whole ++ fraction, isDigit c = true)
    (hend : ∀ c ∈ exponent.head?, isDigit c = false) (hexponent : readExponent? exponent = some e) :
    read? (signText negative ++ (whole ++ '.' :: (fraction ++ exponent))) =
      some ⟨negative, ofDigits (whole ++ fraction), e - fraction.length⟩ := by
  refine read?_of_digits negative whole _ hne (fun c hc => hdigits c (List.mem_append_left _ hc)) ?_
    (readFraction_point (fun c hc => hdigits c (List.mem_append_right _ hc)) hend) hexponent
  rintro c ⟨⟩
  rfl

/-- A number with a point and no exponent. -/
theorem read?_positional (negative : Bool) (whole fraction : Text) (hne : whole ≠ [])
    (hdigits : ∀ c ∈ whole ++ fraction, isDigit c = true) :
    read? (signText negative ++ (whole ++ '.' :: fraction)) =
      some ⟨negative, ofDigits (whole ++ fraction), -fraction.length⟩ := by
  have hread := read?_point negative whole fraction [] hne hdigits (by simp) rfl
  rwa [List.append_nil, Int.zero_sub] at hread

/-- One digit, or one in front of the point, and an exponent. -/
theorem read?_scientific (negative : Bool) {ds : Text} (hne : ds ≠ [])
    (hdigits : ∀ c ∈ ds, isDigit c = true) (e : Int) :
    read? (signText negative ++ ((if ds.length = 1 then ds else ds.take 1 ++ '.' :: ds.drop 1) ++
      'e' :: intText e)) = some ⟨negative, ofDigits ds, e - (ds.length - 1 : Nat)⟩ := by
  have hletter : ∀ c ∈ ('e' :: intText e).head?, isDigit c = false := by
    rintro c ⟨⟩
    rfl
  split
  · next hone =>
    have hread := read?_of_digits negative ds ('e' :: intText e) hne hdigits hletter rfl
      (readExponent?_intText e)
    rw [List.append_nil] at hread
    rw [hread, hone]
    rfl
  · have hread := read?_point negative (ds.take 1) (ds.drop 1) ('e' :: intText e)
      (by simpa using hne) (by rwa [List.take_append_drop]) hletter (readExponent?_intText e)
    rw [List.take_append_drop, List.length_drop] at hread
    rw [List.append_assoc, List.cons_append, hread]

/-- The same number, with further zeros among the digits of `e`. -/
structure IsPadded (d e : Decimal) (zeros : Nat) : Prop where
  negative : e.negative = d.negative
  digits : e.digits = d.digits * 10 ^ zeros
  scale : d.digits ≠ 0 → e.scale = d.scale - zeros

theorem isPadded_of_eq {d : Decimal} {digits : Nat} {scale : Int} (hdigits : digits = d.digits)
    (hscale : scale = d.scale) : IsPadded d ⟨d.negative, digits, scale⟩ 0 :=
  ⟨rfl, by simp [hdigits], by simp [hscale]⟩

/-- The compact form is read as the number itself. -/
theorem read?_compact (d : Decimal) :
    ∃ found zeros, read? d.compact = some found ∧ IsPadded d found zeros := by
  have hdigits : ∀ c ∈ digitText d.digits, isDigit c = true := fun c => isDigit_of_mem_digitText
  have hzeros : ∀ n, ∀ c ∈ List.replicate n '0', isDigit c = true := fun n c hc =>
    List.eq_of_mem_replicate hc ▸ rfl
  have hne := digitText_ne_nil d.digits
  have hvalue := ofDigits_digitText d.digits
  unfold compact
  generalize digitText d.digits = ds at hdigits hne hvalue ⊢
  have hlength : 0 < ds.length := List.length_pos_iff.mpr hne
  split
  · next hzero =>
    refine ⟨_, 0, read?_positional d.negative ['0'] ['0'] (by simp) (hzeros 2), rfl, ?_,
      fun h => absurd hzero h⟩
    rw [hzero]
    change ofDigits ['0', '0'] = 0
    decide
  simp only
  split
  · next hplace =>
    have hpadded : ∀ n, ds ++ List.replicate n '0' ++ ['0'] = ds ++ List.replicate (n + 1) '0' :=
      fun n => by rw [List.append_assoc, ← List.replicate_succ']
    refine ⟨_, d.scale.toNat + 1, read?_positional d.negative (ds ++ zeros d.scale) ['0'] ?_ ?_,
      rfl, ?_, fun _ => ?_⟩
    · simp [hne]
    · intro c hc
      rw [zeros, hpadded] at hc
      exact (List.mem_append.mp hc).elim (hdigits c) (hzeros _ c)
    · rw [zeros, hpadded, ofDigits_append_zeros, hvalue]
    · simp only [List.length_singleton]
      omega
  split
  · next hplace =>
    refine ⟨_, 0, read?_positional d.negative _ _ ?_ ?_, isPadded_of_eq ?_ ?_⟩
    · rw [← List.length_pos_iff, List.length_take]
      omega
    · rwa [List.take_append_drop]
    · rw [List.take_append_drop, hvalue]
    · rw [List.length_drop]
      omega
  split
  · next hplace =>
    have hpadded : ∀ n, ['0'] ++ (List.replicate n '0' ++ ds) = List.replicate (n + 1) '0' ++ ds :=
      fun n => rfl
    refine ⟨_, 0, read?_positional d.negative ['0'] (zeros (-(ds.length + d.scale)) ++ ds) (by simp)
      ?_, isPadded_of_eq ?_ ?_⟩
    · intro c hc
      rw [zeros, hpadded] at hc
      exact (List.mem_append.mp hc).elim (hzeros _ c) (hdigits c)
    · rw [zeros, hpadded, ofDigits_zeros_append, hvalue]
    · rw [List.length_append, zeros, List.length_replicate]
      omega
  · refine ⟨_, 0, read?_scientific d.negative hne hdigits _, isPadded_of_eq hvalue ?_⟩
    omega

/-! ## The form of written numbers -/

/-- Whether a character may stand in a written number. -/
def isNumberChar (c : Char) : Bool := c.isDigit || c == '.' || c == 'e' || c == '-'

theorem isNumberChar_of_isDigit {c : Char} (h : c.isDigit = true) : isNumberChar c = true := by
  simp [isNumberChar, h]

/-- A digit with what follows it. A leading zero stands alone in front of a point. -/
structure IsUnsigned (c : Char) (s : Text) : Prop where
  digit : c.isDigit = true
  chars : s.all isNumberChar = true
  zero : c = '0' → s.head? = some '.' ∨ s = []

theorem exists_digitText (n : Nat) : ∃ c s, digitText n = c :: s ∧ IsUnsigned c s ∧
    (c :: s).all Char.isDigit = true ∧ (n ≠ 0 → c ≠ '0') := by
  obtain ⟨c, s, h⟩ := List.exists_cons_of_ne_nil (digitText_ne_nil n)
  have hall : ∀ d ∈ c :: s, d.isDigit = true := fun d hd => isDigit_of_mem_digitText (h ▸ hd)
  have hchars : s.all isNumberChar = true := List.all_eq_true.mpr fun d hd =>
    isNumberChar_of_isDigit (hall d (List.mem_cons_of_mem _ hd))
  have hhead : n ≠ 0 → c ≠ '0' := fun hn => by
    have := head?_digitText_ne hn
    rw [h] at this
    exact fun hc => this (congrArg some hc)
  refine ⟨c, s, h, ⟨hall c (List.mem_cons_self ..), hchars, fun hc => .inr ?_⟩,
    List.all_eq_true.mpr hall, hhead⟩
  have hzero : n = 0 := Decidable.byContradiction fun hn => hhead hn hc
  rw [hzero] at h
  exact (List.cons.inj h).2.symm

theorem all_intText (n : Int) : (intText n).all isNumberChar = true := by
  obtain ⟨c, s, hdigits, hs, _⟩ := exists_digitText n.natAbs
  rw [intText_eq, hdigits]
  have hc := isNumberChar_of_isDigit hs.digit
  by_cases hneg : n < 0
  · simp only [signText, hneg, decide_true, if_true, List.all_append, List.all_cons, hc, hs.chars]
    rfl
  · simp [signText, hneg, hc, hs.chars]

/-- The compact form of a decimal is never that of a whole number. -/
theorem exists_compact (d : Decimal) : ∃ c s, d.compact = signText d.negative ++ c :: s ∧
    IsUnsigned c s ∧ ('.' ∈ s ∨ 'e' ∈ s) := by
  obtain ⟨c, s, hdigits, hs, _, hc⟩ := exists_digitText d.digits
  have hfirst := isNumberChar_of_isDigit hs.digit
  have hzeros : ∀ n, (zeros n).all isNumberChar = true := fun n =>
    List.all_eq_true.mpr fun e he => List.eq_of_mem_replicate he ▸ rfl
  have hmarks : isNumberChar '.' = true ∧ isNumberChar '0' = true ∧ isNumberChar 'e' = true := by
    decide
  have hparts : ∀ k, (s.take k).all isNumberChar = true ∧ (s.drop k).all isNumberChar = true :=
    fun k => by
      have := hs.chars
      rwa [← List.take_append_drop k s, List.all_append, Bool.and_eq_true] at this
  unfold compact
  split
  · exact ⟨'0', ".0".toList, rfl, ⟨rfl, by decide, fun _ => .inl rfl⟩, .inl (by decide)⟩
  next hzero =>
  have hc := hc hzero
  simp only [hdigits]
  split
  · refine ⟨c, s ++ zeros d.scale ++ ['.', '0'], by simp, ⟨hs.digit, ?_, fun h => absurd h hc⟩,
      .inl (by simp)⟩
    simp [List.all_append, hs.chars, hzeros, hmarks]
  split
  · next hplace =>
    obtain ⟨k, hk⟩ : ∃ k, ((c :: s).length + d.scale : Int).toNat = k + 1 :=
      ⟨((c :: s).length + d.scale : Int).toNat - 1, by omega⟩
    rw [hk, List.take_succ_cons, List.drop_succ_cons]
    refine ⟨c, s.take k ++ '.' :: s.drop k, rfl, ⟨hs.digit, ?_, fun h => absurd h hc⟩,
      .inl (by simp)⟩
    simp [List.all_append, hparts, hmarks]
  split
  · refine ⟨'0', '.' :: (zeros (-((c :: s).length + d.scale)) ++ c :: s), rfl, ⟨rfl, ?_,
      fun _ => .inl rfl⟩, .inl (List.mem_cons_self ..)⟩
    simp [List.all_append, hs.chars, hfirst, hzeros, hmarks]
  · obtain ⟨n, hn⟩ : ∃ n, n = ((c :: s).length + d.scale - 1 : Int) := ⟨_, rfl⟩
    rw [← hn]
    split
    · refine ⟨c, s ++ 'e' :: intText n, rfl, ⟨hs.digit, ?_, fun h => absurd h hc⟩, .inr (by simp)⟩
      simp only [List.all_append, List.all_cons, hs.chars, hmarks, all_intText, Bool.and_self]
    · refine ⟨c, '.' :: s ++ 'e' :: intText n, rfl, ⟨hs.digit, ?_, fun h => absurd h hc⟩,
        .inr (by simp)⟩
      simp only [List.all_append, List.all_cons, List.cons_append, hs.chars, hmarks, all_intText,
        Bool.and_self]

end Scaffold.Decimal
