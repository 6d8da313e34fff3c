import Scaffold.Proofs.Number.Shortest
import Scaffold.Yaml.Printer

/-!
What the plain scalars that are written stand for. Main statements: a whole number and a double read
back as themselves (`plainData?_intText`, `plainData?_floatText`), and so does every text that is
written without quotes (`plainData?_of_readsAsText`).
-/

namespace Scaffold.Yaml

open Decimal

/-! ## Digits of a base -/

theorem digitOfBase?_of_isDigit {c : Char} (h : c.isDigit = true) :
    digitOfBase? 10 c = some (digitValue c) := by
  have hlt : c.toNat - 48 < 10 := by
    have : c.toNat ≤ 57 := (Char.isDigit_iff_toNat.mp h).2
    omega
  rw [digitOfBase?, if_pos h, if_pos hlt]
  rfl

theorem natOfBase?_of_digits {t : Text} (hne : t ≠ []) (h : t.all Char.isDigit = true) :
    natOfBase? 10 t = some (ofDigits t) := by
  have hfold : ∀ n, t.foldlM (fun n c => (digitOfBase? 10 c).map (10 * n + ·)) n =
      some (t.foldl (fun n c => 10 * n + digitValue c) n) := by
    clear hne
    induction t with
    | nil => exact fun _ => rfl
    | cons c t ih =>
      intro n
      rw [List.all_cons, Bool.and_eq_true] at h
      simp only [List.foldlM_cons, digitOfBase?_of_isDigit h.1]
      exact ih h.2 _
  rw [natOfBase?, if_neg (by simpa using hne), hfold]
  rfl

theorem natOfBase?_of_mem {base : Nat} {c : Char} {t : Text} (h : c ∈ t)
    (hc : digitOfBase? base c = none) : natOfBase? base t = none := by
  have hfold : ∀ n, t.foldlM (fun n c => (digitOfBase? base c).map (base * n + ·)) n = none := by
    induction t with
    | nil => cases h
    | cons d t ih =>
      intro n
      rw [List.foldlM_cons]
      obtain rfl | h := List.mem_cons.mp h
      · rw [hc]
        rfl
      · cases digitOfBase? base d with
        | none => rfl
        | some k => exact ih h _
  rw [natOfBase?]
  split
  · rfl
  · exact hfold 0

/-! ## Numbers -/

section Unsigned

variable {c : Char} {s : Text} (h : IsUnsigned c s) (negative : Bool)
include h

omit h in
theorem any_word_eq_false {words : List String} {t : Text}
    (hwords : words.all (fun w => w.toList.head?.any fun d => d != '-' && !d.isDigit) = true)
    (ht : t.head?.any (fun d => d == '-' || d.isDigit) = true) :
    words.any (·.toList == t) = false := by
  refine List.any_eq_false.mpr fun w hw => ?_
  have hhead := List.all_eq_true.mp hwords w hw
  rw [beq_iff_eq]
  rintro rfl
  cases hd : w.toList.head? with
  | none => simp [hd] at ht
  | some d =>
    rw [hd] at ht hhead
    simp only [Option.any_some, Bool.or_eq_true, beq_iff_eq, Bool.and_eq_true, bne_iff_ne,
      Bool.not_eq_true'] at ht hhead
    obtain rfl | hdigit := ht
    · exact hhead.1 rfl
    · simp [hhead.2] at hdigit

theorem head?_signed :
    (signText negative ++ c :: s).head?.any (fun d => d == '-' || d.isDigit) = true := by
  cases negative with
  | true => rfl
  | false => simp [signText, h.digit]

theorem ne_sign_of_isUnsigned : c ≠ '-' ∧ c ≠ '+' := by
  constructor <;> rintro rfl <;> exact absurd h.digit (by decide)

theorem isPaddedNumber_of_isUnsigned : isPaddedNumber (signText negative ++ c :: s) = false := by
  have hunsigned : (1 < (c :: s).length && (c :: s).head? == some '0' &&
      (c :: s).all Char.isDigit) = false := by
    by_cases hc : c = '0'
    · obtain hpoint | rfl := h.zero hc
      · obtain ⟨t, rfl⟩ := List.head?_eq_some_iff.mp hpoint
        simp
      · rfl
    · simp [hc]
  obtain ⟨hminus, hplus⟩ := ne_sign_of_isUnsigned h
  cases negative with
  | true => exact hunsigned
  | false =>
    simp only [signText, Bool.false_eq_true, if_false, List.nil_append, isPaddedNumber]
    split
    · next heq => exact absurd (List.cons.inj heq).1 hplus
    · next heq => exact absurd (List.cons.inj heq).1 hminus
    · exact hunsigned

theorem magnitude?_of_isUnsigned : magnitude? (c :: s) = natOfBase? 10 (c :: s) := by
  have hmark : ∀ d t, c :: s = '0' :: d :: t → d = '.' := fun d t heq => by
    obtain ⟨rfl, rfl⟩ := List.cons.inj heq
    simpa using h.zero rfl
  rw [magnitude?]
  · exact fun t heq => absurd (hmark _ _ heq) (by decide)
  · exact fun t heq => absurd (hmark _ _ heq) (by decide)
  · exact fun t heq => absurd (hmark _ _ heq) (by decide)

theorem stripPlus_of_isUnsigned :
    stripPlus (signText negative ++ c :: s) = signText negative ++ c :: s := by
  cases negative with
  | true => rfl
  | false =>
    rw [signText, if_neg (by decide), List.nil_append, stripPlus]
    rintro t heq
    exact (ne_sign_of_isUnsigned h).2 (List.cons.inj heq).1

/-- Of a written number, only the digits tell which integer it is. -/
theorem int?_of_isUnsigned : int? (signText negative ++ c :: s) =
    (natOfBase? 10 (c :: s)).bind fun n =>
      if negative then if n ≤ int128Bound then some (-(n : Int)) else none
      else if n < 2 * int128Bound then some (n : Int) else none := by
  have hpadded := isPaddedNumber_of_isUnsigned h negative
  cases negative with
  | true =>
    simp only [signText, if_true, List.singleton_append] at hpadded ⊢
    simp only [int?, hpadded, magnitude?_of_isUnsigned h]
    simp
  | false =>
    have hplus := stripPlus_of_isUnsigned h false
    simp only [signText, Bool.false_eq_true, if_false, List.nil_append] at hpadded hplus ⊢
    rw [int?, hpadded, hplus, magnitude?_of_isUnsigned h]
    · simp
    · rintro t heq
      exact (ne_sign_of_isUnsigned h).1 (List.cons.inj heq).1

theorem float?_of_isUnsigned {m : Nat} {q : Int} {sign : Bool}
    (hread : (Decimal.read? (signText negative ++ c :: s)).map Binary64.ofDecimal =
      some (.finite sign m q)) : float? (signText negative ++ c :: s) = some (.finite sign m q) := by
  have hhead := head?_signed h negative
  have hplus : (signText negative ++ c :: s).head? ≠ some '+' := fun hplus => by
    rw [hplus] at hhead
    exact absurd hhead (by decide)
  have hinfinite : [".inf", ".Inf", ".INF"].any (·.toList == signText negative ++ c :: s) = false :=
    any_word_eq_false (by decide) hhead
  have hnegative : ["-.inf", "-.Inf", "-.INF"].any (·.toList == signText negative ++ c :: s) =
      false := by
    refine List.any_eq_false.mpr fun w hw => ?_
    have hshape := List.all_eq_true.mp (show ["-.inf", "-.Inf", "-.INF"].all (fun w =>
      w.toList.head? == some '-' && w.toList.tail.head? == some '.') = true by decide) w hw
    rw [beq_iff_eq]
    intro heq
    rw [heq, Bool.and_eq_true, beq_iff_eq, beq_iff_eq] at hshape
    cases negative with
    | true =>
      obtain rfl : c = '.' := Option.some.inj hshape.2
      exact absurd h.digit (by decide)
    | false => exact (ne_sign_of_isUnsigned h).1 (Option.some.inj hshape.1)
  have hmissing : [".nan", ".NaN", ".NAN"].any (·.toList == signText negative ++ c :: s) = false :=
    any_word_eq_false (by decide) hhead
  simp only [float?, stripPlus_of_isUnsigned h negative, hplus, false_and, hinfinite, hnegative,
    hmissing, Bool.false_eq_true, if_false, hread]

/-- A written number is no word. -/
theorem plainData?_of_isUnsigned : plainData? (signText negative ++ c :: s) =
    match int? (signText negative ++ c :: s) with
    | some n => dataOfInt? n
    | none =>
      match float? (signText negative ++ c :: s) with
      | some x => some (.ofFloat x)
      | none => some (.text (signText negative ++ c :: s)) := by
  have hhead := head?_signed h negative
  have hnull : isNull (signText negative ++ c :: s) = false := any_word_eq_false (by decide) hhead
  have hbool : bool? (signText negative ++ c :: s) = none := by
    rw [bool?, any_word_eq_false (by decide) hhead, any_word_eq_false (by decide) hhead]
    rfl
  have hempty : List.isEmpty (signText negative ++ c :: s) = false := by simp
  rw [plainData?, hempty, hnull, hbool, isPaddedNumber_of_isUnsigned h]
  rfl

end Unsigned

/-- A whole number reads back as itself. -/
theorem plainData?_intText {n : Int} (h : (isInt64 n || isUnsigned64 n) = true) :
    plainData? (intText n) = some (.int n) := by
  obtain ⟨c, s, hdigits, hs, hall, _⟩ := exists_digitText n.natAbs
  have hnat : natOfBase? 10 (c :: s) = some n.natAbs := by
    rw [natOfBase?_of_digits (by simp) hall, ← hdigits, ofDigits_digitText]
  have hrange : n.natAbs < int128Bound := by
    have hbound : 18446744073709551616 < int128Bound := by decide +kernel
    simp only [isInt64, isUnsigned64, Bool.or_eq_true, Bool.and_eq_true, decide_eq_true_eq] at h
    omega
  have hint : int? (intText n) = some n := by
    rw [intText_eq, hdigits, int?_of_isUnsigned hs, hnat, Option.bind_some]
    by_cases hneg : n < 0
    · rw [decide_eq_true hneg, if_pos rfl, if_pos (by omega)]
      congr 1
      omega
    · rw [decide_eq_false hneg, if_neg (by decide), if_pos (by omega)]
      congr 1
      omega
  rw [intText_eq, hdigits] at hint ⊢
  rw [plainData?_of_isUnsigned hs, hint]
  exact if_pos h

/-- A double reads back as itself. -/
theorem plainData?_floatText {negative : Bool} {m : Nat} {q : Int} (h : Binary64.IsDouble m q) :
    plainData? (Data.floatText (.finite negative m q)) = some (.float (.finite negative m q)) := by
  obtain ⟨c, s, htext, hs, hmark⟩ := exists_compact (Binary64.shortest .even negative m q)
  have hread := Binary64.ofDecimal_of_read?_compact h .even negative
  have hnat : natOfBase? 10 (c :: s) = none := by
    obtain hmark | hmark := hmark
    · exact natOfBase?_of_mem (List.mem_cons_of_mem _ hmark) (by decide)
    · exact natOfBase?_of_mem (List.mem_cons_of_mem _ hmark) (by decide)
  rw [Data.floatText]
  rw [htext] at hread ⊢
  rw [plainData?_of_isUnsigned hs, int?_of_isUnsigned hs, hnat, Option.bind_none,
    float?_of_isUnsigned hs _ hread]
  rfl

/-! ## Texts -/

/-- What stands for a text stands for itself. -/
theorem eq_of_plainData?_eq_text {t s : Text} (h : plainData? t = some (.text s)) : s = t := by
  rw [plainData?] at h
  split at h
  · cases h
  split at h
  · cases h
  split at h
  · rw [dataOfInt?] at h
    split at h <;> cases h
  split at h
  · cases h
    rfl
  split at h
  · next x _ => cases x <;> cases h
  · cases h
    rfl

/-- A text that is written without quotes is no other value. -/
theorem plainData?_of_readsAsText {t : Text} (h : Printer.readsAsText t = true) :
    plainData? t = some (.text t) := by
  rw [Printer.readsAsText] at h
  split at h
  · next s hs => rw [hs, eq_of_plainData?_eq_text hs]
  · cases h

end Scaffold.Yaml
