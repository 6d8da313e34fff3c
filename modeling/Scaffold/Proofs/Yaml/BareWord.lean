import Mathlib
import Scaffold.Proofs.Number.Digits
import Scaffold.Yaml.Printer

/-!
The written forms of numbers, truth values and nothing: single words that may stand without quotes.
Main statements: `isBareWord_intText`, `isBareWord_floatText`, `admitsPlain_of_isBareWord`.
-/

namespace Scaffold

namespace Yaml.Printer

def isBareChar (c : Char) : Bool := c.isAlphanum || c == '-' || c == '.'

theorem isBareChar_of_isDigit {c : Char} (h : c.isDigit = true) : isBareChar c = true := by
  simp [isBareChar, Char.isAlphanum, h]

theorem toNat_lt_of_isBareChar {c : Char} (h : isBareChar c = true) : c.toNat < 128 := by
  simp only [isBareChar, Bool.or_eq_true, beq_iff_eq] at h
  obtain (h | rfl) | rfl := h
  · simp only [Char.isAlphanum, Char.isAlpha, Char.isUpper, Char.isLower, Char.isDigit,
      Bool.or_eq_true, Bool.and_eq_true, decide_eq_true_eq, ge_iff_le, UInt32.le_iff_toNat_le] at h
    change ((65 ≤ c.toNat ∧ c.toNat ≤ 90) ∨ 97 ≤ c.toNat ∧ c.toNat ≤ 122) ∨
      48 ≤ c.toNat ∧ c.toNat ≤ 57 at h
    omega
  · decide
  · decide

theorem isBareChar_cases {c : Char} (h : isBareChar c = true) :
    isPrintable c = true ∧ isBreak c = false ∧ isSpace c = false ∧ c ≠ ':' ∧ c ≠ '#' ∧ c ≠ '?' ∧
      ",[]\x7b\x7d&*!|>'\"%@\x60".toList.contains c = false := by
  have hcodes : ∀ n < 128, isBareChar (Char.ofNat n) = true →
      isPrintable (Char.ofNat n) = true ∧ isBreak (Char.ofNat n) = false ∧
        isSpace (Char.ofNat n) = false ∧ Char.ofNat n ≠ ':' ∧ Char.ofNat n ≠ '#' ∧
          Char.ofNat n ≠ '?' ∧ ",[]\x7b\x7d&*!|>'\"%@\x60".toList.contains (Char.ofNat n) = false := by
    decide +kernel
  have := hcodes c.toNat (toNat_lt_of_isBareChar h)
  rw [Char.ofNat_toNat] at this
  exact this h

/-- A text that is one word and starts with a letter or a digit, maybe behind a sign. -/
structure IsBareWord (t : Text) : Prop where
  bare : t.all isBareChar = true
  head : ∃ c s, (t = c :: s ∨ t = '-' :: c :: s) ∧ c.isAlphanum = true

theorem isBareWord_of_letters {c : Char} {s : Text} (h : (c :: s).all Char.isAlphanum = true) :
    IsBareWord (c :: s) := by
  rw [List.all_cons, Bool.and_eq_true] at h
  refine ⟨?_, c, s, .inl rfl, h.1⟩
  rw [List.all_eq_true] at h ⊢
  intro d hd
  obtain rfl | hd := List.mem_cons.mp hd
  · simp [isBareChar, h.1]
  · simp [isBareChar, h.2 d hd]

theorem meet_of_not_mem {p q : Char → Bool} {t : Text}
    (h : (∀ c ∈ t, p c = false) ∨ ∀ c ∈ t, q c = false) : meet p q t = false := by
  rw [meet, List.any_eq_false]
  rintro ⟨a, b⟩ hmem
  have hab := List.of_mem_zip hmem
  obtain h | h := h
  · simp [h a hab.1]
  · simp [h b (List.mem_of_mem_tail hab.2)]

theorem hasMark_of_not_mem {t : Text} (h : ∀ c ∈ t, c ≠ ':' ∧ c ≠ '#') (b : Bool) :
    hasMark b t = false := by
  induction t generalizing b with
  | nil => rfl
  | cons c t ih =>
    obtain ⟨hcolon, hnumber⟩ := h c (List.mem_cons_self ..)
    rw [hasMark, ih fun d hd => h d (List.mem_cons_of_mem _ hd)]
    simp [hcolon, hnumber]

theorem IsBareWord.not_startsAsMarkup {t : Text} (h : IsBareWord t) : startsAsMarkup t = false := by
  have hletter : ∀ c : Char, c.isAlphanum = true → c ≠ '-' ∧ c ≠ '.' := by
    rintro c hc
    constructor <;> rintro rfl <;> exact absurd hc (by decide)
  obtain ⟨c, s, hcases, hc⟩ := h.head
  obtain ⟨hdash, hdot⟩ := hletter c hc
  have hbare : isBareChar c = true := by simp [isBareChar, hc]
  obtain ⟨hprint, hbreak, hspace, _, _, hquestion, hmark⟩ := isBareChar_cases hbare
  have hprefix : ∀ (x : Char) (l : Text), x ≠ c → (x :: l).isPrefixOf (c :: s) = false :=
    fun x l hx => by simp [List.isPrefixOf_cons_cons, hx]
  obtain rfl | rfl := hcases
  · have hdashes : "---".toList.isPrefixOf (c :: s) = false := hprefix _ _ hdash.symm
    have hdots : "...".toList.isPrefixOf (c :: s) = false := hprefix _ _ hdot.symm
    rw [startsAsMarkup, List.head?_cons, Option.any_some, hmark, hdashes, hdots]
    simp [hquestion, hdash]
  · have hword : endsWord c = false := by
      have htab : c ≠ '\t' ∧ c ≠ '\x00' := by
        constructor <;> rintro rfl <;> exact absurd hc (by decide)
      simp [endsWord, isBlank, hbreak, htab, show (c == ' ') = false from hspace]
    simp [startsAsMarkup, hword, List.isPrefixOf_cons_cons, hdash.symm]

theorem admitsPlain_of_isBareWord {t : Text} (h : IsBareWord t) : admitsPlain t = true := by
  have hchar := fun c hc => isBareChar_cases (List.all_eq_true.mp h.bare c hc)
  have hspace : ' ' ∉ t := fun hmem => absurd (hchar ' ' hmem).2.2.1 (by decide)
  have hhead : t.head? ≠ some ' ' := fun heq => hspace (List.mem_of_head? heq)
  have hlast : t.getLast? ≠ some ' ' := fun heq => hspace (List.mem_of_getLast? heq)
  have hprintable : t.all isPrintable = true := List.all_eq_true.mpr fun c hc => (hchar c hc).1
  have hunbroken : t.any isBreak = false :=
    List.any_eq_false.mpr fun c hc => by simp [(hchar c hc).2.1]
  have hbefore : meet isSpace isBreak t = false :=
    meet_of_not_mem (.inl fun c hc => (hchar c hc).2.2.1)
  have hbehind : meet isBreak isSpace t = false :=
    meet_of_not_mem (.inl fun c hc => (hchar c hc).2.1)
  have hmark : hasMark true t = false :=
    hasMark_of_not_mem (fun c hc => ⟨(hchar c hc).2.2.2.1, (hchar c hc).2.2.2.2.1⟩) true
  simp [admitsPlain, admitsSingleQuotes, writable, hprintable, hbefore, hbehind, hunbroken, hhead,
    hlast, h.not_startsAsMarkup, hmark]

/-! ## Numbers -/

open Decimal

theorem isBareWord_of_isUnsigned {c : Char} {s : Text} (h : IsUnsigned c s) (negative : Bool) :
    IsBareWord (signText negative ++ c :: s) := by
  have hletter : c.isAlphanum = true := by simp [Char.isAlphanum, h.digit]
  have hall : (c :: s).all isBareChar = true := by
    rw [List.all_cons, isBareChar_of_isDigit h.digit, Bool.true_and]
    refine List.all_eq_true.mpr fun d hd => ?_
    have hd := List.all_eq_true.mp h.chars d hd
    simp only [isNumberChar, Bool.or_eq_true, beq_iff_eq] at hd
    obtain ((hd | rfl) | rfl) | rfl := hd
    · exact isBareChar_of_isDigit hd
    · decide
    · decide
    · decide
  cases negative with
  | false => exact ⟨hall, c, s, .inl rfl, hletter⟩
  | true => exact ⟨hall, c, s, .inr rfl, hletter⟩

theorem isBareWord_intText (n : Int) : IsBareWord (intText n) := by
  obtain ⟨c, s, hdigits, hs, _⟩ := exists_digitText n.natAbs
  rw [intText_eq, hdigits]
  exact isBareWord_of_isUnsigned hs _

theorem isBareWord_compact (d : Decimal) : IsBareWord d.compact := by
  obtain ⟨c, s, htext, hs, _⟩ := exists_compact d
  rw [htext]
  exact isBareWord_of_isUnsigned hs _

theorem isBareWord_floatText (x : Binary64) : IsBareWord (Data.floatText x) := by
  unfold Data.floatText
  split
  · exact isBareWord_compact _
  · exact ⟨by decide, 'i', "nf".toList, .inr rfl, by decide⟩
  · exact ⟨by decide, 'i', "nf".toList, .inl rfl, by decide⟩
  · exact ⟨by decide, 'n', "an".toList, .inl rfl, by decide⟩

end Yaml.Printer

end Scaffold
