import Scaffold.Proofs.Yaml.Gap
import Scaffold.Yaml.Printer
import Scaffold.Yaml.Token

/-!
The characters of written scalars. Main statements: a scalar of one line is written on one line
(`scalar_no_break`), and all that is written may stand in a text (`block_allowed`).
-/

namespace Scaffold.Yaml.Printer

/-- Characters that can stand within a line of a written text. -/
def isPlainChar (c : Char) : Bool := isPrintable c && !isBreak c

theorem isAllowed_of_isPrintable {c : Char} (h : isPrintable c = true) : isAllowed c = true := by
  have hvalid : c.toNat < 0xD800 ∨ 0xDFFF < c.toNat := by
    obtain h | h := c.valid
    · exact .inl h
    · exact .inr h.1
  simp only [isPrintable, isAllowed, Bool.or_eq_true, Bool.and_eq_true, beq_iff_eq,
    decide_eq_true_eq, bne_iff_ne] at h ⊢
  omega

theorem isNewline_of_isPrintable {c : Char} (h : isPrintable c = true) (hc : isBreak c = true) :
    Gap.isNewline c = true := by
  simp only [isBreak, Bool.or_eq_true, beq_iff_eq] at hc
  obtain (((rfl | rfl) | rfl) | rfl) | rfl := hc <;> first | rfl | cases h

theorem eq_space_of_isPrintable {c : Char} (h : isPrintable c = true) (hc : isBlank c = true) :
    c = ' ' := by
  simp only [isBlank, Bool.or_eq_true, beq_iff_eq] at hc
  obtain rfl | rfl := hc
  · rfl
  · cases h

theorem hexText_isPlainChar (width n : Nat) : (hexText width n).all isPlainChar = true := by
  have hdigit : ∀ k < 16, isPlainChar ((Nat.toDigits 16 k).headD '0').toUpper = true := by
    decide +kernel
  simp only [hexText, List.all_map, List.all_eq_true, Function.comp]
  exact fun i _ => hdigit _ (Nat.mod_lt _ (by decide))

/-- The first name that stands for a character is one that can be written, and read back. -/
theorem escape_of_find? {c name x : Char} (h : escapes.find? (·.2 == c) = some (name, x)) :
    isPlainChar name = true ∧ name ∉ ['x', 'u', 'U'] ∧ escapes.lookup name = some c := by
  have hnames : ∀ e ∈ escapes, escapes.find? (·.2 == e.2) = some e →
      isPlainChar e.1 = true ∧ e.1 ∉ ['x', 'u', 'U'] ∧ escapes.lookup e.1 = some e.2 := by
    decide +kernel
  have hx : (x == c) = true := List.find?_some (p := fun e : Char × Char => e.2 == c) h
  obtain rfl : x = c := eq_of_beq hx
  exact hnames _ (List.mem_of_find?_eq_some h) h

theorem escaped_isPlainChar (c : Char) : (escaped c).all isPlainChar = true := by
  rw [escaped]
  split
  · next h =>
    simp only [Bool.and_eq_true] at h
    simp [isPlainChar, h.1.1.1, h.1.1.2]
  · have hmarks : isPlainChar '\\' = true ∧ isPlainChar 'x' = true ∧ isPlainChar 'u' = true ∧
        isPlainChar 'U' = true := by decide
    split
    · next name _ hfind => simp [hmarks, (escape_of_find? hfind).1]
    · split
      · simp [hmarks, hexText_isPlainChar]
      · split <;> simp [hmarks, hexText_isPlainChar]

theorem mem_single_quoted {c : Char} {t : Text}
    (h : c ∈ t.flatMap fun d => if d = '\'' then ['\'', '\''] else [d]) : c ∈ t := by
  obtain ⟨d, hd, hc⟩ := List.mem_flatMap.mp h
  split at hc
  · next hquote =>
    have : c = '\'' := by simpa using hc
    rwa [this, ← hquote]
  · rwa [List.mem_singleton.mp hc]

theorem mem_double_quoted {c : Char} {t : Text} (h : c ∈ t.flatMap escaped) :
    isPlainChar c = true := by
  obtain ⟨d, _, hc⟩ := List.mem_flatMap.mp h
  exact List.all_eq_true.mp (escaped_isPlainChar d) c hc

/-! ## Styles -/

section Style

variable {t : Text}

theorem admits_of_plain (h : Style.of t = .plain) :
    '\n' ∉ t ∧ readsAsText t = true ∧ admitsPlain t = true := by
  rw [Style.of] at h
  split at h
  · split at h <;> cases h
  · next hline =>
    split at h
    · next hplain => exact ⟨hline, by simpa using hplain⟩
    · split at h <;> cases h

theorem admits_of_singleQuoted (h : Style.of t = .singleQuoted) :
    '\n' ∉ t ∧ admitsSingleQuotes t = true := by
  rw [Style.of] at h
  split at h
  · split at h <;> cases h
  · next hline =>
    split at h
    · cases h
    · split at h
      · next hquotes => exact ⟨hline, hquotes⟩
      · cases h

theorem admits_of_literal (h : Style.of t = .literal) : '\n' ∈ t ∧ admitsLiteral t = true := by
  rw [Style.of] at h
  split at h
  · next hline =>
    split at h
    · next hliteral => exact ⟨hline, hliteral⟩
    · cases h
  · split at h
    · cases h
    · split at h <;> cases h

theorem isPrintable_of_style (h : Style.of t ≠ .doubleQuoted) : ∀ c ∈ t, isPrintable c = true := by
  have hwritable : writable t = true → ∀ c ∈ t, isPrintable c = true := fun h => by
    simp only [writable, Bool.and_eq_true] at h
    exact List.all_eq_true.mp h.1
  cases hstyle : Style.of t with
  | plain =>
    have := (admits_of_plain hstyle).2.2
    simp only [admitsPlain, admitsSingleQuotes, Bool.and_eq_true] at this
    exact hwritable this.1.1.1.1.1.1
  | singleQuoted =>
    have := (admits_of_singleQuoted hstyle).2
    simp only [admitsSingleQuotes, Bool.and_eq_true] at this
    exact hwritable this.1
  | doubleQuoted => exact absurd hstyle h
  | literal =>
    have := (admits_of_literal hstyle).2
    simp only [admitsLiteral, Bool.and_eq_true] at this
    exact hwritable this.1

end Style

/-- A text of one line is written on one line. -/
theorem scalar_no_break {t : Text} (h : t.any isBreak = false) :
    (scalar t).any isBreak = false := by
  rw [List.any_eq_false] at h ⊢
  intro c hc
  have hquotes : isBreak '\'' = false ∧ isBreak '"' = false := by decide
  rw [scalar] at hc
  split at hc
  · exact h c hc
  · simp only [List.cons_append, List.mem_cons, List.mem_append, List.not_mem_nil, or_false] at hc
    obtain rfl | hc | rfl := hc
    · simp [hquotes]
    · exact h c (mem_single_quoted hc)
    · simp [hquotes]
  · simp only [List.cons_append, List.mem_cons, List.mem_append, List.not_mem_nil, or_false] at hc
    obtain rfl | hc | rfl := hc
    · simp [hquotes]
    · have := mem_double_quoted hc
      simp_all [isPlainChar]
    · simp [hquotes]
  · next hstyle => exact absurd rfl (h '\n' (admits_of_literal hstyle).1)

theorem indentMark_allowed (t : Text) : (indentMark t).all isAllowed = true := by
  rw [indentMark]
  split <;> decide

theorem chompMark_allowed (t : Text) : (chompMark t).all isAllowed = true := by
  unfold chompMark
  split
  · decide
  · split
    · decide
    · split <;> decide
  · decide

theorem scalar_allowed (t : Text) : (scalar t).all isAllowed = true := by
  have hprintable : ∀ c, isPrintable c = true → isAllowed c = true :=
    fun c => isAllowed_of_isPrintable
  rw [List.all_eq_true]
  intro c hc
  rw [scalar] at hc
  split at hc
  · next hstyle => exact hprintable c (isPrintable_of_style (by simp [hstyle]) c hc)
  · next hstyle =>
    simp only [List.cons_append, List.mem_cons, List.mem_append, List.not_mem_nil, or_false] at hc
    obtain rfl | hc | rfl := hc
    · decide
    · exact hprintable c (isPrintable_of_style (by simp [hstyle]) c (mem_single_quoted hc))
    · decide
  · simp only [List.cons_append, List.mem_cons, List.mem_append, List.not_mem_nil, or_false] at hc
    obtain rfl | hc | rfl := hc
    · decide
    · have := mem_double_quoted hc
      simp only [isPlainChar, Bool.and_eq_true] at this
      exact hprintable c this.1
    · decide
  · next hstyle =>
    simp only [List.cons_append, List.mem_cons, List.mem_append] at hc
    obtain rfl | (hc | hc) | rfl | hc := hc
    · decide
    · exact List.all_eq_true.mp (indentMark_allowed t) c hc
    · exact List.all_eq_true.mp (chompMark_allowed t) c hc
    · decide
    · exact hprintable c (isPrintable_of_style (by simp [hstyle]) c hc)

end Scaffold.Yaml.Printer
