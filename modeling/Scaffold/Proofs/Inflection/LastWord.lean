import Mathlib
import Scaffold.Inflection

/-!
Which word of a text is inflected, and what becomes of its case. The text in front of the last word
never matters, whatever it is, and capitals come back where the word had them. Main statements:
where the last word starts (`lastWord_append`, `lastWord_capital`), and that inflection goes by it
alone and commutes with the change of case (`inflect_last_word`).
-/

namespace Scaffold.Inflection

variable {rule : Text → Text} {h w : Text} {c : Char}

/-! ## Where the last word starts -/

/-- The letters at the end of a text, from the last one back, and what is in front of them. -/
theorem letters_append (hh : ∀ c, h.getLast? = some c → c.isAlpha = false)
    (hw : ∀ c ∈ w, c.isAlpha = true) :
    (h ++ w).reverse.takeWhile Char.isAlpha = w.reverse ∧
      ((h ++ w).reverse.dropWhile Char.isAlpha).reverse = h := by
  refine ⟨?_, Text.trimEnd_append hh (List.all_eq_true.mpr hw)⟩
  have hstop : h.reverse.takeWhile Char.isAlpha = [] := by
    cases hr : h.reverse with
    | nil => rfl
    | cons c r =>
      have hc := hh c (by rw [← List.head?_reverse, hr]; rfl)
      rw [List.takeWhile_cons, hc]
      rfl
  rw [List.reverse_append, List.takeWhile_append_of_pos, hstop, List.append_nil]
  intro c hc
  exact hw c (List.mem_reverse.mp hc)

/-- Behind a text that does not end in a letter, letters are cut as they are by themselves. -/
theorem lastWord_append (hh : ∀ c, h.getLast? = some c → c.isAlpha = false)
    (hw : ∀ c ∈ w, c.isAlpha = true) :
    lastWord (h ++ w) = { lastWord w with before := h ++ (lastWord w).before } := by
  obtain ⟨hletters, hbefore⟩ := letters_append hh hw
  obtain ⟨hletters₀, hbefore₀⟩ := letters_append (h := []) nofun hw
  rw [List.nil_append] at hletters₀ hbefore₀
  simp only [lastWord, hletters, hbefore, hletters₀, hbefore₀]
  split
  · simp
  · split <;> simp

/-- Lowercase letters hold up neither the search for a capital nor that for another character. -/
theorem span_lower (hw : ∀ d ∈ w, d.isLower = true) :
    (∀ d ∈ w.reverse, d.isAlpha = true) ∧ ∀ d ∈ w.reverse, (!d.isUpper) = true := by
  constructor
  · intro d hd
    rw [Char.isAlpha, hw d (List.mem_reverse.mp hd), Bool.or_true]
  · intro d hd
    have hupper := Char.not_isUpper_of_isLower (hw d (List.mem_reverse.mp hd))
    simpa using hupper

theorem not_all_isUpper (hne : w ≠ []) (hw : ∀ d ∈ w, d.isLower = true) (rest : Text) :
    (w.reverse ++ rest).all Char.isUpper = false := by
  obtain ⟨d, w, rfl⟩ := List.exists_cons_of_ne_nil hne
  have hupper := Char.not_isUpper_of_isLower (hw d (List.mem_cons_self ..))
  simp [hupper]

/-- A capital with lowercase letters behind it starts the last word, whatever stands in front. -/
theorem lastWord_capital (hc : c.isUpper = true) (hne : w ≠ [])
    (hw : ∀ d ∈ w, d.isLower = true) : lastWord (h ++ c :: w) = ⟨h, c :: w, false⟩ := by
  obtain ⟨halpha, hlow⟩ := span_lower hw
  have hcalpha : c.isAlpha = true := by rw [Char.isAlpha, hc, Bool.true_or]
  have hreverse : (h ++ c :: w).reverse = w.reverse ++ c :: h.reverse := by simp
  have hletters : (h ++ c :: w).reverse.takeWhile Char.isAlpha =
      w.reverse ++ c :: h.reverse.takeWhile Char.isAlpha := by
    rw [hreverse, List.takeWhile_append_of_pos halpha, List.takeWhile_cons, if_pos hcalpha]
  have hbefore :
      (h ++ c :: w).reverse.dropWhile Char.isAlpha = h.reverse.dropWhile Char.isAlpha := by
    rw [hreverse, List.dropWhile_append_of_pos halpha, List.dropWhile_cons, if_pos hcalpha]
  have hjoin : (h.reverse.dropWhile Char.isAlpha).reverse ++
      (h.reverse.takeWhile Char.isAlpha).reverse = h := by
    rw [← List.reverse_append, List.takeWhile_append_dropWhile, List.reverse_reverse]
  simp only [lastWord, hletters, hbefore, not_all_isUpper hne hw,
    List.takeWhile_append_of_pos hlow, List.dropWhile_append_of_pos hlow]
  simp [hc, hjoin]

theorem lastWord_lower (hne : w ≠ []) (hw : ∀ d ∈ w, d.isLower = true) :
    lastWord w = ⟨[], w, false⟩ := by
  obtain ⟨halpha, hlow⟩ := span_lower hw
  obtain ⟨hletters, hbefore⟩ := letters_append (h := []) nofun fun d hd =>
    halpha d (List.mem_reverse.mpr hd)
  have hnot := not_all_isUpper hne hw []
  rw [List.append_nil] at hnot
  have htake : w.reverse.takeWhile (!Char.isUpper ·) = w.reverse :=
    List.takeWhile_eq_self_iff.mpr hlow
  have hdrop : w.reverse.dropWhile (!Char.isUpper ·) = [] := List.dropWhile_eq_nil_iff.mpr hlow
  rw [List.nil_append] at hletters hbefore
  simp only [lastWord, hletters, hbefore, hnot, htake, hdrop]
  simp

theorem lastWord_upper (hw : ∀ d ∈ w, d.isUpper = true) : lastWord w = ⟨[], w, true⟩ := by
  obtain ⟨hletters, hbefore⟩ := letters_append (h := []) nofun fun d hd =>
    show (d.isUpper || d.isLower) = true by rw [hw d hd, Bool.true_or]
  rw [List.nil_append] at hletters hbefore
  have hall : w.reverse.all Char.isUpper = true :=
    List.all_eq_true.mpr fun d hd => hw d (List.mem_reverse.mp hd)
  simp only [lastWord, hletters, hbefore, hall]
  simp

/-! ## Inflection goes by the last word -/

theorem inflect_append (hlast : lastWord (h ++ w) =
    { lastWord w with before := h ++ (lastWord w).before }) :
    inflect rule (h ++ w) = h ++ inflect rule w := by
  unfold inflect
  simp only [hlast]
  split
  · rfl
  · rw [List.append_assoc]

/-! ## Inflection and case -/

theorem lower_eq_self (hw : ∀ d ∈ w, d.isLower = true) : Text.lower w = w := by
  refine (List.map_congr_left fun d hd => ?_).trans (List.map_id w)
  exact Char.toLower_eq_of_not_isUpper (Char.not_isUpper_of_isLower (hw d hd))

theorem lower_upper (hw : ∀ d ∈ w, d.isLower = true) : Text.lower (Text.upper w) = w := by
  rw [Text.lower, Text.upper, List.map_map]
  refine (List.map_congr_left fun d hd => ?_).trans (lower_eq_self hw)
  exact Char.toLower_toUpper_eq_toLower d

theorem isUpper_toUpper (hc : c.isLower = true) : c.toUpper.isUpper = true := by
  rw [Char.isUpper_toUpper_eq_isAlpha, Char.isAlpha, hc, Bool.or_true]

theorem inflect_nil : inflect rule [] = [] := by simp [inflect, lastWord]

theorem inflect_lower (hne : w ≠ []) (hw : ∀ d ∈ w, d.isLower = true) :
    inflect rule w = if w ∈ uncountable then w else rule w := by
  have hhead : w.head?.any Char.isUpper = false := by
    obtain ⟨c, w, rfl⟩ := List.exists_cons_of_ne_nil hne
    simpa using Char.not_isUpper_of_isLower (hw c (List.mem_cons_self ..))
  simp [inflect, lastWord_lower hne hw, lower_eq_self hw, recase, hne, hhead]

/-- A single capital counts as all capitals, but is recased as the first letter of a word. -/
theorem lastWord_capitalized (hc : c.isUpper = true) (hw : ∀ d ∈ w, d.isLower = true) :
    ∃ allCaps, lastWord (c :: w) = ⟨[], c :: w, allCaps⟩ ∧ ¬ (1 < (c :: w).length ∧ allCaps) := by
  cases w with
  | nil => exact ⟨true, lastWord_upper (by simpa using hc), by simp⟩
  | cons d w => exact ⟨false, lastWord_capital (h := []) hc (List.cons_ne_nil d w) hw, by simp⟩

theorem inflect_capitalize (hw : ∀ d ∈ w, d.isLower = true) :
    inflect rule (CaseStyle.capitalize w) = CaseStyle.capitalize (inflect rule w) := by
  cases w with
  | nil => rw [CaseStyle.capitalize, inflect_nil, CaseStyle.capitalize]
  | cons c w =>
    have hc := isUpper_toUpper (hw c (List.mem_cons_self ..))
    have hlow : Text.lower (c.toUpper :: w) = c :: w := by
      have hlower := lower_eq_self hw
      rw [Text.lower, List.map_cons] at hlower ⊢
      rw [Char.toLower_toUpper_eq_toLower, hlower]
    obtain ⟨allCaps, hlast, hcaps⟩ :=
      lastWord_capitalized hc fun d hd => hw d (List.mem_cons_of_mem _ hd)
    rw [inflect_lower (List.cons_ne_nil c w) hw, CaseStyle.capitalize, inflect, hlast]
    simp only [hlow, recase, if_neg hcaps, List.head?_cons, Option.any_some, hc]
    split <;> simp_all [CaseStyle.capitalize]

theorem inflect_upper (hw : ∀ d ∈ w, d.isLower = true) (hlength : 2 ≤ w.length) :
    inflect rule (Text.upper w) = Text.upper (inflect rule w) := by
  have hupper : ∀ d ∈ Text.upper w, d.isUpper = true := by
    intro d hd
    obtain ⟨c, hc, rfl⟩ := List.mem_map.mp hd
    exact isUpper_toUpper (hw c hc)
  have hlong : 1 < (Text.upper w).length := by rwa [Text.upper, List.length_map]
  have hne : w ≠ [] := List.ne_nil_of_length_pos (by omega)
  have hne' : Text.upper w ≠ [] := List.ne_nil_of_length_pos (by omega)
  rw [inflect_lower hne hw, inflect, lastWord_upper hupper]
  simp only [lower_upper hw, hne', false_or, recase, hlong, and_self, if_true]
  split <;> simp

/-- The plural and the singular of a text are those of its last word: letters behind anything but a
letter, or a capital with lowercase letters behind it. They keep the capital of the word, or all of
its capitals if there are at least two. -/
theorem inflect_last_word {form : Text → Text} (hform : form = plural ∨ form = singular)
    (h : Text) :
    ((∀ c, h.getLast? = some c → c.isAlpha = false) →
      ∀ w : Text, (∀ c ∈ w, c.isAlpha = true) → form (h ++ w) = h ++ form w) ∧
    (∀ (c : Char) (w : Text), c.isUpper = true → w ≠ [] → (∀ d ∈ w, d.isLower = true) →
      form (h ++ c :: w) = h ++ form (c :: w)) ∧
    ∀ w : Text, (∀ c ∈ w, c.isLower = true) →
      form (CaseStyle.capitalize w) = CaseStyle.capitalize (form w) ∧
        (2 ≤ w.length → form (Text.upper w) = Text.upper (form w)) := by
  obtain ⟨rule, rfl⟩ : ∃ rule, form = inflect rule := by
    rcases hform with rfl | rfl
    · exact ⟨pluralWord, rfl⟩
    · exact ⟨singularWord, rfl⟩
  refine ⟨?_, ?_, ?_⟩
  · intro hh w hw
    exact inflect_append (lastWord_append hh hw)
  · intro c w hc hne hw
    apply inflect_append
    rw [lastWord_capital hc hne hw, ← List.nil_append (c :: w), lastWord_capital hc hne hw]
    simp
  · intro w hw
    exact ⟨inflect_capitalize hw, inflect_upper hw⟩

private def child : Text := "child".toList

theorem plural_child : (plural = plural ∨ plural = singular) ∧
    plural ("Café".toList ++ child) = "Café".toList ++ plural child ∧
    plural ("Café".toList ++ "Child".toList) = "Café".toList ++ plural "Child".toList ∧
    plural (CaseStyle.capitalize child) = CaseStyle.capitalize (plural child) ∧
    plural (Text.upper child) = Text.upper (plural child) := by
  have hboundary : ∀ c, "Café".toList.getLast? = some c → c.isAlpha = false := by
    rintro c ⟨⟩
    decide
  have hlower : ∀ c ∈ child, c.isLower = true := List.all_eq_true.mp (by decide)
  have hletters : ∀ c ∈ child, c.isAlpha = true := List.all_eq_true.mp (by decide)
  have hrest : ∀ c ∈ "hild".toList, c.isLower = true := List.all_eq_true.mp (by decide)
  obtain ⟨hbehind, hcapital, hcase⟩ := inflect_last_word (.inl (Eq.refl plural)) "Café".toList
  exact ⟨.inl rfl, hbehind hboundary child hletters,
    hcapital 'C' "hild".toList (by decide) (by decide) hrest, (hcase child hlower).1,
    (hcase child hlower).2 (by decide)⟩

example : plural "CaféChild".toList = "CaféChildren".toList := by decide

end Scaffold.Inflection
