import Scaffold.Proofs.Inflection.LastWord
import Scaffold.Proofs.Inflection.Endings

/-!
Which words come back when the plural is made singular again. What the plural puts on a word, the
singular takes off only if it comes to the same ending, so both tables are compared ending by
ending. Main statements: the singulars of each kind of plural (`singularForm_es`, `singularForm_s`,
`singularForm_self`), and exactly which words return (`singular_plural`).
-/

namespace Scaffold.Inflection

variable {word result stem : Text}

/-- The words of the two lists, with which no ending counts. -/
def IsListed (word : Text) : Prop :=
  word ∈ uncountable ∨ ∃ row ∈ irregular, row.1 = word ∨ row.2 = word

instance (word : Text) : Decidable (IsListed word) := inferInstanceAs (Decidable (_ ∨ _))

/-- A word with one of these endings returns, whatever is in front of it. -/
def returningEndings : List String := ["quiz", "ch", "sh", "ss", "x", "y"]

/-- A word with none of these endings returns. -/
def lostEndings : List String :=
  ["s", "x", "z", "y", "i", "u", "ch", "sh", "sse", "xe", "che", "she", "ie", "quizze"]

/-- The words that come back, by their ending. -/
def Returns (word : Text) : Prop :=
  (∃ ending ∈ returningEndings, ending.toList <:+ word) ∨
    ("is".toList <:+ word ∧ ¬ "sis".toList <:+ word) ∨
    ∀ ending ∈ lostEndings, ¬ ending.toList <:+ word

instance (word : Text) : Decidable (Returns word) := inferInstanceAs (Decidable (_ ∨ _ ∨ _))

/-- Behind these endings `es` comes off again. -/
def esEndings : List String := ["ss", "x", "ch", "sh"]

/-- Behind these endings `s` does not come off by itself. -/
def heldEndings : List String := ["quizze", "sse", "xe", "che", "she", "ie", "s", "u", "i"]

/-! ## Endings put on and taken off -/

theorem singularForm_es : SingularForm (word ++ "es".toList) word ↔
    ∃ ending ∈ esEndings, ending.toList <:+ word := by
  have hrows : ∀ row ∈ longEndings, row.2.toList ++ "es".toList = row.1.toList →
      row.2 ∈ esEndings := by decide
  have hback : ∀ ending ∈ esEndings, ∃ row ∈ longEndings,
      row.2 = ending ∧ row.1.toList = ending.toList ++ "es".toList := by decide
  constructor
  · intro h
    cases h with
    | long row hmem stem hword hresult =>
      rw [hresult, List.append_assoc, List.append_cancel_left_eq] at hword
      exact ⟨row.2, hrows row hmem hword, stem, hresult.symm⟩
    | kept _ hresult => simp at hresult
    | bare _ hword => simp at hword
  · rintro ⟨ending, hmem, stem, rfl⟩
    obtain ⟨row, hrow, rfl, hending⟩ := hback ending hmem
    exact .long row hrow stem (by rw [hending, List.append_assoc]) rfl

theorem singularForm_s : SingularForm (word ++ "s".toList) word ↔
    ∀ ending ∈ heldEndings, ¬ ending.toList <:+ word := by
  have hrows : ∀ row ∈ longEndings, row.2.toList ++ "s".toList ≠ row.1.toList := by decide
  have hlonger : ∀ ending ∈ heldEndings,
      ∃ long ∈ longEndings.map Prod.fst ++ keptEndings,
        long.toList = ending.toList ++ "s".toList := by decide
  have hshorter : ∀ long ∈ longEndings.map Prod.fst ++ keptEndings,
      ∃ ending ∈ heldEndings, long.toList = ending.toList ++ "s".toList := by decide
  constructor
  · intro h ending hmem hends
    cases h with
    | long row hmem stem hword hresult =>
      rw [hresult, List.append_assoc, List.append_cancel_left_eq] at hword
      exact hrows row hmem hword
    | kept _ hresult => simp at hresult
    | bare hfree _ =>
      obtain ⟨long, hlong, heq⟩ := hlonger ending hmem
      exact hfree long hlong (heq ▸ List.suffix_append_self_iff.mpr hends)
  · intro hfree
    refine .bare ?_ rfl
    intro long hlong hends
    obtain ⟨ending, hmem, heq⟩ := hshorter long hlong
    exact hfree ending hmem (List.suffix_append_self_iff.mp (heq ▸ hends))

theorem singularForm_self : SingularForm word word ↔
    (∃ ending ∈ keptEndings, ending.toList <:+ word) ∨ ¬ "s".toList <:+ word := by
  have hrows : ∀ row ∈ longEndings, row.2.toList ≠ row.1.toList := by decide
  constructor
  · intro h
    cases h with
    | long row hmem stem hword hresult =>
      rw [hresult, List.append_cancel_left_eq] at hword
      exact absurd hword (hrows row hmem)
    | kept hkept _ => exact hkept
    | bare _ hword => simp at hword
  · intro h
    exact .kept h rfl

theorem not_singularForm_sis : ¬ SingularForm (stem ++ "ses".toList) (stem ++ "sis".toList) := by
  have hrows : ∀ row ∈ longEndings, row.1.toList.length ≠ row.2.toList.length := by decide
  have hends : "ses".toList.length = "sis".toList.length := by decide
  have hlength : (stem ++ "ses".toList).length = (stem ++ "sis".toList).length := by
    rw [List.length_append, List.length_append, hends]
  intro h
  cases h with
  | long row hmem other hword hresult =>
    rw [hword, hresult, List.length_append, List.length_append] at hlength
    exact hrows row hmem (Nat.add_left_cancel hlength)
  | kept _ hresult => simp at hresult
  | bare _ hword => simp at hword

/-! ## The words that return -/

theorem returns_hissing {ending : String} (hmem : ending ∈ hissingEndings)
    (hends : ending.toList <:+ word) (hquiz : ¬ "quiz".toList <:+ word) :
    (∃ ending ∈ esEndings, ending.toList <:+ word) ↔ Returns word := by
  constructor
  · rintro ⟨other, hother, hfits⟩
    have hsubset : ∀ other ∈ esEndings, other ∈ returningEndings := by decide
    exact .inl ⟨other, hsubset other hother, hfits⟩
  · rintro (⟨other, hother, hfits⟩ | ⟨his, -⟩ | hfree)
    · have hcases : ∀ other ∈ returningEndings, other = "quiz" ∨ other ∈ esEndings ∨
          ∀ ending ∈ hissingEndings, Apart other ending := by decide
      rcases hcases other hother with rfl | hother | hapart
      · exact absurd hfits hquiz
      · exact ⟨other, hother, hfits⟩
      · exact absurd hfits ((hapart ending hmem).not_suffix hends)
    · have hapart : ∀ ending ∈ hissingEndings, Apart "is" ending := by decide
      exact absurd his ((hapart ending hmem).not_suffix hends)
    · have hlast : ∀ ending ∈ hissingEndings,
          ∃ other ∈ lostEndings, other.toList <:+ ending.toList := by decide
      obtain ⟨other, hother, hfits⟩ := hlast ending hmem
      exact absurd (hfits.trans hends) (hfree other hother)

theorem returns_unchanged (hends : "s".toList <:+ word)
    (hfree : ∀ ending ∈ ["sis", "ss", "us"], ¬ ending.toList <:+ word) :
    ((∃ ending ∈ keptEndings, ending.toList <:+ word) ∨ ¬ "s".toList <:+ word) ↔
      Returns word := by
  constructor
  · rintro (⟨ending, hmem, hfits⟩ | hnot)
    · have hcases : ∀ ending ∈ keptEndings, ending ∈ ["sis", "ss", "us"] ∨ ending = "is" := by
        decide
      rcases hcases ending hmem with hmem | rfl
      · exact absurd hfits (hfree ending hmem)
      · exact .inr (.inl ⟨hfits, hfree "sis" (by decide)⟩)
    · exact absurd hends hnot
  · rintro (⟨ending, hmem, hfits⟩ | ⟨his, -⟩ | hnone)
    · have hcases : ∀ ending ∈ returningEndings, ending = "ss" ∨ Apart ending "s" := by decide
      rcases hcases ending hmem with rfl | hapart
      · exact absurd hfits (hfree "ss" (by decide))
      · exact absurd hfits (hapart.not_suffix hends)
    · exact .inl ⟨"is", by decide, his⟩
    · exact absurd hends (hnone "s" (by decide))

theorem returns_plain (hfree : ∀ ending ∈ changedEndings, ¬ ending.toList <:+ word) :
    (∀ ending ∈ heldEndings, ¬ ending.toList <:+ word) ↔ Returns word := by
  constructor
  · intro hnone
    have hcases : ∀ ending ∈ lostEndings, ending ∈ changedEndings ∨ ending ∈ heldEndings := by
      decide
    right
    right
    intro ending hmem
    exact (hcases ending hmem).elim (hfree ending) (hnone ending)
  · rintro (⟨ending, hmem, hfits⟩ | ⟨his, -⟩ | hnone)
    · have hlast : ∀ ending ∈ returningEndings,
          ∃ last ∈ changedEndings, last.toList <:+ ending.toList := by decide
      obtain ⟨last, hlast, hend⟩ := hlast ending hmem
      exact absurd (hend.trans hfits) (hfree last hlast)
    · exact absurd (List.IsSuffix.trans (by decide) his) (hfree "s" (by decide))
    · have hsubset : ∀ ending ∈ heldEndings, ending ∈ lostEndings := by decide
      intro ending hmem
      exact hnone ending (hsubset ending hmem)

theorem returns_iff (h : PluralForm word result) : SingularForm result word ↔ Returns word := by
  cases h with
  | quiz stem hword hresult =>
    refine iff_of_true ?_ (.inl ⟨"quiz", by decide, stem, hword.symm⟩)
    exact .long ("quizzes", "quiz") (by decide) stem hresult hword
  | sis stem hword hresult =>
    have hsis : "sis".toList <:+ word := ⟨stem, hword.symm⟩
    refine iff_of_false (by rw [hword, hresult]; exact not_singularForm_sis) ?_
    rintro (⟨ending, hmem, hends⟩ | ⟨-, hnot⟩ | hfree)
    · have hapart : ∀ ending ∈ returningEndings, Apart ending "sis" := by decide
      exact (hapart ending hmem).not_suffix hsis hends
    · exact hnot hsis
    · exact hfree "s" (by decide) (List.IsSuffix.trans (by decide) hsis)
  | hissing ending hmem hends hquiz hresult =>
    rw [hresult, singularForm_es]
    exact returns_hissing hmem hends hquiz
  | vowel ending hmem hends hresult =>
    rw [hresult, singularForm_s]
    have hapart : ∀ other ∈ heldEndings, ∀ ending ∈ vowelEndings, Apart other ending := by decide
    have hlast : ∀ ending ∈ vowelEndings, "y".toList <:+ ending.toList := by decide
    have hy := (hlast ending hmem).trans hends
    refine iff_of_true ?_ (.inl ⟨"y", by decide, hy⟩)
    intro other hother
    exact (hapart other hother ending hmem).not_suffix hends
  | consonant stem hword hfree hresult =>
    refine iff_of_true ?_ (.inl ⟨"y", by decide, stem, hword.symm⟩)
    exact .long ("ies", "y") (by decide) stem hresult hword
  | unchanged hends hfree hresult =>
    rw [hresult, singularForm_self]
    exact returns_unchanged hends hfree
  | plain hfree hresult =>
    rw [hresult, singularForm_s]
    exact returns_plain hfree

/-! ## Words by themselves -/

theorem findIrregular?_eq_none (h : ¬ IsListed word) : findIrregular? word = none := by
  apply List.find?_eq_none.mpr
  intro row hrow hfound
  exact h (.inr ⟨row, hrow, by simpa using hfound⟩)

theorem lower_append {ending : Text} (hstem : ∀ c ∈ stem, c.isLower = true)
    (hending : ending ≠ [] ∧ ending.all Char.isLower = true) :
    stem ++ ending ≠ [] ∧ ∀ c ∈ stem ++ ending, c.isLower = true := by
  obtain ⟨hne, hall⟩ := hending
  constructor
  · exact List.append_ne_nil_of_right_ne_nil _ hne
  · intro c hc
    exact (List.mem_append.mp hc).elim (hstem c) (List.all_eq_true.mp hall c)

/-- A plural is made of the letters of the word and of those in the tables. -/
theorem pluralWord_lower (hlower : ∀ c ∈ word, c.isLower = true) :
    pluralWord word ≠ [] ∧ ∀ c ∈ pluralWord word, c.isLower = true := by
  have hplurals : ∀ row ∈ irregular, row.2 ≠ [] ∧ row.2.all Char.isLower = true := by decide
  have hendings : ∀ row ∈ pluralEndings, row.2 ≠ [] ∧ row.2.all Char.isLower = true := by decide
  unfold pluralWord
  cases hirregular : findIrregular? word with
  | some row =>
    obtain ⟨hne, hall⟩ := hplurals row (List.mem_of_find?_eq_some hirregular)
    exact ⟨hne, List.all_eq_true.mp hall⟩
  | none =>
    cases hends : inflectEnding? pluralEndings word with
    | none => exact lower_append hlower (by decide)
    | some result =>
      obtain ⟨row, hrow, stem, rfl, rfl⟩ := exists_of_inflectEnding? hends
      apply lower_append _ (hendings row hrow)
      intro c hc
      exact hlower c (List.mem_append_left _ hc)

theorem plural_of_lower (hne : word ≠ []) (hlower : ∀ c ∈ word, c.isLower = true)
    (hcount : word ∉ uncountable) : plural word = pluralWord word := by
  unfold plural
  rw [inflect_lower hne hlower, if_neg hcount]

theorem singular_of_lower (hne : word ≠ []) (hlower : ∀ c ∈ word, c.isLower = true)
    (hcount : word ∉ uncountable) : singular word = singularWord word := by
  unfold singular
  rw [inflect_lower hne hlower, if_neg hcount]

theorem singular_plural_uncountable (hne : word ≠ []) (hlower : ∀ c ∈ word, c.isLower = true)
    (hmem : word ∈ uncountable) : singular (plural word) = word := by
  rw [plural, inflect_lower hne hlower, if_pos hmem, singular, inflect_lower hne hlower,
    if_pos hmem]

/-- No word stands twice in the list of irregular ones, so the row of a singular is the row of its
plural. -/
theorem findIrregular?_of_mem : ∀ row ∈ irregular,
    findIrregular? row.1 = some row ∧ findIrregular? row.2 = some row := by decide

theorem not_mem_uncountable : ∀ row ∈ irregular,
    row.1 ∉ uncountable ∧ row.2 ∉ uncountable := by decide

theorem singular_plural_irregular {row : Text × Text} (hrow : row ∈ irregular) (hne : row.1 ≠ [])
    (hlower : ∀ c ∈ row.1, c.isLower = true) : singular (plural row.1) = row.1 := by
  obtain ⟨hone, hmany⟩ := findIrregular?_of_mem row hrow
  obtain ⟨hcount, hcount'⟩ := not_mem_uncountable row hrow
  obtain ⟨hne', hlower'⟩ := pluralWord_lower hlower
  have hplural : pluralWord row.1 = row.2 := by rw [pluralWord, hone]
  rw [hplural] at hne' hlower'
  rw [plural_of_lower hne hlower hcount, hplural, singular_of_lower hne' hlower' hcount',
    singularWord, hmany]

/-- An uncountable word and the singular of an irregular one return from their plural. A word that
stands in neither list, and whose plural does not either, returns exactly if its ending does. -/
theorem singular_plural (hne : word ≠ []) (hlower : ∀ c ∈ word, c.isLower = true) :
    ((word ∈ uncountable ∨ ∃ row ∈ irregular, row.1 = word) → singular (plural word) = word) ∧
      (¬ IsListed word → ¬ IsListed (plural word) →
        (singular (plural word) = word ↔ Returns word)) := by
  constructor
  · rintro (hmem | ⟨row, hrow, rfl⟩)
    · exact singular_plural_uncountable hne hlower hmem
    · exact singular_plural_irregular hrow hne hlower
  · intro hword hplural
    have hcount : word ∉ uncountable := fun hmem => hword (.inl hmem)
    rw [plural_of_lower hne hlower hcount] at hplural ⊢
    have hcount' : pluralWord word ∉ uncountable := fun hmem => hplural (.inl hmem)
    obtain ⟨hne', hlower'⟩ := pluralWord_lower hlower
    rw [singular_of_lower hne' hlower' hcount',
      singularWord_eq_iff (findIrregular?_eq_none hplural)]
    exact returns_iff ((pluralWord_eq_iff (findIrregular?_eq_none hword)).mp rfl)

theorem singular_plural_index :
    singular (plural "index".toList) = "index".toList ∧
      (singular (plural "menu".toList) = "menu".toList ↔ Returns "menu".toList) := by
  have hindex : "index".toList ≠ [] ∧ "index".toList.all Char.isLower = true := by decide
  have hmenu : "menu".toList ≠ [] ∧ "menu".toList.all Char.isLower = true := by decide
  exact ⟨(singular_plural hindex.1 (List.all_eq_true.mp hindex.2)).1 (by decide),
    (singular_plural hmenu.1 (List.all_eq_true.mp hmenu.2)).2 (by decide) (by decide)⟩

example : singular (plural "menu".toList) = "menus".toList := by decide

end Scaffold.Inflection
