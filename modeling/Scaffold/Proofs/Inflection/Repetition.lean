import Scaffold.Proofs.Inflection.RoundTrip

/-!
Which plurals are plural already. The plural of a word that stands in no list ends in `s`, and a
word in `s` is its own plural unless the tables change the ending that the `s` is part of. Main
statements: which words in `s` are their own plural (`plural_eq_self_iff`), and exactly which words
are not changed any more when their plural is made plural again (`plural_plural`).
-/

namespace Scaffold.Inflection

variable {word result : Text} {ending : String}

/-- The endings in `s` that change in the plural. -/
def movedEndings : List String := ["sis", "ss", "us"]

/-- What a word in `s` has to be to be its own plural. Of the irregular singulars in `s`, only
`alias` has none of the endings. -/
def Settled (word : Text) : Prop :=
  word ≠ "alias".toList ∧ ∀ ending ∈ movedEndings, ¬ ending.toList <:+ word

instance (word : Text) : Decidable (Settled word) := inferInstanceAs (Decidable (_ ∧ _))

/-- The words whose plural is its own plural. -/
def Repeats (word : Text) : Prop :=
  ¬ "u".toList <:+ word ∧ ¬ "si".toList <:+ word ∧ word ≠ "alia".toList

instance (word : Text) : Decidable (Repeats word) := inferInstanceAs (Decidable (_ ∧ _))

/-! ## Words that are their own plural -/

theorem pluralForm_self : PluralForm word word ↔
    "s".toList <:+ word ∧ ∀ ending ∈ movedEndings, ¬ ending.toList <:+ word := by
  constructor
  · intro h
    cases h with
    | quiz _ hword hresult => simp [hword] at hresult
    | sis _ hword hresult => simp [hword] at hresult
    | hissing _ _ _ _ hresult => simp at hresult
    | vowel _ _ _ hresult => simp at hresult
    | consonant _ hword _ hresult => simp [hword] at hresult
    | unchanged hends hfree _ => exact ⟨hends, hfree⟩
    | plain _ hresult => simp at hresult
  · rintro ⟨hends, hfree⟩
    exact .unchanged hends hfree rfl

theorem plural_uncountable (hne : word ≠ []) (hlower : ∀ c ∈ word, c.isLower = true)
    (hmem : word ∈ uncountable) : plural word = word := by
  rw [plural, inflect_lower hne hlower, if_pos hmem]

/-- Both words of a row have the second one as plural. -/
theorem plural_irregular {row : Text × Text} (hrow : row ∈ irregular)
    (hword : row.1 = word ∨ row.2 = word) (hne : word ≠ [])
    (hlower : ∀ c ∈ word, c.isLower = true) : plural word = row.2 := by
  obtain ⟨hone, hmany⟩ := findIrregular?_of_mem row hrow
  obtain ⟨hcount, hcount'⟩ := not_mem_uncountable row hrow
  rcases hword with rfl | rfl
  · rw [plural_of_lower hne hlower hcount, pluralWord, hone]
  · rw [plural_of_lower hne hlower hcount', pluralWord, hmany]

/-- A word that stands in no list becomes plural by its ending. -/
theorem plural_eq_iff (hne : word ≠ []) (hlower : ∀ c ∈ word, c.isLower = true)
    (hlisted : ¬ IsListed word) : plural word = result ↔ PluralForm word result := by
  have hcount : word ∉ uncountable := fun hmem => hlisted (.inl hmem)
  rw [plural_of_lower hne hlower hcount, pluralWord_eq_iff (findIrregular?_eq_none hlisted)]

theorem ne_alias (hlisted : ¬ IsListed word) : word ≠ "alias".toList := by
  rintro rfl
  exact hlisted (by decide)

theorem plural_eq_self_iff (hne : word ≠ []) (hlower : ∀ c ∈ word, c.isLower = true)
    (hends : "s".toList <:+ word) : plural word = word ↔ Settled word := by
  by_cases hlisted : IsListed word
  · have hcounts : ∀ word ∈ uncountable, Settled word := by decide
    have hsingulars : ∀ row ∈ irregular, "s".toList <:+ row.1 →
        row.2 ≠ row.1 ∧ ¬ Settled row.1 := by decide
    have hplurals : ∀ row ∈ irregular, Settled row.2 := by decide
    rcases hlisted with hmem | ⟨row, hrow, hword⟩
    · exact iff_of_true (plural_uncountable hne hlower hmem) (hcounts word hmem)
    rw [plural_irregular hrow hword hne hlower]
    rcases hword with rfl | rfl
    · exact iff_of_false (hsingulars row hrow hends).1 (hsingulars row hrow hends).2
    · exact iff_of_true rfl (hplurals row hrow)
  · rw [plural_eq_iff hne hlower hlisted, pluralForm_self, Settled]
    exact and_congr_left fun _ => iff_of_true hends (ne_alias hlisted)

/-! ## The ending of a plural -/

theorem suffix_of_ends {text stem : Text} (hresult : result = stem ++ text)
    (hends : ending.toList <:+ text) : ending.toList <:+ result := by
  rw [hresult]
  exact hends.trans (List.suffix_append stem text)

theorem PluralForm.ends (h : PluralForm word result) : "s".toList <:+ result := by
  cases h with
  | quiz _ _ hresult => exact suffix_of_ends hresult (by decide)
  | sis _ _ hresult => exact suffix_of_ends hresult (by decide)
  | hissing _ _ _ _ hresult => exact suffix_of_ends hresult (by decide)
  | vowel _ _ _ hresult => exact suffix_of_ends hresult (by decide)
  | consonant _ _ _ hresult => exact suffix_of_ends hresult (by decide)
  | unchanged hends _ hresult => exact hresult ▸ hends
  | plain _ hresult => exact suffix_of_ends hresult (by decide)

theorem repeats_of_ends (ending : String)
    (hmem : ending ∈ ["quiz", "sis", "y", "s"] ++ hissingEndings)
    (hends : ending.toList <:+ word) : Repeats word := by
  have hapart : ∀ ending ∈ ["quiz", "sis", "y", "s"] ++ hissingEndings,
      Apart "u" ending ∧ Apart "si" ending ∧ ¬ ending.toList <:+ "alia".toList := by decide
  obtain ⟨hu, hsi, halia⟩ := hapart ending hmem
  refine ⟨hu.not_suffix hends, hsi.not_suffix hends, ?_⟩
  rintro rfl
  exact halia hends

theorem settled_of_ends (ending : String) (hmem : ending ∈ ["es", "ys"])
    (hends : ending.toList <:+ result) :
    Settled result := by
  have hapart : ∀ ending ∈ ["es", "ys"],
      ¬ ending.toList <:+ "alias".toList ∧ ∀ moved ∈ movedEndings, Apart moved ending := by decide
  obtain ⟨halias, hmoved⟩ := hapart ending hmem
  refine ⟨?_, fun moved h => (hmoved moved h).not_suffix hends⟩
  rintro rfl
  exact halias hends

/-- A bare `s` makes one of the endings that change, or the word `alias`, of exactly those words that
`Repeats` leaves out. -/
theorem settled_s (hs : ¬ "s".toList <:+ word) :
    Settled (word ++ "s".toList) ↔ Repeats word := by
  have hshort (ending : Text) : ending ++ "s".toList <:+ word ++ "s".toList ↔ ending <:+ word :=
    List.suffix_append_self_iff
  have hu : "us".toList <:+ word ++ "s".toList ↔ "u".toList <:+ word := hshort ['u']
  have hsi : "sis".toList <:+ word ++ "s".toList ↔ "si".toList <:+ word := hshort ['s', 'i']
  have hss : "ss".toList <:+ word ++ "s".toList ↔ "s".toList <:+ word := hshort ['s']
  have halia : word ++ "s".toList = "alia".toList ++ "s".toList ↔ word = "alia".toList :=
    List.append_left_inj "s".toList
  have hjoin : "alias".toList = "alia".toList ++ "s".toList := by decide
  simp only [Settled, Repeats, movedEndings, List.forall_mem_cons, hu, hsi, hss, hjoin, ne_eq,
    halia]
  constructor
  · rintro ⟨hnot, hfree_si, -, hfree_u, -⟩
    exact ⟨hfree_u, hfree_si, hnot⟩
  · rintro ⟨hfree_u, hfree_si, hnot⟩
    exact ⟨hnot, hfree_si, hs, hfree_u, nofun⟩

theorem PluralForm.settled_iff (hword : word ≠ "alias".toList) (h : PluralForm word result) :
    Settled result ↔ Repeats word := by
  -- All plurals but those with a bare `s` end in `es` or `ys`, which no row changes.
  cases h with
  | quiz stem hstem hresult =>
    exact iff_of_true (settled_of_ends "es" (by decide) (suffix_of_ends hresult (by decide)))
      (repeats_of_ends "quiz" (by decide) ⟨stem, hstem.symm⟩)
  | sis stem hstem hresult =>
    exact iff_of_true (settled_of_ends "es" (by decide) (suffix_of_ends hresult (by decide)))
      (repeats_of_ends "sis" (by decide) ⟨stem, hstem.symm⟩)
  | hissing ending hmem hends _ hresult =>
    exact iff_of_true (settled_of_ends "es" (by decide) (suffix_of_ends hresult (by decide)))
      (repeats_of_ends ending (List.mem_append_right _ hmem) hends)
  | vowel ending hmem hends hresult =>
    have hlast : ∀ ending ∈ vowelEndings, "y".toList <:+ ending.toList := by decide
    obtain ⟨stem, hstem⟩ := (hlast ending hmem).trans hends
    rw [← hstem, List.append_assoc] at hresult
    exact iff_of_true (settled_of_ends "ys" (by decide) (suffix_of_ends hresult (by decide)))
      (repeats_of_ends "y" (by decide) ⟨stem, hstem⟩)
  | consonant stem hstem _ hresult =>
    exact iff_of_true (settled_of_ends "es" (by decide) (suffix_of_ends hresult (by decide)))
      (repeats_of_ends "y" (by decide) ⟨stem, hstem.symm⟩)
  | unchanged hends hfree hresult =>
    rw [hresult]
    exact iff_of_true ⟨hword, hfree⟩ (repeats_of_ends "s" (by decide) hends)
  | plain hfree hresult =>
    rw [hresult]
    exact settled_s (hfree "s" (by decide))

/-! ## Made plural twice -/

theorem plural_plural_listed (hne : word ≠ []) (hlower : ∀ c ∈ word, c.isLower = true)
    (hlisted : IsListed word) : plural (plural word) = plural word := by
  rcases hlisted with hmem | ⟨row, hrow, hword⟩
  · rw [plural_uncountable hne hlower hmem, plural_uncountable hne hlower hmem]
  · have hplurals : ∀ row ∈ irregular, row.2 ≠ [] ∧ row.2.all Char.isLower = true := by decide
    obtain ⟨hne', hall⟩ := hplurals row hrow
    rw [plural_irregular hrow hword hne hlower,
      plural_irregular hrow (.inr rfl) hne' (List.all_eq_true.mp hall)]

theorem repeats_listed (hlisted : IsListed word) : Repeats word := by
  have hcounts : ∀ word ∈ uncountable, Repeats word := by decide
  have hrows : ∀ row ∈ irregular, Repeats row.1 ∧ Repeats row.2 := by decide
  rcases hlisted with hmem | ⟨row, hrow, rfl | rfl⟩
  · exact hcounts word hmem
  · exact (hrows row hrow).1
  · exact (hrows row hrow).2

/-- A plural that is made plural again stays as it is, unless the word ends in `u` or `si` or is
`alia`: there the plural reads as a singular, such as `menus` or `alias`. -/
theorem plural_plural (hne : word ≠ []) (hlower : ∀ c ∈ word, c.isLower = true) :
    plural (plural word) = plural word ↔ Repeats word := by
  by_cases hlisted : IsListed word
  · exact iff_of_true (plural_plural_listed hne hlower hlisted) (repeats_listed hlisted)
  · have hform : PluralForm word (plural word) := (plural_eq_iff hne hlower hlisted).mp rfl
    have hcount : word ∉ uncountable := fun hmem => hlisted (.inl hmem)
    obtain ⟨hne', hlower'⟩ := pluralWord_lower hlower
    rw [← plural_of_lower hne hlower hcount] at hne' hlower'
    rw [plural_eq_self_iff hne' hlower' hform.ends]
    exact hform.settled_iff (ne_alias hlisted)

theorem plural_plural_menu :
    ("menu".toList ≠ [] ∧ ∀ c ∈ "menu".toList, c.isLower = true) ∧
      (plural (plural "menu".toList) = plural "menu".toList ↔ Repeats "menu".toList) := by
  have hlower : ∀ c ∈ "menu".toList, c.isLower = true := List.all_eq_true.mp (by decide)
  exact ⟨⟨by decide, hlower⟩, plural_plural (by decide) hlower⟩

example : plural (plural "menu".toList) = "menuses".toList := by decide

end Scaffold.Inflection
