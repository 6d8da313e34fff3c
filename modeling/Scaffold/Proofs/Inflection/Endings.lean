import Mathlib.Data.List.Infix
import Scaffold.Inflection

/-!
The tables of endings. The first row whose ending the word has counts; but of two endings of one
word one is the end of the other, so that few rows can stand in another's way. Main statements: the
plurals (`pluralWord_eq_iff`) and the singulars (`singularWord_eq_iff`) of the words that are not in
the list of irregular ones, each described without the order of the rows.
-/

namespace Scaffold.Inflection

variable {endings : List (Text × Text)} {row : Text × Text} {guards : List String} {k : Nat}
variable {ending replacement stem word result : Text}

theorem stripEnding?_eq_some_iff :
    stripEnding? ending word = some stem ↔ word = stem ++ ending := by
  constructor
  · intro h
    unfold stripEnding? at h
    split at h
    · rename_i hends
      obtain ⟨start, rfl⟩ := List.isSuffixOf_iff_suffix.mp hends
      rw [List.length_append, Nat.add_sub_cancel, List.take_left] at h
      rw [Option.some.inj h]
    · cases h
  · rintro rfl
    have hends := List.isSuffixOf_iff_suffix.mpr (List.suffix_append stem ending)
    rw [stripEnding?, if_pos hends, List.length_append, Nat.add_sub_cancel, List.take_left]

theorem stripEnding?_eq_none (h : ¬ ending <:+ word) : stripEnding? ending word = none := by
  rw [stripEnding?, if_neg (mt List.isSuffixOf_iff_suffix.mp h)]

theorem inflectEnding?_eq_none (h : ∀ row ∈ endings, ¬ row.1 <:+ word) :
    inflectEnding? endings word = none := by
  unfold inflectEnding?
  apply List.findSome?_eq_none_iff.mpr
  intro row hrow
  rw [stripEnding?_eq_none (h row hrow)]
  rfl

theorem inflectEnding?_eq_some (hrow : endings[k]? = some row)
    (hfirst : ∀ earlier ∈ endings.take k, ¬ earlier.1 <:+ stem ++ row.1) :
    inflectEnding? endings (stem ++ row.1) = some (stem ++ row.2) := by
  induction endings generalizing k with
  | nil => cases hrow
  | cons first endings ih =>
    cases k with
    | zero =>
      obtain rfl := Option.some.inj hrow
      rw [inflectEnding?, List.findSome?_cons, stripEnding?_eq_some_iff.mpr rfl]
      rfl
    | succ k =>
      rw [List.take_succ_cons] at hfirst
      have hskip := stripEnding?_eq_none (hfirst first (List.mem_cons_self ..))
      rw [inflectEnding?, List.findSome?_cons, hskip]
      apply ih hrow
      intro earlier hearlier
      exact hfirst earlier (List.mem_cons_of_mem _ hearlier)

theorem exists_of_inflectEnding? (h : inflectEnding? endings word = some result) :
    ∃ row ∈ endings, ∃ stem, word = stem ++ row.1 ∧ result = stem ++ row.2 := by
  obtain ⟨row, hrow, hput⟩ := List.exists_of_findSome?_eq_some h
  obtain ⟨stem, hstem, rfl⟩ := Option.map_eq_some_iff.mp hput
  exact ⟨row, hrow, stem, stripEnding?_eq_some_iff.mp hstem, rfl⟩

/-- Two endings that no word can have both. -/
def Apart (a b : String) : Prop := ¬ (a.toList <:+ b.toList ∨ b.toList <:+ a.toList)

instance (a b : String) : Decidable (Apart a b) := inferInstanceAs (Decidable (¬ _))

theorem Apart.not_suffix {a b : String} (h : Apart a b) (hends : b.toList <:+ word) :
    ¬ a.toList <:+ word := by
  intro hother
  exact h (List.suffix_or_suffix_of_suffix hother hends)

/-- The table has the row, and of the rows before it only those with one of the guards as ending
can have an ending in common with it. -/
def HasRow (endings : List (Text × Text)) (guards : List String) (ending replacement : Text) :
    Prop :=
  ∃ k < endings.length, endings[k]? = some (ending, replacement) ∧
    ∀ earlier ∈ endings.take k, earlier.1 <:+ ending ∨ ending <:+ earlier.1 →
      earlier.1 ∈ guards.map String.toList

instance (endings : List (Text × Text)) (guards : List String) (ending replacement : Text) :
    Decidable (HasRow endings guards ending replacement) :=
  inferInstanceAs (Decidable (∃ k < endings.length, _))

theorem HasRow.inflectEnding? (h : HasRow endings guards ending replacement)
    (hfree : ∀ guard ∈ guards, ¬ guard.toList <:+ word)
    (hword : word = stem ++ ending) (hresult : result = stem ++ replacement) :
    inflectEnding? endings word = some result := by
  obtain ⟨k, -, hrow, hguards⟩ := h
  subst hword hresult
  apply inflectEnding?_eq_some hrow
  intro earlier hearlier hfits
  have hcommon := List.suffix_or_suffix_of_suffix hfits (List.suffix_append stem ending)
  obtain ⟨guard, hguard, heq⟩ := List.mem_map.mp (hguards earlier hearlier hcommon)
  exact hfree guard hguard (heq ▸ hfits)

/-! ## Plurals -/

/-- The endings that take `es`. -/
def hissingEndings : List String := ["ch", "sh", "ss", "x", "z", "us"]

/-- The endings in `y` that keep it. -/
def vowelEndings : List String := ["ay", "ey", "oy", "uy"]

/-- A word with none of these takes `s`. -/
def changedEndings : List String := ["s", "x", "z", "y", "ch", "sh"]

/-- The plural of a word by its ending. -/
inductive PluralForm (word result : Text) : Prop
  | quiz (stem : Text) (hword : word = stem ++ "quiz".toList)
    (hresult : result = stem ++ "quizzes".toList)
  | sis (stem : Text) (hword : word = stem ++ "sis".toList)
    (hresult : result = stem ++ "ses".toList)
  | hissing (ending : String) (hmem : ending ∈ hissingEndings)
    (hends : ending.toList <:+ word) (hquiz : ¬ "quiz".toList <:+ word)
    (hresult : result = word ++ "es".toList)
  | vowel (ending : String) (hmem : ending ∈ vowelEndings)
    (hends : ending.toList <:+ word) (hresult : result = word ++ "s".toList)
  | consonant (stem : Text) (hword : word = stem ++ "y".toList)
    (hfree : ∀ ending ∈ vowelEndings, ¬ ending.toList <:+ word)
    (hresult : result = stem ++ "ies".toList)
  | unchanged (hends : "s".toList <:+ word)
    (hfree : ∀ ending ∈ ["sis", "ss", "us"], ¬ ending.toList <:+ word) (hresult : result = word)
  | plain (hfree : ∀ ending ∈ changedEndings, ¬ ending.toList <:+ word)
    (hresult : result = word ++ "s".toList)

theorem exists_pluralForm (word : Text) : ∃ result, PluralForm word result := by
  by_cases hquiz : "quiz".toList <:+ word
  · obtain ⟨stem, hstem⟩ := hquiz
    exact ⟨_, .quiz stem hstem.symm rfl⟩
  by_cases hsis : "sis".toList <:+ word
  · obtain ⟨stem, hstem⟩ := hsis
    exact ⟨_, .sis stem hstem.symm rfl⟩
  by_cases hhissing : ∃ ending ∈ hissingEndings, ending.toList <:+ word
  · obtain ⟨ending, hmem, hends⟩ := hhissing
    exact ⟨_, .hissing ending hmem hends hquiz rfl⟩
  by_cases hvowel : ∃ ending ∈ vowelEndings, ending.toList <:+ word
  · obtain ⟨ending, hmem, hends⟩ := hvowel
    exact ⟨_, .vowel ending hmem hends rfl⟩
  by_cases hy : "y".toList <:+ word
  · obtain ⟨stem, hstem⟩ := hy
    refine ⟨_, .consonant stem hstem.symm (fun ending hmem hends => ?_) rfl⟩
    exact hvowel ⟨ending, hmem, hends⟩
  by_cases hs : "s".toList <:+ word
  · have hcases : ∀ ending ∈ ["sis", "ss", "us"],
        ending = "sis" ∨ ending ∈ hissingEndings := by decide
    refine ⟨_, .unchanged hs (fun ending hmem hends => ?_) rfl⟩
    rcases hcases ending hmem with rfl | hmem
    · exact hsis hends
    · exact hhissing ⟨ending, hmem, hends⟩
  have hcases : ∀ ending ∈ changedEndings,
      ending = "s" ∨ ending = "y" ∨ ending ∈ hissingEndings := by decide
  refine ⟨_, .plain (fun ending hmem hends => ?_) rfl⟩
  rcases hcases ending hmem with rfl | rfl | hmem
  · exact hs hends
  · exact hy hends
  · exact hhissing ⟨ending, hmem, hends⟩

theorem PluralForm.pluralWord_eq (hirregular : findIrregular? word = none)
    (h : PluralForm word result) : pluralWord word = result := by
  rw [pluralWord, hirregular]
  simp only
  cases h with
  | quiz stem hword hresult =>
    have hrow : HasRow pluralEndings [] "quiz".toList "quizzes".toList := by decide
    rw [hrow.inflectEnding? nofun hword hresult, Option.getD_some]
  | sis stem hword hresult =>
    have hrow : HasRow pluralEndings [] "sis".toList "ses".toList := by decide
    rw [hrow.inflectEnding? nofun hword hresult, Option.getD_some]
  | hissing ending hmem hends hquiz hresult =>
    have hrows : ∀ ending ∈ hissingEndings, HasRow pluralEndings ["quiz"]
        ending.toList (ending.toList ++ "es".toList) := by decide
    obtain ⟨stem, hstem⟩ := hends
    rw [← hstem, List.append_assoc] at hresult
    rw [(hrows ending hmem).inflectEnding? (by simpa using hquiz) hstem.symm hresult,
      Option.getD_some]
  | vowel ending hmem hends hresult =>
    have hrows : ∀ ending ∈ vowelEndings, HasRow pluralEndings []
        ending.toList (ending.toList ++ "s".toList) := by decide
    obtain ⟨stem, hstem⟩ := hends
    rw [← hstem, List.append_assoc] at hresult
    rw [(hrows ending hmem).inflectEnding? nofun hstem.symm hresult, Option.getD_some]
  | consonant stem hword hfree hresult =>
    have hrow : HasRow pluralEndings vowelEndings "y".toList "ies".toList := by decide
    rw [hrow.inflectEnding? hfree hword hresult, Option.getD_some]
  | unchanged hends hfree hresult =>
    have hrow : HasRow pluralEndings ["sis", "ss", "us"] "s".toList "s".toList := by decide
    obtain ⟨stem, hstem⟩ := hends
    rw [hrow.inflectEnding? hfree hstem.symm (hresult.trans hstem.symm), Option.getD_some]
  | plain hfree hresult =>
    have hends : ∀ row ∈ pluralEndings,
        ∃ ending ∈ changedEndings, ending.toList <:+ row.1 := by decide
    have hnone : inflectEnding? pluralEndings word = none := by
      apply inflectEnding?_eq_none
      intro row hrow hfits
      obtain ⟨ending, hmem, hending⟩ := hends row hrow
      exact hfree ending hmem (hending.trans hfits)
    rw [hnone, hresult]
    rfl

theorem pluralWord_eq_iff (h : findIrregular? word = none) :
    pluralWord word = result ↔ PluralForm word result := by
  constructor
  · rintro rfl
    obtain ⟨result, hresult⟩ := exists_pluralForm word
    rwa [hresult.pluralWord_eq h]
  · exact PluralForm.pluralWord_eq h

/-! ## Singulars -/

/-- The endings that lose more than the last letter, each with what comes of it. -/
def longEndings : List (String × String) :=
  [("quizzes", "quiz"), ("sses", "ss"), ("xes", "x"), ("ches", "ch"), ("shes", "sh"), ("ies", "y")]

/-- The endings in `s` that are singular already. -/
def keptEndings : List String := ["ss", "us", "is"]

/-- The singular of a word by its ending. -/
inductive SingularForm (word result : Text) : Prop
  | long (row : String × String) (hmem : row ∈ longEndings) (stem : Text)
    (hword : word = stem ++ row.1.toList) (hresult : result = stem ++ row.2.toList)
  | kept (hkept : (∃ ending ∈ keptEndings, ending.toList <:+ word) ∨ ¬ "s".toList <:+ word)
    (hresult : result = word)
  | bare (hfree : ∀ ending ∈ longEndings.map Prod.fst ++ keptEndings,
      ¬ ending.toList <:+ word)
    (hword : word = result ++ "s".toList)

theorem exists_singularForm (word : Text) : ∃ result, SingularForm word result := by
  by_cases hlong : ∃ row ∈ longEndings, row.1.toList <:+ word
  · obtain ⟨row, hmem, stem, hstem⟩ := hlong
    exact ⟨_, .long row hmem stem hstem.symm rfl⟩
  by_cases hkept : (∃ ending ∈ keptEndings, ending.toList <:+ word) ∨
      ¬ "s".toList <:+ word
  · exact ⟨_, .kept hkept rfl⟩
  rw [not_or, not_not] at hkept
  obtain ⟨hfree, stem, hstem⟩ := hkept
  have hcases : ∀ ending ∈ longEndings.map Prod.fst ++ keptEndings,
      (∃ row ∈ longEndings, row.1 = ending) ∨ ending ∈ keptEndings := by decide
  refine ⟨stem, .bare (fun ending hmem hends => ?_) hstem.symm⟩
  rcases hcases ending hmem with ⟨row, hrow, rfl⟩ | hmem
  · exact hlong ⟨row, hrow, hends⟩
  · exact hfree ⟨ending, hmem, hends⟩

theorem SingularForm.singularWord_eq (hirregular : findIrregular? word = none)
    (h : SingularForm word result) : singularWord word = result := by
  rw [singularWord, hirregular]
  simp only [List.isSuffixOf_iff_suffix]
  cases h with
  | long row hmem stem hword hresult =>
    have hrows : ∀ row ∈ longEndings,
        HasRow singularEndings [] row.1.toList row.2.toList ∧ Apart "sis" row.1 := by decide
    obtain ⟨hrow, hapart⟩ := hrows row hmem
    have hsis : ¬ ['s', 'i', 's'] <:+ word := hapart.not_suffix ⟨stem, hword.symm⟩
    rw [if_neg hsis, hrow.inflectEnding? nofun hword hresult, Option.getD_some]
  | kept hkept hresult =>
    have hrows : ∀ ending ∈ keptEndings,
        HasRow singularEndings [] ending.toList ending.toList := by decide
    have hends : ∀ row ∈ singularEndings, "s".toList <:+ row.1 := by decide
    have hrest : (inflectEnding? singularEndings word).getD word = word := by
      rcases hkept with ⟨ending, hmem, stem, hstem⟩ | hs
      · rw [(hrows ending hmem).inflectEnding? nofun hstem.symm hstem.symm, Option.getD_some]
      · rw [inflectEnding?_eq_none fun row hrow hfits => hs ((hends row hrow).trans hfits)]
        rfl
    rw [hrest, ite_self, hresult]
  | bare hfree hword =>
    have hrow : HasRow singularEndings (longEndings.map Prod.fst ++ keptEndings)
        "s".toList [] := by decide
    have hsis : ¬ ['s', 'i', 's'] <:+ word := by
      intro hfits
      exact hfree "is" (by decide) (List.IsSuffix.trans (by decide) hfits)
    rw [if_neg hsis, hrow.inflectEnding? hfree hword (List.append_nil result).symm,
      Option.getD_some]

theorem singularWord_eq_iff (h : findIrregular? word = none) :
    singularWord word = result ↔ SingularForm word result := by
  constructor
  · rintro rfl
    obtain ⟨result, hresult⟩ := exists_singularForm word
    rwa [hresult.singularWord_eq h]
  · exact SingularForm.singularWord_eq h

end Scaffold.Inflection
