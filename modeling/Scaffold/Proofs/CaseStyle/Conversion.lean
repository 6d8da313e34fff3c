import Scaffold.Proofs.CaseStyle.Chaining

/-!
Case styles as ways to write a list of words. A list is written word after word in each style, the
first word and the others in two ways, and a style works on a text word by word if each of its words
is written in one of these ways. Main statements: what has to be known of one word for a conversion
of lists (`write_convert`), the conversions into words, studly form and title (`words_write`,
`studly_write`, `capitalizeWords_write`), and all conversions together (`apply_write`).
-/

namespace Scaffold.CaseStyle

variable {f : Text → Text} {t r v : Text} {vs : List Text} {c d : Char}

/-- What a word goes on with behind its first letter. -/
def isTail (c : Char) : Bool := c.isLower || c.isDigit

/-- A lowercase letter with lowercase letters and digits behind it. -/
def IsWord (v : Text) : Prop :=
  ∃ c r, v = c :: r ∧ c.isLower = true ∧ ∀ d ∈ r, isTail d = true

/-- A list of words as one text. -/
def Style.write : Style → List Text → Text
  | .words, vs => Text.join ' ' vs
  | .kebab, vs => Text.join '-' vs
  | .snake, vs => Text.join '_' vs
  | .studly, vs => (vs.map capitalize).flatten
  | .camel, vs => uncapitalize (vs.map capitalize).flatten
  | .title, vs => Text.join ' ' (vs.map capitalize)

/-- How a style writes the first word. -/
def Style.first : Style → Text → Text
  | .words, v | .kebab, v | .snake, v | .camel, v => v
  | .studly, v | .title, v => capitalize v

/-- How a style writes a word behind others. -/
def Style.next : Style → Text → Text
  | .words, v => ' ' :: v
  | .kebab, v => '-' :: v
  | .snake, v => '_' :: v
  | .studly, v | .camel, v => capitalize v
  | .title, v => ' ' :: capitalize v

/-! ## The characters of a word -/

theorem isAlphanum_of_isLower (hc : c.isLower = true) :
    c.isAlphanum = true ∧ c.toUpper.isAlphanum = true := by
  have halpha := isAlpha_of_isLower hc
  have halpha' : c.toUpper.isAlpha = true := by rw [Char.isAlpha_toUpper_eq_isAlpha, halpha]
  exact ⟨isAlphanum_of_isAlpha halpha, isAlphanum_of_isAlpha halpha'⟩

theorem toLower_of_isLower (hc : c.isLower = true) :
    c.toLower = c ∧ c.toUpper.toLower = c := by
  have hlow := Char.toLower_eq_of_not_isUpper (Char.not_isUpper_of_isLower hc)
  exact ⟨hlow, (Char.toLower_toUpper_eq_toLower c).trans hlow⟩

theorem isAlphanum_of_isTail (hd : isTail d = true) : d.isAlphanum = true := by
  rw [isTail, Bool.or_eq_true] at hd
  rcases hd with hlower | hdigit
  · exact (isAlphanum_of_isLower hlower).1
  · rw [Char.isAlphanum, hdigit, Bool.or_true]

theorem not_isUpper_of_isTail (hd : isTail d = true) : d.isUpper = false := by
  rw [isTail, Bool.or_eq_true] at hd
  rcases hd with hlower | hdigit
  · simpa using Char.not_isUpper_of_isLower hlower
  · have hrange : 48 ≤ d.toNat ∧ d.toNat ≤ 57 := Char.isDigit_iff_toNat.mp hdigit
    simp only [Char.isUpper, decide_eq_false_iff_not, UInt32.le_iff_toNat_le, ge_iff_le]
    show ¬ (65 ≤ d.toNat ∧ d.toNat ≤ 90)
    omega

theorem IsWord.not_isBlank (hv : IsWord v) : ∀ d ∈ v, Text.isBlank d = false := by
  obtain ⟨c, r, rfl, hc, hr⟩ := hv
  intro d hd
  apply isBlank_of_isAlphanum
  rcases List.mem_cons.mp hd with rfl | hmem
  · exact (isAlphanum_of_isLower hc).1
  · exact isAlphanum_of_isTail (hr d hmem)

/-! ## Word after word -/

theorem join_cons_eq (sep : Char) (v : Text) (vs : List Text) :
    Text.join sep (v :: vs) = v ++ vs.flatMap (sep :: ·) := by
  induction vs generalizing v with
  | nil => simp [Text.join]
  | cons u vs ih =>
    rw [Text.join_cons sep v (List.cons_ne_nil u vs), ih, List.flatMap_cons]
    rfl

theorem uncapitalize_capitalize_append (hv : IsWord v) (t : Text) :
    uncapitalize (capitalize v ++ t) = v ++ t := by
  obtain ⟨c, r, rfl, hc, -⟩ := hv
  rw [capitalize, List.cons_append, uncapitalize, (toLower_of_isLower hc).2]
  rfl

theorem Style.write_cons (style : Style) (hv : IsWord v) (vs : List Text) :
    style.write (v :: vs) = style.first v ++ vs.flatMap style.next := by
  have hcapitals : ((v :: vs).map capitalize).flatten = capitalize v ++ vs.flatMap capitalize := by
    rw [List.map_cons, List.flatten_cons, List.flatMap_def]
  cases style with
  | words => exact join_cons_eq ' ' v vs
  | kebab => exact join_cons_eq '-' v vs
  | snake => exact join_cons_eq '_' v vs
  | studly => exact hcapitals
  | camel =>
    rw [Style.write, hcapitals]
    exact uncapitalize_capitalize_append hv _
  | title =>
    rw [Style.write, List.map_cons, join_cons_eq, List.flatMap_map]
    rfl

theorem append_next {source target : Style}
    (hnext : ∀ t v, f t ≠ [] → IsWord v → f (t ++ source.next v) = f t ++ target.next v)
    (hne : f t ≠ []) (hvs : ∀ v ∈ vs, IsWord v) :
    f (t ++ vs.flatMap source.next) = f t ++ vs.flatMap target.next := by
  induction vs generalizing t with
  | nil => simp
  | cons v vs ih =>
    rw [List.forall_mem_cons] at hvs
    have hstep := hnext t v hne hvs.1
    have hne' : f (t ++ source.next v) ≠ [] := by
      rw [hstep]
      exact List.append_ne_nil_of_left_ne_nil hne _
    rw [List.flatMap_cons, ← List.append_assoc, ih hne' hvs.2, hstep, List.append_assoc,
      List.flatMap_cons]

theorem IsWord.first_ne_nil (hv : IsWord v) (style : Style) : style.first v ≠ [] := by
  obtain ⟨c, r, rfl, -⟩ := hv
  cases style <;> exact List.cons_ne_nil _ _

/-- What turns each word of one style into that of another does so with whole lists. As long as
nothing has been written the next word would be the first one, so the text in front of it is not to
come to nothing. -/
theorem write_convert (source target : Style)
    (hfirst : ∀ v, IsWord v → f (source.first v) = target.first v)
    (hnext : ∀ t v, f t ≠ [] → IsWord v → f (t ++ source.next v) = f t ++ target.next v)
    (hne : vs ≠ []) (hvs : ∀ v ∈ vs, IsWord v) : f (source.write vs) = target.write vs := by
  cases vs with
  | nil => exact absurd rfl hne
  | cons v vs =>
    rw [List.forall_mem_cons] at hvs
    obtain ⟨hv, hvs⟩ := hvs
    have hfirst' : f (source.first v) ≠ [] := by
      rw [hfirst v hv]
      exact hv.first_ne_nil target
    rw [source.write_cons hv, target.write_cons hv, append_next hnext hfirst' hvs, hfirst v hv]

/-! ## Within a word -/

/-- Behind a letter or a digit the function keeps the rest of a word as it is. -/
def KeepsTails (f : Text → Text) : Prop :=
  ∀ (t : Text) (c d : Char), c.isAlphanum = true → isTail d = true →
    f (t ++ [c] ++ [d]) = f (t ++ [c]) ++ [d]

theorem keepsTails_words : KeepsTails words := by
  intro t c d hc hd
  have hblank := isBlank_of_isAlphanum (isAlphanum_of_isTail hd)
  have hupper := not_isUpper_of_isTail hd
  have hstart : atStart (t ++ [c]) = false := by
    rw [atStart_concat, isSeparator_of_isAlphanum hc]
  have hread := (reads_words (t ++ [c])).inner hblank (.inr (startsWord_eq_false hupper hstart))
  rw [hread.words_eq, Char.toLower_eq_of_not_isUpper (by simp [hupper])]

theorem keepsTails_studly : KeepsTails studly := by
  intro t c d hc hd
  rw [studly_concat _ (isJoint_of_isAlphanum (isAlphanum_of_isTail hd)), studlyChar,
    afterBreak_concat, isBreak_of_isAlphanum hc, if_neg Bool.false_ne_true]

theorem keepsTails_capitalizeWords : KeepsTails capitalizeWords := by
  intro t c d hc _
  rw [capitalizeWords_concat, atStart_concat, isSeparator_of_isAlphanum hc,
    if_neg Bool.false_ne_true]

theorem KeepsTails.append_cons (hf : KeepsTails f) (t : Text) (hc : c.isAlphanum = true)
    (hr : ∀ d ∈ r, isTail d = true) : f (t ++ c :: r) = f (t ++ [c]) ++ r := by
  induction r generalizing t c with
  | nil => rw [List.append_nil]
  | cons d r ih =>
    rw [List.forall_mem_cons] at hr
    rw [List.append_cons, ih (t ++ [c]) (isAlphanum_of_isTail hr.1) hr.2, hf t c d hc hr.1,
      List.append_assoc]
    rfl

/-! ## From one word to the next -/

theorem words_single (hc : Text.isBlank c = false) : words [c] = [c.toLower] :=
  (Reads.nil.inner hc (.inl rfl)).words_eq

theorem words_first (hv : IsWord v) : words v = v ∧ words (capitalize v) = v := by
  obtain ⟨c, r, rfl, hc, hr⟩ := hv
  obtain ⟨hletter, hletter'⟩ := isAlphanum_of_isLower hc
  have hsame := keepsTails_words.append_cons [] hletter hr
  have hcapital := keepsTails_words.append_cons [] hletter' hr
  rw [List.nil_append, List.nil_append, words_single (isBlank_of_isAlphanum hletter),
    (toLower_of_isLower hc).1] at hsame
  rw [List.nil_append, List.nil_append, words_single (isBlank_of_isAlphanum hletter'),
    (toLower_of_isLower hc).2] at hcapital
  exact ⟨hsame, hcapital⟩

/-- A letter that starts a word takes the rest of the word with it. -/
theorem words_start (hne : words t ≠ []) (hc : startsWord t c = true)
    (hr : ∀ d ∈ r, isTail d = true) :
    words (t ++ c :: r) = words t ++ ' ' :: c.toLower :: r := by
  have hletter := isAlphanum_of_isAlpha (isAlpha_of_startsWord hc)
  rw [keepsTails_words.append_cons t hletter hr, ((reads_words t).start hne hc).words_eq,
    List.append_assoc]
  rfl

theorem words_space (t : Text) : words (t ++ [' ']) = words t :=
  ((reads_words t).blank rfl).words_eq

theorem words_append_capital (hne : words t ≠ []) (hv : IsWord v) :
    words (t ++ capitalize v) = words t ++ ' ' :: v := by
  obtain ⟨c, r, rfl, hc, hr⟩ := hv
  have hstart : startsWord t c.toUpper = true := by
    rw [startsWord, Char.isUpper_toUpper_eq_isAlpha, isAlpha_of_isLower hc, Bool.true_or]
  rw [capitalize, words_start hne hstart hr, (toLower_of_isLower hc).2]

theorem words_append_space (hne : words t ≠ []) (hv : IsWord v) :
    words (t ++ ' ' :: v) = words t ++ ' ' :: v := by
  obtain ⟨c, r, rfl, hc, hr⟩ := hv
  have hne' : words (t ++ [' ']) ≠ [] := by rwa [words_space]
  have hstart : startsWord (t ++ [' ']) c = true := by
    rw [startsWord, atStart_concat, hc]
    exact Bool.or_true _
  rw [List.append_cons, words_start hne' hstart hr, words_space, (toLower_of_isLower hc).1]

theorem words_append_title (hne : words t ≠ []) (hv : IsWord v) :
    words (t ++ ' ' :: capitalize v) = words t ++ ' ' :: v := by
  have hne' : words (t ++ [' ']) ≠ [] := by rwa [words_space]
  rw [List.append_cons, words_append_capital hne' hv, words_space]

/-- The styles whose words start with a capital or behind a space. -/
def readable : List Style := [.words, .studly, .camel, .title]

theorem words_write {source : Style} (hsource : source ∈ readable) (hne : vs ≠ [])
    (hvs : ∀ v ∈ vs, IsWord v) : words (source.write vs) = Style.words.write vs := by
  simp only [readable, List.mem_cons, List.not_mem_nil, or_false] at hsource
  refine write_convert source .words ?_ ?_ hne hvs
  · intro v hv
    rcases hsource with rfl | rfl | rfl | rfl
    · exact (words_first hv).1
    · exact (words_first hv).2
    · exact (words_first hv).1
    · exact (words_first hv).2
  · intro t v ht hv
    rcases hsource with rfl | rfl | rfl | rfl
    · exact words_append_space ht hv
    · exact words_append_capital ht hv
    · exact words_append_capital ht hv
    · exact words_append_title ht hv

/-! ## The studly form -/

theorem studly_append_capital (t : Text) (hv : IsWord v) :
    studly (t ++ capitalize v) = studly t ++ capitalize v := by
  obtain ⟨c, r, rfl, hc, hr⟩ := hv
  have hletter := (isAlphanum_of_isLower hc).2
  rw [capitalize, keepsTails_studly.append_cons t hletter hr,
    studly_concat t (isJoint_of_isAlphanum hletter), studlyChar, Char.toUpper_toUpper_eq_toUpper,
    ite_self, List.append_assoc]
  rfl

theorem studly_append_word (hbreak : afterBreak t = true) (hv : IsWord v) :
    studly (t ++ v) = studly t ++ capitalize v := by
  obtain ⟨c, r, rfl, hc, hr⟩ := hv
  have hletter := (isAlphanum_of_isLower hc).1
  rw [keepsTails_studly.append_cons t hletter hr,
    studly_concat t (isJoint_of_isAlphanum hletter), studlyChar, hbreak, if_pos rfl,
    List.append_assoc]
  rfl

theorem studly_append_joint (t : Text) (hc : isJoint c = true) (hv : IsWord v) :
    studly (t ++ c :: v) = studly t ++ capitalize v := by
  have hbreak : afterBreak (t ++ [c]) = true := by
    rw [afterBreak_concat, isBreak, hc, Bool.or_true]
  rw [List.append_cons, studly_append_word hbreak hv, studly_concat_joint t hc]

theorem studly_write (source : Style) (hne : vs ≠ []) (hvs : ∀ v ∈ vs, IsWord v) :
    studly (source.write vs) = Style.studly.write vs := by
  refine write_convert source .studly ?_ ?_ hne hvs
  · intro v hv
    have hsame : studly v = capitalize v := studly_append_word (t := []) rfl hv
    have hcapital : studly (capitalize v) = capitalize v := studly_append_capital [] hv
    cases source with
    | words => exact hsame
    | kebab => exact hsame
    | snake => exact hsame
    | camel => exact hsame
    | studly => exact hcapital
    | title => exact hcapital
  · intro t v _ hv
    cases source with
    | words => exact studly_append_joint t rfl hv
    | kebab => exact studly_append_joint t rfl hv
    | snake => exact studly_append_joint t rfl hv
    | camel => exact studly_append_capital t hv
    | studly => exact studly_append_capital t hv
    | title =>
      have hspace : studly (t ++ [' ']) = studly t := studly_concat_joint t rfl
      simp only [Style.next]
      rw [List.append_cons, studly_append_capital _ hv, hspace]

/-! ## Titles, and words with another mark -/

theorem capitalizeWords_append_word (hstart : atStart t = true) (hv : IsWord v) :
    capitalizeWords (t ++ v) = capitalizeWords t ++ capitalize v := by
  obtain ⟨c, r, rfl, hc, hr⟩ := hv
  rw [keepsTails_capitalizeWords.append_cons t (isAlphanum_of_isLower hc).1 hr,
    capitalizeWords_concat, hstart, if_pos rfl, List.append_assoc]
  rfl

theorem capitalizeWords_write (hne : vs ≠ []) (hvs : ∀ v ∈ vs, IsWord v) :
    capitalizeWords (Style.words.write vs) = Style.title.write vs := by
  refine write_convert .words .title ?_ ?_ hne hvs
  · intro v hv
    exact capitalizeWords_append_word (t := []) rfl hv
  · intro t v _ hv
    have hstart : atStart (t ++ [' ']) = true := atStart_concat t ' '
    have hspace : capitalizeWords (t ++ [' ']) = capitalizeWords t ++ [' '] := by
      rw [capitalizeWords_concat]
      split <;> rfl
    simp only [Style.next]
    rw [List.append_cons, capitalizeWords_append_word hstart hv, hspace, List.append_assoc]
    rfl

theorem markSpaces_write {mark : Char} {target : Style} (hfirst : target.first = id)
    (hnext : target.next = (mark :: ·)) (hne : vs ≠ []) (hvs : ∀ v ∈ vs, IsWord v) :
    markSpaces mark (Style.words.write vs) = target.write vs := by
  refine write_convert .words target ?_ ?_ hne hvs
  · intro v hv
    rw [hfirst]
    exact markSpaces_eq_self mark hv.not_isBlank
  · intro t v _ hv
    have hword := markSpaces_eq_self mark hv.not_isBlank
    unfold markSpaces at hword ⊢
    rw [hnext, List.map_append]
    simp only [Style.next, List.map_cons, if_true, hword]

/-! ## All conversions -/

/-- Each style turns a list of words that is written as words, in studly form, in camel case or as a
title into its own way to write it; `studly` and `camel` do so with every style. -/
theorem apply_write (target source : Style) (hne : vs ≠ []) (hvs : ∀ v ∈ vs, IsWord v)
    (hsource : source ∈ readable ∨
      source ∈ [Style.kebab, Style.snake] ∧ target ∈ [Style.studly, Style.camel]) :
    target.apply (source.write vs) = target.write vs := by
  have hstudly := studly_write source hne hvs
  have hwords (htarget : target ∉ [Style.studly, Style.camel]) :
      words (source.write vs) = Style.words.write vs :=
    words_write (hsource.resolve_right fun h => htarget h.2) hne hvs
  cases target with
  | words => exact hwords (by decide)
  | kebab =>
    rw [Style.apply, kebab, hwords (by decide)]
    exact markSpaces_write rfl rfl hne hvs
  | snake =>
    rw [Style.apply, snake, hwords (by decide)]
    exact markSpaces_write rfl rfl hne hvs
  | studly => exact hstudly
  | camel => exact congrArg uncapitalize hstudly
  | title =>
    rw [Style.apply, title, hwords (by decide)]
    exact capitalizeWords_write hne hvs

private def blogPost2 : List Text := ["blog".toList, "p".toList, "v2".toList]

theorem apply_write_camel : blogPost2 ≠ [] ∧ (∀ v ∈ blogPost2, IsWord v) ∧
    Style.kebab.apply (Style.camel.write blogPost2) = Style.kebab.write blogPost2 := by
  have hwords : ∀ v ∈ blogPost2, IsWord v := by
    rw [blogPost2, List.forall_mem_cons, List.forall_mem_cons, List.forall_mem_singleton]
    refine ⟨⟨'b', "log".toList, rfl, rfl, ?_⟩, ⟨'p', [], rfl, rfl, nofun⟩,
      ⟨'v', ['2'], rfl, rfl, ?_⟩⟩
    · exact List.all_eq_true.mp (by decide)
    · exact List.all_eq_true.mp (by decide)
  exact ⟨by decide, hwords, apply_write .kebab .camel (by decide) hwords (.inl (by decide))⟩

example : Style.kebab.apply "blogPV2".toList = "blog-p-v2".toList := by decide

end Scaffold.CaseStyle
