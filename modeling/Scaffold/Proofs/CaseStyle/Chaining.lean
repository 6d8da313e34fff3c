import Scaffold.Proofs.CaseStyle.Spacing

/-!
Case styles one after the other. The words of a text are read as themselves, since the spaces that
were put in mark the same starts as the capitals that are gone; and `studly` finds the same starts
in a text, in its words, and in its words with another mark for the space. Main statements: words
read themselves (`Reads.self`), what one more character adds to the studly form (`studly_concat`),
and that every style is idempotent and `studly` and `camel` can follow the others
(`styles_chain`).
-/

namespace Scaffold.CaseStyle

variable {t w : Text} {c d : Char}

inductive Style
  | words | kebab | snake | studly | camel | title
  deriving DecidableEq, Repr

def Style.apply : Style → Text → Text
  | .words => CaseStyle.words
  | .kebab => CaseStyle.kebab
  | .snake => CaseStyle.snake
  | .studly => CaseStyle.studly
  | .camel => CaseStyle.camel
  | .title => CaseStyle.title

/-! ## Words -/

theorem Reads.self (h : Reads t w) : Reads w w := by
  induction h with
  | nil => exact .nil
  | blank _ _ ih => exact ih
  | @start t w c _ hne hc ih =>
    -- The space is dropped, but the letter behind it starts a word again.
    have hspace : Reads (w ++ [' ']) w := ih.blank rfl
    have hletter : c.toLower.isLower = true := by
      rw [Char.isLower_toLower_eq_isAlpha]
      exact isAlpha_of_startsWord hc
    have hstart : startsWord (w ++ [' ']) c.toLower = true := by
      rw [startsWord, atStart_concat, hletter]
      simp [isSeparator]
    have hread := hspace.start hne hstart
    rwa [List.append_assoc, Char.toLower_toLower_eq_toLower] at hread
  | @inner t w c h hblank hc ih =>
    have hinner : w = [] ∨ startsWord w c.toLower = false := by
      by_cases hne : w = []
      · exact .inl hne
      · right
        apply startsWord_eq_false (Char.isUpper_toLower_eq_false c)
        exact not_atStart hne h.spaced.last_not_isBlank
    have hread := ih.inner ((isBlank_toLower c).trans hblank) hinner
    rwa [Char.toLower_toLower_eq_toLower] at hread

theorem words_words (t : Text) : words (words t) = words t :=
  (reads_words t).self.words_eq

/-! ## Titles -/

theorem isSeparator_toUpper (c : Char) : isSeparator c.toUpper = isSeparator c :=
  apply_toUpper (fun _ => isSeparator_of_isAlphanum) c

theorem isSeparator_toLower (c : Char) : isSeparator c.toLower = isSeparator c :=
  apply_toLower (fun _ => isSeparator_of_isAlphanum) c

theorem capitalizeFrom_capitalizeFrom (start : Bool) (t : Text) :
    capitalizeFrom start (capitalizeFrom start t) = capitalizeFrom start t := by
  induction t generalizing start with
  | nil => rfl
  | cons c t ih =>
    cases start with
    | false => simp [capitalizeFrom, ih]
    | true => simp [capitalizeFrom, isSeparator_toUpper, ih]

theorem capitalizeWords_capitalizeWords (t : Text) :
    capitalizeWords (capitalizeWords t) = capitalizeWords t :=
  capitalizeFrom_capitalizeFrom true t

theorem words_capitalizeWords (t : Text) : words (capitalizeWords t) = words t := by
  rw [words_eq_spread, words_eq_spread, spread, capitalizeWords_capitalizeWords, spread]

theorem title_title (t : Text) : title (title t) = title t := by
  rw [title, title, words_capitalizeWords, words_words]

/-! ## Words with another mark for the space -/

/-- A mark in the place of each space. -/
def markSpaces (mark : Char) (t : Text) : Text := t.map fun c => if c = ' ' then mark else c

theorem markSpaces_eq_self (mark : Char) (h : ∀ c ∈ t, Text.isBlank c = false) :
    markSpaces mark t = t := by
  refine (List.map_congr_left fun c hc => ?_).trans (List.map_id t)
  exact if_neg (ne_space_of_not_isBlank (h c hc))

theorem Spaced.of_mem_markSpaces {mark : Char} (h : Spaced w) (hblank : Text.isBlank mark = false)
    (hupper : mark.isUpper = false) (hc : c ∈ markSpaces mark w) :
    Text.isBlank c = false ∧ c.isUpper = false := by
  obtain ⟨d, hd, rfl⟩ := List.mem_map.mp hc
  split
  · exact ⟨hblank, hupper⟩
  · next hspace =>
    refine ⟨?_, h.upper d hd⟩
    cases hdblank : Text.isBlank d with
    | false => rfl
    | true => exact absurd (h.blank d hd hdblank) hspace

theorem markSpaces_words {mark : Char} (hblank : Text.isBlank mark = false)
    (hupper : mark.isUpper = false) (t : Text) :
    markSpaces mark (words (markSpaces mark (words t))) = markSpaces mark (words t) := by
  have hspaced := (reads_words t).spaced
  have hone : Reads (markSpaces mark (words t)) (markSpaces mark (words t)) := by
    apply reads_self
    · intro c hc
      exact (hspaced.of_mem_markSpaces hblank hupper hc).1
    · intro c hc
      exact (hspaced.of_mem_markSpaces hblank hupper hc).2
  rw [hone.words_eq]
  apply markSpaces_eq_self
  intro c hc
  exact (hspaced.of_mem_markSpaces hblank hupper hc).1

/-! ## The studly form -/

/-- The characters that the studly form leaves out. -/
def isJoint (c : Char) : Bool := c == ' ' || c == '-' || c == '_'

/-- The characters behind which the studly form has a capital. -/
def isBreak (c : Char) : Bool := isSeparator c || isJoint c

def afterBreak (t : Text) : Bool := t.getLast?.all isBreak

theorem afterBreak_concat (t : Text) (c : Char) : afterBreak (t ++ [c]) = isBreak c := by
  simp [afterBreak]

theorem afterBreak_of_atStart (h : atStart t = true) : afterBreak t = true := by
  unfold atStart at h
  unfold afterBreak
  cases hlast : t.getLast? with
  | none => rfl
  | some c =>
    rw [hlast, Option.all_some] at h
    rw [Option.all_some, isBreak, h, Bool.true_or]

theorem isJoint_of_isAlphanum (hc : c.isAlphanum = true) : isJoint c = false := by
  simp only [isJoint, Bool.or_eq_false_iff, beq_eq_false_iff_ne]
  refine ⟨⟨?_, ?_⟩, ?_⟩
  · rintro rfl
    cases hc
  · rintro rfl
    cases hc
  · rintro rfl
    cases hc

theorem isBreak_of_isAlphanum (hc : c.isAlphanum = true) : isBreak c = false := by
  rw [isBreak, isSeparator_of_isAlphanum hc, isJoint_of_isAlphanum hc, Bool.or_false]

theorem isJoint_toUpper (c : Char) : isJoint c.toUpper = isJoint c :=
  apply_toUpper (fun _ => isJoint_of_isAlphanum) c

theorem isJoint_toLower (c : Char) : isJoint c.toLower = isJoint c :=
  apply_toLower (fun _ => isJoint_of_isAlphanum) c

theorem isBreak_toUpper (c : Char) : isBreak c.toUpper = isBreak c :=
  apply_toUpper (fun _ => isBreak_of_isAlphanum) c

theorem isBreak_toLower (c : Char) : isBreak c.toLower = isBreak c :=
  apply_toLower (fun _ => isBreak_of_isAlphanum) c

/-- A dash or an underscore as a space. -/
def unjoin (c : Char) : Char := if c = '-' ∨ c = '_' then ' ' else c

theorem unjoin_of_isJoint (hc : isJoint c = true) : unjoin c = ' ' := by
  simp only [isJoint, Bool.or_eq_true, beq_iff_eq] at hc
  obtain (rfl | rfl) | rfl := hc <;> rfl

theorem unjoin_of_not_isJoint (hc : isJoint c = false) : unjoin c = c ∧ c ≠ ' ' := by
  simp only [isJoint, Bool.or_eq_false_iff, beq_eq_false_iff_ne] at hc
  obtain ⟨⟨hspace, hdash⟩, hline⟩ := hc
  exact ⟨if_neg (not_or.mpr ⟨hdash, hline⟩), hspace⟩

theorem isSeparator_unjoin (c : Char) : isSeparator (unjoin c) = isBreak c := by
  cases hc : isJoint c with
  | true => rw [unjoin_of_isJoint hc, isBreak, hc, Bool.or_true]; rfl
  | false => rw [(unjoin_of_not_isJoint hc).1, isBreak, hc, Bool.or_false]

theorem studly_eq (t : Text) :
    studly t = (capitalizeWords (t.map unjoin)).filter (· != ' ') := rfl

theorem atStart_unjoin (t : Text) : atStart (t.map unjoin) = afterBreak t := by
  rw [atStart, List.getLast?_map, Option.all_map, afterBreak]
  congr 1
  funext c
  exact isSeparator_unjoin c

/-- A character behind the text, as the studly form has it. -/
def studlyChar (t : Text) (c : Char) : Char := if afterBreak t then c.toUpper else c

theorem studly_concat_joint (t : Text) (hc : isJoint c = true) : studly (t ++ [c]) = studly t := by
  rw [studly_eq, List.map_append, List.map_singleton, capitalizeWords_concat, List.filter_append,
    unjoin_of_isJoint hc, studly_eq]
  split
  · exact List.append_nil _
  · exact List.append_nil _

theorem studly_concat (t : Text) (hc : isJoint c = false) :
    studly (t ++ [c]) = studly t ++ [studlyChar t c] := by
  obtain ⟨hsame, hspace⟩ := unjoin_of_not_isJoint hc
  have hspace' := (unjoin_of_not_isJoint ((isJoint_toUpper c).trans hc)).2
  rw [studly_eq, List.map_append, List.map_singleton, capitalizeWords_concat, List.filter_append,
    hsame, atStart_unjoin, studly_eq, studlyChar]
  cases afterBreak t with
  | false => simp [hspace]
  | true => simp [hspace']

/-- The studly form ends in a break only if the text does. -/
theorem not_afterBreak_studly (h : afterBreak t = false) : afterBreak (studly t) = false := by
  rcases List.eq_nil_or_concat' t with rfl | ⟨r, c, rfl⟩
  · cases h
  · rw [afterBreak_concat] at h
    have hjoint : isJoint c = false := (Bool.or_eq_false_iff.mp h).2
    rw [studly_concat r hjoint, afterBreak_concat, studlyChar]
    split
    · rw [isBreak_toUpper, h]
    · exact h

/-- Behind the studly form of the text the character stays as it has become. -/
theorem studlyChar_studly (t : Text) (c : Char) :
    studlyChar (studly t) (studlyChar t c) = studlyChar t c := by
  unfold studlyChar
  cases hbreak : afterBreak t with
  | true => rw [if_pos rfl, Char.toUpper_toUpper_eq_toUpper, ite_self]
  | false => rw [not_afterBreak_studly hbreak, if_neg Bool.false_ne_true, if_neg Bool.false_ne_true]

theorem isJoint_studlyChar (t : Text) (c : Char) : isJoint (studlyChar t c) = isJoint c := by
  unfold studlyChar
  split
  · exact isJoint_toUpper c
  · rfl

theorem studly_studly (t : Text) : studly (studly t) = studly t := by
  induction t using List.reverseRecOn with
  | nil => rfl
  | append_singleton t c ih =>
    cases hc : isJoint c with
    | true => rw [studly_concat_joint t hc, ih]
    | false =>
      rw [studly_concat t hc, studly_concat _ ((isJoint_studlyChar t c).trans hc), ih,
        studlyChar_studly]

/-! ## The studly form of the words -/

theorem studlyChar_of_startsWord (hc : startsWord t c = true) : studlyChar t c = c.toUpper := by
  rw [startsWord, Bool.or_eq_true, Bool.and_eq_true] at hc
  unfold studlyChar
  rcases hc with hupper | ⟨-, hstart⟩
  · rw [Char.toUpper_eq_of_not_isLower (Char.not_isLower_of_isUpper hupper), ite_self]
  · rw [afterBreak_of_atStart hstart, if_pos rfl]

/-- A text of spaces only is followed by the start of a word. -/
theorem atStart_of_spaces (hspaces : OnlySpaces t) (hblank : ∀ c ∈ t, Text.isBlank c = true) :
    atStart t = true := by
  rcases List.eq_nil_or_concat' t with rfl | ⟨r, c, rfl⟩
  · rfl
  · have hc := hblank c List.mem_concat_self
    rw [atStart_concat, (onlySpaces_concat.mp hspaces).2 hc]
    rfl

/-- A text ends in a break if its words do, unless it ends in a space. -/
theorem Reads.afterBreak_eq (h : Reads t w) (hspaces : OnlySpaces t)
    (hstart : atStart t = false) : afterBreak w = afterBreak t := by
  cases h with
  | nil => cases hstart
  | @blank t _ c _ hc =>
    obtain rfl := (onlySpaces_concat.mp hspaces).2 hc
    rw [atStart_concat] at hstart
    cases hstart
  | start _ _ _ => rw [List.append_cons, afterBreak_concat, afterBreak_concat, isBreak_toLower]
  | inner _ _ _ => rw [afterBreak_concat, afterBreak_concat, isBreak_toLower]

/-- A character that starts no word is the same behind the text and behind its words. -/
theorem Reads.studlyChar_eq (h : Reads t w) (hspaces : OnlySpaces t)
    (hc : w = [] ∨ startsWord t c = false) : studlyChar w c.toLower = studlyChar t c := by
  unfold studlyChar
  rcases hc with rfl | hc
  · have hstart := atStart_of_spaces hspaces (h.eq_nil_iff.mp rfl)
    rw [afterBreak_of_atStart hstart, if_pos rfl]
    exact Char.toUpper_toLower_eq_toUpper c
  · rw [startsWord, Bool.or_eq_false_iff, Bool.and_eq_false_iff] at hc
    obtain ⟨hupper, hstart⟩ := hc
    rw [Char.toLower_eq_of_not_isUpper (by simp [hupper])]
    rcases hstart with hlower | hstart
    · rw [Char.toUpper_eq_of_not_isLower (by simp [hlower]), ite_self, ite_self]
    · rw [h.afterBreak_eq hspaces hstart]

theorem Reads.studly_eq (h : Reads t w) (hspaces : OnlySpaces t) : studly w = studly t := by
  induction h with
  | nil => rfl
  | @blank t w c _ hc ih =>
    rw [onlySpaces_concat] at hspaces
    rw [ih hspaces.1, hspaces.2 hc, studly_concat_joint t rfl]
  | @start t w c _ _ hc ih =>
    rw [onlySpaces_concat] at hspaces
    have hjoint := isJoint_of_isAlphanum (isAlphanum_of_isAlpha (isAlpha_of_startsWord hc))
    have hcapital : studlyChar (w ++ [' ']) c.toLower = c.toUpper := by
      rw [studlyChar, afterBreak_concat]
      exact Char.toUpper_toLower_eq_toUpper c
    rw [List.append_cons, studly_concat _ ((isJoint_toLower c).trans hjoint),
      studly_concat_joint w rfl, hcapital, ih hspaces.1, studly_concat t hjoint,
      studlyChar_of_startsWord hc]
  | @inner t w c h _ hc ih =>
    rw [onlySpaces_concat] at hspaces
    cases hjoint : isJoint c with
    | true =>
      rw [studly_concat_joint w ((isJoint_toLower c).trans hjoint), ih hspaces.1,
        studly_concat_joint t hjoint]
    | false =>
      rw [studly_concat w ((isJoint_toLower c).trans hjoint), ih hspaces.1,
        studly_concat t hjoint, h.studlyChar_eq hspaces.1 hc]

/-- A mark that the studly form leaves out can stand for the space. -/
theorem studly_markSpaces {mark : Char} (hmark : isJoint mark = true) (t : Text) :
    studly (markSpaces mark t) = studly t := by
  have hunjoin : (markSpaces mark t).map unjoin = t.map unjoin := by
    rw [markSpaces, List.map_map]
    apply List.map_congr_left
    intro c _
    rw [Function.comp_apply]
    split
    · next hspace => rw [hspace, unjoin_of_isJoint hmark]; rfl
    · rfl
  rw [studly_eq, hunjoin, studly_eq]

/-! ## Camel case -/

theorem capitalizeWords_uncapitalize (t : Text) :
    capitalizeWords (uncapitalize t) = capitalizeWords t := by
  cases t with
  | nil => rfl
  | cons c t =>
    simp only [uncapitalize, capitalizeWords, capitalizeFrom, if_true, isSeparator_toLower,
      Char.toUpper_toLower_eq_toUpper]

theorem unjoin_toLower (c : Char) : unjoin c.toLower = (unjoin c).toLower := by
  cases hc : isJoint c with
  | true => rw [unjoin_of_isJoint hc, unjoin_of_isJoint ((isJoint_toLower c).trans hc)]; rfl
  | false =>
    rw [(unjoin_of_not_isJoint hc).1, (unjoin_of_not_isJoint ((isJoint_toLower c).trans hc)).1]

theorem studly_uncapitalize (t : Text) : studly (uncapitalize t) = studly t := by
  have hunjoin : (uncapitalize t).map unjoin = uncapitalize (t.map unjoin) := by
    cases t with
    | nil => rfl
    | cons c t => exact congrArg (· :: t.map unjoin) (unjoin_toLower c)
  rw [studly_eq, hunjoin, capitalizeWords_uncapitalize, studly_eq]

theorem camel_camel (t : Text) : camel (camel t) = camel t := by
  rw [camel, camel, studly_uncapitalize, studly_studly]

/-! ## Chains -/

/-- Every style leaves its own results alone. For a text whose only blanks are spaces it does not
matter to the studly form and to camel case which of the lowercase styles came before. -/
theorem styles_chain :
    (∀ (style : Style) (t : Text), style.apply (style.apply t) = style.apply t) ∧
      ∀ t : Text, OnlySpaces t →
        ∀ before ∈ [Style.words, Style.kebab, Style.snake], ∀ after ∈ [Style.studly, Style.camel],
          after.apply (before.apply t) = after.apply t := by
  constructor
  · intro style t
    cases style with
    | words => exact words_words t
    | kebab => exact markSpaces_words rfl rfl t
    | snake => exact markSpaces_words rfl rfl t
    | studly => exact studly_studly t
    | camel => exact camel_camel t
    | title => exact title_title t
  · intro t hspaces before hbefore after hafter
    have hwords : studly (words t) = studly t := (reads_words t).studly_eq hspaces
    have hstudly : studly (before.apply t) = studly t := by
      simp only [List.mem_cons, List.not_mem_nil, or_false] at hbefore
      rcases hbefore with rfl | rfl | rfl
      · exact hwords
      · exact (studly_markSpaces rfl (words t)).trans hwords
      · exact (studly_markSpaces rfl (words t)).trans hwords
    simp only [List.mem_cons, List.not_mem_nil, or_false] at hafter
    rcases hafter with rfl | rfl
    · exact hstudly
    · exact congrArg uncapitalize hstudly

theorem styles_chain_dash : OnlySpaces "fooBar b-1".toList ∧
    camel (kebab "fooBar b-1".toList) = camel "fooBar b-1".toList := by
  have hall : "fooBar b-1".toList.all (fun c => !Text.isBlank c || c == ' ') = true := by decide
  have hspaces : OnlySpaces "fooBar b-1".toList := by
    intro c hc hblank
    have hspace := List.all_eq_true.mp hall c hc
    rw [hblank] at hspace
    exact eq_of_beq hspace
  have hchain := styles_chain.2 _ hspaces Style.kebab (by decide) Style.camel (by decide)
  exact ⟨hspaces, hchain⟩

end Scaffold.CaseStyle
