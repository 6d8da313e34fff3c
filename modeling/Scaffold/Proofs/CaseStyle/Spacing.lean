import Mathlib
import Scaffold.CaseStyle

/-!
The words of a text, read from left to right. Which characters are kept, and where a space is put,
depends on the character itself, on the one in front of it and on whether any was kept before; this
is the relation `Reads`, one case for each thing a character can do. Main statements: `words` is
that reading (`reads_iff`), it leaves lowercase words with single spaces between them
(`Reads.spaced`), and which characters come with a space in front of them (`words_spacing`).
-/

namespace Scaffold.CaseStyle

variable {t w : Text} {c d : Char}

/-! ## Letters and blanks -/

theorem isAlpha_of_isLower (hc : c.isLower = true) : c.isAlpha = true := by
  rw [Char.isAlpha, hc, Bool.or_true]

theorem isAlphanum_of_isAlpha (hc : c.isAlpha = true) : c.isAlphanum = true := by
  rw [Char.isAlphanum, hc, Bool.true_or]

theorem isBlank_of_isAlphanum (hc : c.isAlphanum = true) : Text.isBlank c = false := by
  have hrange : 65 ≤ c.toNat ∧ c.toNat ≤ 90 ∨ 97 ≤ c.toNat ∧ c.toNat ≤ 122 ∨
      48 ≤ c.toNat ∧ c.toNat ≤ 57 := by
    simpa [Char.isAlphanum, Char.isAlpha, Char.isUpper, Char.isLower, Char.isDigit, or_assoc,
      UInt32.le_iff_toNat_le] using hc
  simp only [Text.isBlank, Bool.or_eq_false_iff, Bool.and_eq_false_iff, decide_eq_false_iff_not,
    beq_eq_false_iff_ne]
  omega

theorem isBlank_of_isSeparator (hc : isSeparator c = true) : Text.isBlank c = true := by
  simp only [isSeparator, Bool.or_eq_true, beq_iff_eq] at hc
  obtain ((((rfl | rfl) | rfl) | rfl) | rfl) | rfl := hc <;> rfl

theorem isSeparator_of_not_isBlank (hc : Text.isBlank c = false) : isSeparator c = false := by
  cases hsep : isSeparator c with
  | false => rfl
  | true => rw [isBlank_of_isSeparator hsep] at hc; cases hc

theorem isSeparator_of_isAlphanum (hc : c.isAlphanum = true) : isSeparator c = false :=
  isSeparator_of_not_isBlank (isBlank_of_isAlphanum hc)

/-- What is true of no letter is true of a character in both cases or in none. -/
theorem apply_toLower {p : Char → Bool} (hp : ∀ c, c.isAlphanum = true → p c = false) (c : Char) :
    p c.toLower = p c := by
  cases hc : c.isUpper with
  | false => rw [Char.toLower_eq_of_not_isUpper (by simp [hc])]
  | true =>
    have halpha : c.isAlpha = true := by rw [Char.isAlpha, hc, Bool.true_or]
    have halpha' : c.toLower.isAlpha = true := by rw [Char.isAlpha_toLower_eq_isAlpha, halpha]
    rw [hp c (isAlphanum_of_isAlpha halpha), hp _ (isAlphanum_of_isAlpha halpha')]

theorem apply_toUpper {p : Char → Bool} (hp : ∀ c, c.isAlphanum = true → p c = false) (c : Char) :
    p c.toUpper = p c := by
  rw [← apply_toLower hp, Char.toLower_toUpper_eq_toLower, apply_toLower hp]

theorem isBlank_toLower (c : Char) : Text.isBlank c.toLower = Text.isBlank c :=
  apply_toLower (fun _ => isBlank_of_isAlphanum) c

theorem isBlank_toUpper (c : Char) : Text.isBlank c.toUpper = Text.isBlank c :=
  apply_toUpper (fun _ => isBlank_of_isAlphanum) c

/-! ## Reading a text -/

/-- Whether a letter behind the text starts a word. -/
def atStart (t : Text) : Bool := t.getLast?.all isSeparator

/-- Whether the character is the first one of a word behind the text. -/
def startsWord (t : Text) (c : Char) : Bool := c.isUpper || (c.isLower && atStart t)

/-- The words of a text, from what each of its characters adds to those of the text before it. -/
inductive Reads : Text → Text → Prop
  | nil : Reads [] []
  | blank {t w : Text} {c : Char} (h : Reads t w) (hc : Text.isBlank c = true) : Reads (t ++ [c]) w
  | start {t w : Text} {c : Char} (h : Reads t w) (hne : w ≠ []) (hc : startsWord t c = true) :
    Reads (t ++ [c]) (w ++ [' ', c.toLower])
  | inner {t w : Text} {c : Char} (h : Reads t w) (hblank : Text.isBlank c = false)
    (hc : w = [] ∨ startsWord t c = false) : Reads (t ++ [c]) (w ++ [c.toLower])

/-! ## One more character -/

theorem capitalizeFrom_concat (start : Bool) (t : Text) (c : Char) :
    capitalizeFrom start (t ++ [c]) =
      capitalizeFrom start t ++ [if t.getLast?.elim start isSeparator then c.toUpper else c] := by
  induction t generalizing start with
  | nil => rfl
  | cons d t ih =>
    rw [List.cons_append, capitalizeFrom, ih, capitalizeFrom]
    cases t with
    | nil => rfl
    | cons e t => rw [List.getLast?_cons_cons]; rfl

theorem capitalizeWords_concat (t : Text) (c : Char) :
    capitalizeWords (t ++ [c]) =
      capitalizeWords t ++ [if atStart t then c.toUpper else c] := by
  have hstart : t.getLast?.elim true isSeparator = atStart t := by
    unfold atStart
    cases t.getLast? <;> rfl
  rw [capitalizeWords, capitalizeFrom_concat, hstart, capitalizeWords]

theorem spaceCapitals_concat (t : Text) (c : Char) :
    spaceCapitals (t ++ [c]) =
      spaceCapitals t ++ if t ≠ [] ∧ c.isUpper = true then [' ', c] else [c] := by
  cases t with
  | nil => rfl
  | cons d t => simp [spaceCapitals]

/-- The words of a text without the shortcut for a single lowercase word. -/
def spread (t : Text) : Text :=
  Text.lower (spaceCapitals ((capitalizeWords t).filter (!Text.isBlank ·)))

theorem spread_eq_nil_iff : spread t = [] ↔ (capitalizeWords t).filter (!Text.isBlank ·) = [] := by
  unfold spread
  cases (capitalizeWords t).filter (!Text.isBlank ·) with
  | nil => simp [spaceCapitals, Text.lower]
  | cons c r => simp [spaceCapitals, Text.lower]

/-- Once letters at the start are capitals, the capitals are the characters that start a word. -/
theorem isUpper_ite (t : Text) (c : Char) :
    (if atStart t then c.toUpper else c).isUpper = startsWord t c := by
  unfold startsWord
  cases atStart t with
  | false => simp
  | true => simp [Char.isUpper_toUpper_eq_isAlpha, Char.isAlpha]

theorem toLower_ite (b : Bool) (c : Char) :
    (if b then c.toUpper else c).toLower = c.toLower := by
  cases b with
  | false => rfl
  | true => exact Char.toLower_toUpper_eq_toLower c

theorem isBlank_ite (b : Bool) (c : Char) :
    Text.isBlank (if b then c.toUpper else c) = Text.isBlank c := by
  cases b with
  | false => rfl
  | true => exact isBlank_toUpper c

theorem spread_concat (t : Text) (c : Char) :
    spread (t ++ [c]) = spread t ++
      if Text.isBlank c then []
      else if spread t ≠ [] ∧ startsWord t c = true then [' ', c.toLower]
      else [c.toLower] := by
  have hkept : (capitalizeWords (t ++ [c])).filter (!Text.isBlank ·) =
      (capitalizeWords t).filter (!Text.isBlank ·) ++
        if Text.isBlank c then [] else [if atStart t then c.toUpper else c] := by
    rw [capitalizeWords_concat, List.filter_append, List.filter_singleton, isBlank_ite]
    cases Text.isBlank c <;> rfl
  simp only [ne_eq, spread_eq_nil_iff]
  rw [spread, hkept, spread]
  split
  · rw [List.append_nil, List.append_nil]
  · rw [spaceCapitals_concat, isUpper_ite, Text.lower, Text.lower, List.map_append]
    split
    · simp [toLower_ite]
    · simp [toLower_ite]

/-! ## Words are what is read -/

theorem reads_spread (t : Text) : Reads t (spread t) := by
  induction t using List.reverseRecOn with
  | nil => exact .nil
  | append_singleton t c ih =>
    rw [spread_concat]
    split
    · next hblank =>
      rw [List.append_nil]
      exact .blank ih hblank
    · next hblank =>
      rw [Bool.not_eq_true] at hblank
      split
      · next hstart => exact .start ih hstart.1 hstart.2
      · next hstart =>
        refine .inner ih hblank ?_
        rwa [not_and_or, not_not, Bool.not_eq_true] at hstart

theorem isAlpha_of_startsWord (h : startsWord t c = true) : c.isAlpha = true := by
  simp only [startsWord, Bool.or_eq_true, Bool.and_eq_true] at h
  rw [Char.isAlpha, Bool.or_eq_true]
  exact h.imp_right And.left

theorem isBlank_of_startsWord (h : startsWord t c = true) : Text.isBlank c = false :=
  isBlank_of_isAlphanum (isAlphanum_of_isAlpha (isAlpha_of_startsWord h))

theorem Reads.eq_spread (h : Reads t w) : w = spread t := by
  induction h with
  | nil => rfl
  | blank _ hc ih => rw [spread_concat, if_pos hc, List.append_nil, ih]
  | start _ hne hc ih =>
    subst ih
    rw [spread_concat, if_neg (by simp [isBlank_of_startsWord hc]), if_pos ⟨hne, hc⟩]
  | inner _ hblank hc ih =>
    subst ih
    rw [spread_concat, if_neg (by simp [hblank]), if_neg ?_]
    rintro ⟨hne, hstart⟩
    rcases hc with hnil | hc
    · exact hne hnil
    · rw [hc] at hstart
      cases hstart

theorem atStart_concat (t : Text) (c : Char) : atStart (t ++ [c]) = isSeparator c := by
  simp [atStart]

theorem not_atStart (hne : t ≠ []) (hlast : ∀ c, t.getLast? = some c → Text.isBlank c = false) :
    atStart t = false := by
  have hget := List.getLast?_eq_some_getLast hne
  rw [atStart, hget, Option.all_some]
  exact isSeparator_of_not_isBlank (hlast _ hget)

theorem startsWord_eq_false (hupper : c.isUpper = false) (hstart : atStart t = false) :
    startsWord t c = false := by
  rw [startsWord, hupper, hstart, Bool.and_false, Bool.or_false]

/-- A text without blanks and capitals is one word. -/
theorem reads_self (hblank : ∀ c ∈ t, Text.isBlank c = false)
    (hupper : ∀ c ∈ t, c.isUpper = false) : Reads t t := by
  induction t using List.reverseRecOn with
  | nil => exact .nil
  | append_singleton t c ih =>
    rw [List.forall_mem_append, List.forall_mem_singleton] at hblank hupper
    have hinner : t = [] ∨ startsWord t c = false := by
      by_cases hne : t = []
      · exact .inl hne
      · right
        apply startsWord_eq_false hupper.2
        apply not_atStart hne
        intro d hd
        exact hblank.1 d (List.mem_of_getLast? hd)
    have hread := Reads.inner (ih hblank.1 hupper.1) hblank.2 hinner
    rwa [Char.toLower_eq_of_not_isUpper (by simp [hupper.2])] at hread

/-- The shortcut for a single lowercase word changes nothing. -/
theorem words_eq_spread (t : Text) : words t = spread t := by
  unfold words
  split
  · next hall =>
    rw [Bool.and_eq_true, List.all_eq_true] at hall
    have hlower := hall.2
    apply Reads.eq_spread
    apply reads_self
    · intro c hc
      apply isBlank_of_isAlphanum
      exact isAlphanum_of_isAlpha (isAlpha_of_isLower (hlower c hc))
    · intro c hc
      simpa using Char.not_isUpper_of_isLower (hlower c hc)
  · rfl

theorem reads_words (t : Text) : Reads t (words t) := by
  rw [words_eq_spread]
  exact reads_spread t

theorem Reads.words_eq (h : Reads t w) : words t = w := by
  rw [words_eq_spread, h.eq_spread]

theorem reads_iff : Reads t w ↔ words t = w := by
  constructor
  · exact Reads.words_eq
  · rintro rfl
    exact reads_words t

/-! ## The shape of the words -/

/-- The text has no blank but the space. -/
def OnlySpaces (t : Text) : Prop := ∀ c ∈ t, Text.isBlank c = true → c = ' '

theorem onlySpaces_concat : OnlySpaces (t ++ [c]) ↔
    OnlySpaces t ∧ (Text.isBlank c = true → c = ' ') := by
  rw [OnlySpaces, List.forall_mem_append, List.forall_mem_singleton]
  rfl

/-- Words without capitals and with single spaces between them. -/
structure Spaced (w : Text) : Prop where
  upper : ∀ c ∈ w, c.isUpper = false
  blank : OnlySpaces w
  head : w.head? ≠ some ' '
  last : w.getLast? ≠ some ' '
  apart : ¬ [' ', ' '] <:+: w

theorem Spaced.last_not_isBlank (h : Spaced w) :
    ∀ c, w.getLast? = some c → Text.isBlank c = false := by
  intro c hc
  cases hblank : Text.isBlank c with
  | false => rfl
  | true =>
    rw [h.blank c (List.mem_of_getLast? hc) hblank] at hc
    exact absurd hc h.last

theorem not_two_spaces (h : ¬ [' ', ' '] <:+: t) (hlast : t.getLast? ≠ some ' ' ∨ c ≠ ' ') :
    ¬ [' ', ' '] <:+: t ++ [c] := by
  rw [List.infix_concat_iff]
  rintro (⟨r, hr⟩ | hinside)
  · have hsplit : (r ++ [' ']) ++ [' '] = t ++ [c] := by rw [List.append_assoc]; exact hr
    obtain ⟨rfl, hc⟩ := List.append_inj' hsplit rfl
    rcases hlast with hlast | hne
    · exact hlast List.getLast?_concat
    · exact hne (List.singleton_inj.mp hc).symm
  · exact h hinside

/-- A kept character goes behind the words, with a space between or without. -/
theorem Spaced.append (h : Spaced w) (gap : Text) (hgap : gap = [] ∨ gap = [' '] ∧ w ≠ [])
    (hblank : Text.isBlank c = false) (hupper : c.isUpper = false) :
    Spaced (w ++ gap ++ [c]) := by
  have hspace : c ≠ ' ' := by
    rintro rfl
    cases hblank
  have hsome : some c ≠ some ' ' := by simpa using hspace
  constructor
  · rw [List.forall_mem_append, List.forall_mem_append, List.forall_mem_singleton]
    rcases hgap with rfl | ⟨rfl, -⟩
    · exact ⟨⟨h.upper, nofun⟩, hupper⟩
    · exact ⟨⟨h.upper, List.forall_mem_singleton.mpr rfl⟩, hupper⟩
  · rw [onlySpaces_concat, hblank]
    rcases hgap with rfl | ⟨rfl, -⟩
    · rw [List.append_nil]
      exact ⟨h.blank, nofun⟩
    · exact ⟨onlySpaces_concat.mpr ⟨h.blank, fun _ => rfl⟩, nofun⟩
  · cases w with
    | nil =>
      obtain rfl : gap = [] := by simpa using hgap
      exact hsome
    | cons d w => exact h.head
  · rw [List.getLast?_concat]
    exact hsome
  · apply not_two_spaces _ (.inr hspace)
    rcases hgap with rfl | ⟨rfl, -⟩
    · rw [List.append_nil]
      exact h.apart
    · exact not_two_spaces h.apart (.inl h.last)

theorem Reads.spaced (h : Reads t w) : Spaced w := by
  induction h with
  | nil => constructor <;> simp [OnlySpaces]
  | blank _ _ ih => exact ih
  | start _ hne hc ih =>
    have hblank := isBlank_of_startsWord hc
    have hspaced := ih.append [' '] (.inr ⟨rfl, hne⟩) ((isBlank_toLower _).trans hblank) (by simp)
    rwa [List.append_assoc] at hspaced
  | inner _ hblank _ ih =>
    have hspaced := ih.append [] (.inl rfl) ((isBlank_toLower _).trans hblank) (by simp)
    rwa [List.append_nil] at hspaced

/-! ## Which characters are kept, and where the spaces are -/

/-- What is kept of a text. -/
def kept (t : Text) : Text := Text.lower (t.filter (!Text.isBlank ·))

theorem kept_concat (t : Text) (c : Char) :
    kept (t ++ [c]) = kept t ++ if Text.isBlank c then [] else [c.toLower] := by
  rw [kept, List.filter_append, List.filter_singleton]
  cases Text.isBlank c with
  | false => simp [kept, Text.lower]
  | true => simp [kept]

theorem ne_space_of_not_isBlank (hc : Text.isBlank c = false) : c ≠ ' ' := by
  rintro rfl
  cases hc

theorem Reads.filter_eq (h : Reads t w) : w.filter (· != ' ') = kept t := by
  induction h with
  | nil => rfl
  | blank _ hc ih => rw [kept_concat, if_pos hc, List.append_nil, ih]
  | start _ _ hc ih =>
    have hblank := isBlank_of_startsWord hc
    rw [kept_concat, if_neg (by simp [hblank]), List.filter_append, ih]
    have hspace := ne_space_of_not_isBlank ((isBlank_toLower _).trans hblank)
    simp [hspace]
  | inner _ hblank _ ih =>
    rw [kept_concat, if_neg (by simp [hblank]), List.filter_append, ih]
    have hspace := ne_space_of_not_isBlank ((isBlank_toLower _).trans hblank)
    simp [hspace]

theorem Reads.eq_nil_iff (h : Reads t w) : w = [] ↔ ∀ c ∈ t, Text.isBlank c = true := by
  induction h with
  | nil => simp
  | blank _ hc ih => rw [ih, List.forall_mem_append, List.forall_mem_singleton, and_iff_left hc]
  | start _ _ hc _ => simp [isBlank_of_startsWord hc]
  | inner _ hblank _ _ => simp [hblank]

theorem words_concat (t : Text) (c : Char) :
    words (t ++ [c]) = words t ++
      if Text.isBlank c then []
      else if words t ≠ [] ∧ startsWord t c = true then [' ', c.toLower]
      else [c.toLower] := by
  rw [words_eq_spread (t ++ [c]), spread_concat, words_eq_spread t]

theorem words_prefix (s t : Text) : words s <+: words (s ++ t) := by
  induction t using List.reverseRecOn with
  | nil => rw [List.append_nil]
  | append_singleton t c ih =>
    rw [← List.append_assoc, words_concat]
    exact ih.trans (List.prefix_append _ _)

/-- Whether a character behind the text gets a space in front of it: if something was kept before,
and it is a capital or a lowercase letter directly behind a separator. -/
def GetsSpace (before : Text) (c : Char) : Prop :=
  (∃ d ∈ before, Text.isBlank d = false) ∧
    (c.isUpper = true ∨
      c.isLower = true ∧ ∃ d, before.getLast? = some d ∧ isSeparator d = true)

theorem getsSpace_iff (before : Text) (c : Char) :
    GetsSpace before c ↔ words before ≠ [] ∧ startsWord before c = true := by
  have hkept : words before ≠ [] ↔ ∃ d ∈ before, Text.isBlank d = false := by
    rw [ne_eq, (reads_words before).eq_nil_iff]
    simp
  rw [GetsSpace, hkept]
  apply and_congr_right
  rintro ⟨e, he, -⟩
  have hget := List.getLast?_eq_some_getLast (List.ne_nil_of_mem he)
  simp [startsWord, atStart, hget]

/-- A character that is kept stands behind what is kept of the text before it, and behind a space
exactly if it gets one. -/
theorem exists_place (before after : Text) (hc : Text.isBlank c = false) :
    ∃ left right, words (before ++ c :: after) = left ++ c.toLower :: right ∧
      left.filter (· != ' ') = kept before ∧ (left.getLast? = some ' ' ↔ GetsSpace before c) := by
  have hread := reads_words before
  obtain ⟨right, hright⟩ := words_prefix (before ++ [c]) after
  rw [List.append_assoc, List.singleton_append] at hright
  by_cases hstart : words before ≠ [] ∧ startsWord before c = true
  · refine ⟨words before ++ [' '], right, ?_, ?_, ?_⟩
    · rw [← hright, (hread.start hstart.1 hstart.2).words_eq]
      simp
    · rw [List.filter_append, hread.filter_eq]
      simp
    · rw [List.getLast?_concat, getsSpace_iff]
      exact iff_of_true rfl hstart
  · have hinner : words before = [] ∨ startsWord before c = false := by
      rwa [not_and_or, not_not, Bool.not_eq_true] at hstart
    refine ⟨words before, right, ?_, hread.filter_eq, ?_⟩
    · rw [← hright, (hread.inner hc hinner).words_eq]
      simp
    · rw [getsSpace_iff]
      exact iff_of_false hread.spaced.last hstart

/-- The words of a text are its characters without the blanks and in lowercase, with single spaces
between them. A kept character, other than the first, comes behind a space exactly if it is a
capital or a lowercase letter directly behind a separator. A single lowercase word is no
exception. -/
theorem words_spacing (t : Text) :
    (words t).filter (· != ' ') = kept t ∧ Spaced (words t) ∧
      (∀ before c after, t = before ++ c :: after → Text.isBlank c = false →
        ∃ left right, words t = left ++ c.toLower :: right ∧
          left.filter (· != ' ') = kept before ∧
          (left.getLast? = some ' ' ↔ GetsSpace before c)) ∧
      words t = Text.lower (spaceCapitals ((capitalizeWords t).filter (!Text.isBlank ·))) := by
  have hread := reads_words t
  refine ⟨hread.filter_eq, hread.spaced, ?_, words_eq_spread t⟩
  rintro before c after rfl hc
  exact exists_place before after hc

theorem words_spacing_mixed : Text.isBlank 'q' = false ∧
    ∃ left right, words "foo\u00a0barBaz\tqux".toList = left ++ 'q' :: right ∧
      left.filter (· != ' ') = kept "foo\u00a0barBaz\t".toList ∧
      (left.getLast? = some ' ' ↔ GetsSpace "foo\u00a0barBaz\t".toList 'q') := by
  obtain ⟨-, -, hplace, -⟩ := words_spacing "foo\u00a0barBaz\tqux".toList
  exact ⟨by decide, hplace "foo\u00a0barBaz\t".toList 'q' "ux".toList (by decide) (by decide)⟩

example : words "foo\u00a0barBaz\tqux".toList = "foobar baz qux".toList := by decide

end Scaffold.CaseStyle
