import Scaffold.Insertion

/-!
Insertion puts the lines of the content as one block into a gap between the lines there are, and
takes none away. Main statements: what an insertion at a gap does to the lines (`lines_insertAt`),
and which gap each position stands for (`lines_insert`).
-/

namespace Scaffold

namespace Text

theorem split_append_cons (sep : Char) (a b : Text) :
    split sep (a ++ sep :: b) = split sep a ++ split sep b := by
  induction a with
  | nil =>
    rw [List.nil_append, split.eq_2, if_pos rfl]
    rfl
  | cons c a ih =>
    rw [List.cons_append, split.eq_2, split.eq_2]
    by_cases hc : c = sep
    · rw [if_pos hc, if_pos hc, ih]
      rfl
    · rw [if_neg hc, if_neg hc, ih]
      cases hsplit : split sep a with
      | nil => exact absurd hsplit (split_ne_nil sep a)
      | cons piece pieces => rfl

theorem split_join (sep : Char) {pieces : List Text} (h : pieces ≠ []) :
    split sep (join sep pieces) = pieces.flatMap (split sep) := by
  induction pieces with
  | nil => exact absurd rfl h
  | cons piece pieces ih =>
    cases pieces with
    | nil => rw [join, List.flatMap_singleton]
    | cons next pieces =>
      rw [join_cons sep piece (List.cons_ne_nil next pieces), split_append_cons,
        ih (List.cons_ne_nil next pieces), List.flatMap_cons (x := piece)]

theorem split_of_not_mem {sep : Char} {t : Text} (h : sep ∉ t) : split sep t = [t] := by
  induction t with
  | nil => rfl
  | cons c t ih =>
    have hc : c ≠ sep := by
      intro heq
      exact h (heq ▸ List.mem_cons_self ..)
    rw [split, if_neg hc, ih fun hmem => h (List.mem_cons_of_mem _ hmem)]

theorem not_mem_of_mem_split {sep : Char} {piece t : Text} (h : piece ∈ split sep t) :
    sep ∉ piece := by
  induction t generalizing piece with
  | nil =>
    rw [List.mem_singleton.mp h]
    exact List.not_mem_nil
  | cons c t ih =>
    rw [split] at h
    split at h
    · rcases List.mem_cons.mp h with rfl | h
      · exact List.not_mem_nil
      · exact ih h
    · next hc =>
      obtain ⟨first, pieces, hsplit⟩ := List.exists_cons_of_ne_nil (split_ne_nil sep t)
      rw [hsplit] at h ih
      rcases List.mem_cons.mp h with rfl | h
      · intro hmem
        rcases List.mem_cons.mp hmem with heq | hmem
        · exact hc heq.symm
        · exact ih (List.mem_cons_self ..) hmem
      · exact ih (List.mem_cons_of_mem _ h)

theorem contains_iff {part t : Text} : contains part t = true ↔ part <:+: t := by
  induction t with
  | nil => simp [contains]
  | cons c t ih =>
    rw [contains, Bool.or_eq_true, List.isPrefixOf_iff_prefix, ih, List.infix_cons_iff]

end Text

namespace Position

variable {keyword t content existing : Text} {ls : List Text} {gap : Nat} {position : Position}

/-- A line is a single line. -/
theorem flatMap_lines_of_subset (h : ∀ l ∈ ls, l ∈ lines t) : ls.flatMap lines = ls := by
  induction ls with
  | nil => rfl
  | cons l ls ih =>
    have hl : lines l = [l] :=
      Text.split_of_not_mem (Text.not_mem_of_mem_split (h l (List.mem_cons_self ..)))
    rw [List.flatMap_cons, hl, ih fun l hl => h l (List.mem_cons_of_mem _ hl)]
    rfl

theorem lines_insertAt (gap : Nat) (content existing : Text) :
    lines (insertAt gap content existing) =
      (lines existing).take gap ++ lines content ++ (lines existing).drop gap := by
  have habove : ((lines existing).take gap).flatMap lines = (lines existing).take gap :=
    flatMap_lines_of_subset fun _ => List.mem_of_mem_take
  have hbelow : ((lines existing).drop gap).flatMap lines = (lines existing).drop gap :=
    flatMap_lines_of_subset fun _ => List.mem_of_mem_drop
  have hne : (lines existing).take gap ++ content :: (lines existing).drop gap ≠ [] := by
    intro h
    have hnil := (List.append_eq_nil_iff.mp h).2
    cases hnil
  rw [insertAt, unlines, lines, Text.split_join '\n' hne, List.flatMap_append, List.flatMap_cons,
    ← List.append_assoc]
  change (_ : List Text).flatMap lines ++ lines content ++ (_ : List Text).flatMap lines = _
  rw [habove, hbelow]

theorem lines_insert_atEnd (content existing : Text) :
    lines (atEnd.insert (some existing) content) = lines existing ++ lines content := by
  rw [insert, Option.getD_some, lines, Text.split_append_cons]
  rfl

/-! ## The gap of a position -/

/-- Line `i`, counted from 0, is the first one that contains the keyword. -/
structure FirstAt (keyword : Text) (ls : List Text) (i : Nat) : Prop where
  has : ∃ line, ls[i]? = some line ∧ keyword <:+: line
  free_above : ∀ j < i, ∀ line, ls[j]? = some line → ¬ keyword <:+: line

/-- The gap between the lines where new ones go, numbered by how many lines stand above it. A line
number below 1 has none. -/
def IsGap (position : Position) (ls : List Text) (gap : Nat) : Prop :=
  match position with
  | .atEnd => gap = ls.length
  | .before keyword => FirstAt keyword ls gap ∨ (∀ line ∈ ls, ¬ keyword <:+: line) ∧ gap = 0
  | .after keyword =>
    (∃ i, FirstAt keyword ls i ∧ gap = i + 1) ∨ (∀ line ∈ ls, ¬ keyword <:+: line) ∧ gap = 0
  | .line number => (gap : Int) = min (number - 1) ls.length

/-- The number of the first line with the keyword, counted from 1; 0 if there is none. -/
def firstLine (keyword : Text) (ls : List Text) : Nat :=
  ((linesBefore? keyword ls).map (· + 1)).getD 0

/-- Which line the first of the new ones becomes, counted from 1. A position that replaces the text
or goes behind it has no number. -/
def lineNumber? : Position → List Text → Option Nat
  | .atEnd, _ => none
  | .before keyword, ls => some (max (firstLine keyword ls) 1)
  | .after keyword, ls => some (firstLine keyword ls + 1)
  | .line number, _ => if number < 1 then none else some number.toNat

theorem linesBefore?_eq_some {i : Nat} :
    linesBefore? keyword ls = some i ↔ FirstAt keyword ls i := by
  rw [linesBefore?, List.findIdx?_eq_some_iff_getElem]
  constructor
  · rintro ⟨hlt, hline, habove⟩
    have hget : ls[i]? = some ls[i] := List.getElem?_eq_getElem hlt
    refine ⟨⟨ls[i], hget, Text.contains_iff.mp hline⟩, ?_⟩
    intro j hj line hget hinfix
    obtain ⟨hjlt, rfl⟩ := List.getElem?_eq_some_iff.mp hget
    exact habove j hj (Text.contains_iff.mpr hinfix)
  · rintro ⟨⟨line, hget, hinfix⟩, hfree⟩
    obtain ⟨hlt, rfl⟩ := List.getElem?_eq_some_iff.mp hget
    refine ⟨hlt, Text.contains_iff.mpr hinfix, ?_⟩
    intro j hj hhas
    exact hfree j hj _ (List.getElem?_eq_getElem (by omega)) (Text.contains_iff.mp hhas)

theorem linesBefore?_eq_none :
    linesBefore? keyword ls = none ↔ ∀ line ∈ ls, ¬ keyword <:+: line := by
  simp only [linesBefore?, List.findIdx?_eq_none_iff, ← Text.contains_iff, Bool.not_eq_true]

theorem isGap_before :
    IsGap (.before keyword) ls gap ↔ gap = (linesBefore? keyword ls).getD 0 := by
  rw [IsGap, ← linesBefore?_eq_some, ← linesBefore?_eq_none]
  cases linesBefore? keyword ls <;> simp [eq_comm]

theorem isGap_after :
    IsGap (.after keyword) ls gap ↔ gap = firstLine keyword ls := by
  simp only [IsGap, firstLine, ← linesBefore?_eq_some, ← linesBefore?_eq_none]
  cases linesBefore? keyword ls <;> simp

theorem isGap_line {number : Int} (h : 1 ≤ number) :
    IsGap (.line number) ls gap ↔ gap = min (number - 1).toNat ls.length := by
  rw [IsGap]
  omega

theorem linesBefore?_lt {i : Nat} (h : linesBefore? keyword ls = some i) : i < ls.length :=
  (List.findIdx?_eq_some_iff_getElem.mp h).1

theorem firstLine_le (keyword : Text) (ls : List Text) : firstLine keyword ls ≤ ls.length := by
  rw [firstLine]
  cases hfound : linesBefore? keyword ls with
  | none => exact Nat.zero_le _
  | some i => exact linesBefore?_lt hfound

/-- Above the first line is where a missing keyword puts the new ones, as if it stood there. -/
theorem linesBefore?_getD (keyword : Text) (ls : List Text) :
    (linesBefore? keyword ls).getD 0 = max (firstLine keyword ls) 1 - 1 := by
  rw [firstLine]
  cases linesBefore? keyword ls <;> simp

theorem IsGap.le_length (h : IsGap position ls gap) : gap ≤ ls.length := by
  cases position with
  | atEnd => exact Nat.le_of_eq h
  | before keyword =>
    have hle := firstLine_le keyword ls
    rw [isGap_before.mp h, linesBefore?_getD]
    omega
  | after keyword =>
    rw [isGap_after.mp h]
    exact firstLine_le keyword ls
  | line number =>
    rw [IsGap] at h
    omega

theorem IsGap.of_lineNumber? {number : Nat} (hgap : IsGap position ls gap)
    (hnumber : lineNumber? position ls = some number) :
    1 ≤ number ∧ gap = min (number - 1) ls.length := by
  have hle := hgap.le_length
  cases position with
  | atEnd => cases hnumber
  | before keyword =>
    rw [isGap_before, linesBefore?_getD] at hgap
    obtain rfl := Option.some.inj hnumber
    omega
  | after keyword =>
    rw [isGap_after] at hgap
    obtain rfl := Option.some.inj hnumber
    omega
  | line number =>
    rw [IsGap] at hgap
    rw [lineNumber?] at hnumber
    split at hnumber
    · cases hnumber
    · obtain rfl := Option.some.inj hnumber
      omega

theorem lines_insert_of_isGap (h : IsGap position (lines existing) gap) :
    lines (position.insert (some existing) content) =
      (lines existing).take gap ++ lines content ++ (lines existing).drop gap := by
  cases position with
  | atEnd => rw [lines_insert_atEnd, h, List.take_length, List.drop_length, List.append_nil]
  | before keyword =>
    rw [isGap_before.mp h]
    exact lines_insertAt _ content existing
  | after keyword =>
    rw [isGap_after.mp h]
    exact lines_insertAt _ content existing
  | line number =>
    have hnumber : 1 ≤ number := by
      rw [IsGap] at h
      omega
    rw [insert, if_neg (by omega), lines_insertAt, (isGap_line hnumber).mp h,
      List.take_eq_take_min, List.drop_eq_drop_min]

theorem exists_isGap (h : ∀ number, position = .line number → 1 ≤ number) (ls : List Text) :
    ∃ gap, ∀ other, IsGap position ls other ↔ other = gap := by
  cases position with
  | atEnd => exact ⟨_, fun other => Iff.rfl⟩
  | before keyword => exact ⟨_, fun other => isGap_before⟩
  | after keyword => exact ⟨_, fun other => isGap_after⟩
  | line number => exact ⟨_, fun other => isGap_line (h number rfl)⟩

theorem lines_sublist_insert (h : ∀ number, position = .line number → 1 ≤ number)
    (content existing : Text) :
    (lines existing).Sublist (lines (position.insert (some existing) content)) := by
  obtain ⟨gap, hunique⟩ := exists_isGap h (lines existing)
  rw [lines_insert_of_isGap ((hunique gap).mpr rfl)]
  conv => lhs; rw [← List.take_append_drop gap (lines existing)]
  exact (List.sublist_append_left _ _).append (List.Sublist.refl _)

/-- Every position but a line number below 1 stands for exactly one gap. The lines of the content
come into it as one block, and the lines above and below stay as they are. Where the place goes by
the number of a line, that number is at least 1, and the gap is the one above the line, or the last
one if there are fewer lines. -/
theorem lines_insert (h : ∀ number, position = .line number → 1 ≤ number)
    (content existing : Text) :
    ∃ gap, (∀ other, IsGap position (lines existing) other ↔ other = gap) ∧
      gap ≤ (lines existing).length ∧
      lines (position.insert (some existing) content) =
        (lines existing).take gap ++ lines content ++ (lines existing).drop gap ∧
      ∀ number, lineNumber? position (lines existing) = some number →
        1 ≤ number ∧ gap = min (number - 1) (lines existing).length := by
  obtain ⟨gap, hunique⟩ := exists_isGap h (lines existing)
  have hgap : IsGap position (lines existing) gap := (hunique gap).mpr rfl
  exact ⟨gap, hunique, hgap.le_length, lines_insert_of_isGap hgap, fun _ => hgap.of_lineNumber?⟩

private def twoLines : Text := "a\nb".toList

private def pastTheEnd : Position := .line 9223372036854775807

theorem lines_insert_pastTheEnd :
    (∀ number, pastTheEnd = .line number → 1 ≤ number) ∧
      ∃ gap, (∀ other, IsGap pastTheEnd (lines twoLines) other ↔ other = gap) ∧
        gap ≤ (lines twoLines).length ∧
        lines (pastTheEnd.insert (some twoLines) "x\ny".toList) =
          (lines twoLines).take gap ++ lines "x\ny".toList ++ (lines twoLines).drop gap ∧
        ∀ number, lineNumber? pastTheEnd (lines twoLines) = some number →
          1 ≤ number ∧ gap = min (number - 1) (lines twoLines).length := by
  have hnumber : ∀ number, pastTheEnd = .line number → 1 ≤ number := by
    rintro number ⟨⟩
    decide
  exact ⟨hnumber, lines_insert hnumber "x\ny".toList twoLines⟩

example : pastTheEnd.insert (some twoLines) "x\ny".toList = "a\nb\nx\ny".toList := by decide

end Position

end Scaffold
