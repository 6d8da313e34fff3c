import Scaffold.Yaml.Scalar

/-!
Places in a text, and what is read between two words. Main statements: blanks are kept on one line
(`read?_blanks`), and behind a line break they are left out (`read?_line`), whatever character the
next word begins with.
-/

namespace Scaffold.Yaml

/-- A text that does not go on with a blank or a line break. -/
def startsWord (t : Text) : Prop := ∀ c, t.head? = some c → isBlank c = false ∧ isBreak c = false

theorem startsWord_cons {c : Char} {t : Text} :
    startsWord (c :: t) ↔ isBlank c = false ∧ isBreak c = false := by
  simp [startsWord]

/-- A text starts with characters of one kind, behind which another kind follows. -/
theorem exists_run (p : Char → Bool) (t : Text) : ∃ s r, t = s ++ r ∧ s.all p = true ∧
    ∀ c, r.head? = some c → p c = false :=
  ⟨t.takeWhile p, t.dropWhile p, List.takeWhile_append_dropWhile.symm, List.all_takeWhile,
    fun c hc => by
      have := List.head?_dropWhile_not p t
      rw [hc] at this
      simpa using this⟩

/-- A text starts with so many spaces, behind which no other one follows. -/
theorem exists_blanks (t : Text) : ∃ n r, t = List.replicate n ' ' ++ r ∧ r.head? ≠ some ' ' := by
  induction t with
  | nil => exact ⟨0, [], rfl, nofun⟩
  | cons c t ih =>
    by_cases hc : c = ' '
    · obtain ⟨n, r, ht, hr⟩ := ih
      exact ⟨n + 1, r, by rw [hc, ht, List.replicate_succ]; rfl, hr⟩
    · exact ⟨0, c :: t, rfl, by simpa using hc⟩

namespace Cursor

variable (c : Cursor)

@[simp] theorem skip_rest (n : Nat) : (c.skip n).rest = c.rest.drop n := rfl

@[simp] theorem skip_index (n : Nat) : (c.skip n).index = c.index + n := rfl

@[simp] theorem skip_line (n : Nat) : (c.skip n).line = c.line := rfl

@[simp] theorem skip_column (n : Nat) : (c.skip n).column = c.column + n := rfl

@[simp] theorem skip_zero : c.skip 0 = c := rfl

@[simp] theorem skip_skip (m n : Nat) : (c.skip m).skip n = c.skip (m + n) := by
  simp [skip, Nat.add_assoc]

@[simp] theorem peek_mk (ch : Char) (t : Text) (i l k : Nat) :
    (⟨ch :: t, i, l, k⟩ : Cursor).peek = some ch := rfl

theorem peek_eq {ch : Char} {t : Text} (h : c.rest = ch :: t) : c.peek = some ch := by
  rw [peek, h]
  rfl

theorem peek_eq_none (h : c.rest = []) : c.peek = none := by
  rw [peek, h]
  rfl

theorem skipBreak_newline {t : Text} (h : c.rest = '\n' :: t) :
    c.skipBreak = ⟨t, c.index + 1, c.line + 1, 0⟩ := by
  obtain ⟨rest, index, line, column⟩ := c
  subst h
  rfl

theorem skipBreak_of_ne {ch : Char} {t : Text} (h : c.rest = ch :: t) (hch : ch ≠ '\r') :
    c.skipBreak = ⟨t, c.index + 1, c.line + 1, 0⟩ := by
  obtain ⟨rest, index, line, column⟩ := c
  subst h
  rw [skipBreak]
  split
  · next h => exact absurd (List.cons.inj h).1 hch
  · next h => cases h; rfl
  · next h => cases h

end Cursor

namespace Gap

variable {indent fuel : Nat} {c : Cursor} {rest : Text}

theorem read?_stop (g : Gap) (h : c.rest = rest) (hrest : startsWord rest) :
    read? indent fuel g c = some (g, c) := by
  cases fuel with
  | zero => rfl
  | succ fuel =>
    rw [read?]
    cases rest with
    | nil => rw [c.peek_eq_none h]
    | cons ch t =>
      have hch := hrest ch rfl
      simp [c.peek_eq h, hch.1, hch.2]

/-- Blanks behind a line break are only indentation. -/
theorem read?_indentation {n : Nat} {g : Gap} (hg : g.broken = true)
    (h : c.rest = List.replicate n ' ' ++ rest) (hrest : startsWord rest) (hfuel : n ≤ fuel) :
    read? indent fuel g c = some (g, c.skip n) := by
  induction n generalizing fuel c with
  | zero => exact read?_stop g h hrest
  | succ n ih =>
    obtain ⟨fuel, rfl⟩ : ∃ k, fuel = k + 1 := ⟨fuel - 1, by omega⟩
    rw [List.replicate_succ, List.cons_append] at h
    rw [read?, c.peek_eq h]
    have hnext : (c.skip 1).rest = List.replicate n ' ' ++ rest := by simp [h]
    have hrest : read? indent fuel g (c.skip 1) = some (g, (c.skip 1).skip n) :=
      ih hnext (by omega)
    simp only [show isBlank ' ' = true from rfl, if_true, hg, Char.reduceEq, false_and, if_false]
    rw [hrest, c.skip_skip, Nat.add_comm 1 n]

theorem read?_blanks {n : Nat} {blanks : Text}
    (h : c.rest = List.replicate n ' ' ++ rest) (hrest : startsWord rest) (hfuel : n ≤ fuel) :
    read? indent fuel ⟨false, blanks, [], []⟩ c =
      some (⟨false, blanks ++ List.replicate n ' ', [], []⟩, c.skip n) := by
  induction n generalizing fuel c blanks with
  | zero => simpa using read?_stop _ h hrest
  | succ n ih =>
    obtain ⟨fuel, rfl⟩ : ∃ k, fuel = k + 1 := ⟨fuel - 1, by omega⟩
    rw [List.replicate_succ, List.cons_append] at h
    rw [read?, c.peek_eq h]
    have hnext : (c.skip 1).rest = List.replicate n ' ' ++ rest := by simp [h]
    have hmore : read? indent fuel ⟨false, blanks ++ [' '], [], []⟩ (c.skip 1) =
        some (⟨false, blanks ++ [' '] ++ List.replicate n ' ', [], []⟩, (c.skip 1).skip n) :=
      ih hnext (by omega)
    simp only [show isBlank ' ' = true from rfl, if_true, Bool.false_eq_true, if_false]
    rw [hmore, c.skip_skip, Nat.add_comm 1 n, List.append_assoc, List.replicate_succ]
    rfl

/-- Breaks that stand for themselves, or for a newline. -/
def isNewline (ch : Char) : Bool := ch == '\n' || ch == '\u2028' || ch == '\u2029'

theorem isBreak_of_isNewline {ch : Char} (h : isNewline ch = true) :
    isBreak ch = true ∧ isBlank ch = false ∧ ch ≠ '\r' := by
  simp only [isNewline, Bool.or_eq_true, beq_iff_eq] at h
  obtain (rfl | rfl) | rfl := h <;> decide

theorem all_isBreak {bs : Text} (h : bs.all isNewline = true) : bs.all isBreak = true :=
  List.all_eq_true.mpr fun ch hch => (isBreak_of_isNewline (List.all_eq_true.mp h ch hch)).1

theorem breakText_of_isNewline {ch : Char} {t : Text} (h : isNewline ch = true)
    (hc : c.rest = ch :: t) : c.breakText = [ch] := by
  rw [Cursor.breakText, c.peek_eq hc]
  simp only [isNewline, Bool.or_eq_true, beq_iff_eq] at h
  obtain (rfl | rfl) | rfl := h <;> rfl

/-- Breaks at the starts of lines are kept, and the indentation behind them is not. -/
theorem read?_breaks {n i l : Nat} {breaks blanks first later : Text}
    (hbreaks : breaks.all isNewline = true) (hrest : startsWord rest)
    (hfuel : breaks.length + n ≤ fuel) :
    read? indent fuel ⟨true, blanks, first, later⟩
        ⟨breaks ++ (List.replicate n ' ' ++ rest), i, l, 0⟩ =
      some (⟨true, blanks, first, later ++ breaks⟩,
        ⟨rest, i + breaks.length + n, l + breaks.length, n⟩) := by
  induction breaks generalizing fuel i l later with
  | nil =>
    rw [read?_indentation rfl rfl hrest (by simpa using hfuel)]
    simp [Cursor.skip]
  | cons b breaks ih =>
    obtain ⟨fuel, rfl⟩ : ∃ k, fuel = k + 1 := ⟨fuel - 1, by simp at hfuel; omega⟩
    simp only [List.all_cons, Bool.and_eq_true] at hbreaks
    obtain ⟨hbreak, hblank, hreturn⟩ := isBreak_of_isNewline hbreaks.1
    have htext : (⟨b :: (breaks ++ (List.replicate n ' ' ++ rest)), i, l, 0⟩ : Cursor).breakText =
        [b] := breakText_of_isNewline hbreaks.1 rfl
    have hcursor : (⟨b :: (breaks ++ (List.replicate n ' ' ++ rest)), i, l, 0⟩ : Cursor).skipBreak =
        ⟨breaks ++ (List.replicate n ' ' ++ rest), i + 1, l + 1, 0⟩ :=
      Cursor.skipBreak_of_ne _ rfl hreturn
    rw [List.cons_append, read?, Cursor.peek_eq _ rfl]
    simp only [hblank, Bool.false_eq_true, if_false, hbreak, if_true,
      htext, hcursor]
    rw [ih hbreaks.2 (by simp at hfuel; omega)]
    simp [Nat.add_assoc, Nat.add_comm 1]

/-- The end of a line, with empty lines behind it and the indentation of the next one. -/
theorem read?_lines {n : Nat} {b : Char} {bs : Text} (hbreaks : (b :: bs).all isNewline = true)
    (h : c.rest = b :: bs ++ (List.replicate n ' ' ++ rest)) (hrest : startsWord rest)
    (hfuel : bs.length + n < fuel) : read? indent fuel .empty c =
      some (⟨true, [], [b], bs⟩,
        ⟨rest, c.index + 1 + bs.length + n, c.line + 1 + bs.length, n⟩) := by
  obtain ⟨fuel, rfl⟩ : ∃ k, fuel = k + 1 := ⟨fuel - 1, by omega⟩
  simp only [List.all_cons, Bool.and_eq_true] at hbreaks
  obtain ⟨hbreak, hblank, hreturn⟩ := isBreak_of_isNewline hbreaks.1
  rw [List.cons_append] at h
  rw [read?, c.peek_eq h]
  simp only [hblank, hbreak, Bool.false_eq_true, if_false, if_true, empty,
    breakText_of_isNewline hbreaks.1 h, c.skipBreak_of_ne h hreturn]
  rw [read?_breaks hbreaks.2 hrest (by omega), List.nil_append]

end Gap

end Scaffold.Yaml
