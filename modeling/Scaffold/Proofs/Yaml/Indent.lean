import Scaffold.Yaml.Printer

/-!
The written text of a value at a column of its own. Indentation that is added level by level is
indentation by a number of blanks (`indentBy_indentBy`), so each line of a nested value can be read
off its place. Main statements: the equations of `itemsAt` and `fieldsAt`, one for each form that an
entry of a list or of an object takes.
-/

namespace Scaffold.Yaml.Printer

/-- Puts `n` blanks in front of each line that is not empty, the first one only if `atStart`. -/
def indentBy (n : Nat) (atStart : Bool) : Text → Text
  | [] => []
  | c :: t =>
    if atStart && !isBreak c then List.replicate n ' ' ++ c :: indentBy n false t
    else c :: indentBy n (isBreak c) t

/-- Whether a line starts behind the text, given whether one starts in front of it. -/
def endsLine (atStart : Bool) : Text → Bool
  | [] => atStart
  | c :: t => endsLine (isBreak c) t

theorem indent_eq_indentBy (atStart : Bool) (t : Text) : indent atStart t = indentBy 2 atStart t := by
  induction t generalizing atStart with
  | nil => rfl
  | cons c t ih =>
    rw [indent, indentBy, ih, ih]
    rfl

section IndentBy

variable (n : Nat) (atStart : Bool)

theorem indentBy_false_cons (c : Char) (t : Text) :
    indentBy n false (c :: t) = c :: indentBy n (isBreak c) t := by
  simp [indentBy]

theorem indentBy_true_cons {c : Char} (h : isBreak c = false) (t : Text) :
    indentBy n true (c :: t) = List.replicate n ' ' ++ indentBy n false (c :: t) := by
  simp [indentBy, h]

theorem indentBy_append (s t : Text) :
    indentBy n atStart (s ++ t) = indentBy n atStart s ++ indentBy n (endsLine atStart s) t := by
  induction s generalizing atStart with
  | nil => rfl
  | cons c s ih =>
    rw [List.cons_append, indentBy, indentBy, endsLine, ih, ih]
    split
    · next h =>
      have hc : isBreak c = false := by simp_all
      simp [hc]
    · simp

theorem indentBy_of_no_break {s : Text} (h : s.any isBreak = false) (t : Text) :
    indentBy n false (s ++ t) = s ++ indentBy n false t := by
  induction s with
  | nil => rfl
  | cons c s ih =>
    simp only [List.any_cons, Bool.or_eq_false_iff] at h
    rw [List.cons_append, indentBy_false_cons, h.1, ih h.2]
    rfl

theorem indentBy_indentBy (m : Nat) (t : Text) :
    indentBy n atStart (indentBy m atStart t) = indentBy (m + n) atStart t := by
  have hblanks : ∀ k (x : Text),
      indentBy n false (List.replicate k ' ' ++ x) = List.replicate k ' ' ++ indentBy n false x :=
    fun k x => indentBy_of_no_break n (by simp [List.any_replicate, isBreak]) x
  induction t generalizing atStart with
  | nil => rfl
  | cons c t ih =>
    by_cases h : (atStart && !isBreak c) = true
    · have hstart : atStart = true := by simp_all
      have hc : isBreak c = false := by simp_all
      rw [indentBy, if_pos h, indentBy, if_pos h, ← ih]
      cases m with
      | zero => simp [indentBy, hstart, hc]
      | succ m =>
        rw [List.replicate_succ, List.cons_append, hstart, indentBy_true_cons n rfl, indentBy,
          if_neg (by simp), show isBreak ' ' = false from rfl, hblanks, indentBy_false_cons, hc,
          ← List.cons_append, ← List.replicate_succ, ← List.append_assoc,
          List.replicate_append_replicate, Nat.add_comm n]
    · rw [indentBy, if_neg h, indentBy, if_neg h, indentBy, if_neg h, ih]

theorem length_le_indentBy (t : Text) : t.length ≤ (indentBy n atStart t).length := by
  induction t generalizing atStart with
  | nil => exact Nat.le_refl 0
  | cons c t ih =>
    rw [indentBy]
    split
    · have := ih false
      simp only [List.length_append, List.length_cons]
      omega
    · have := ih (isBreak c)
      simp only [List.length_cons]
      omega

theorem endsLine_append (s t : Text) :
    endsLine atStart (s ++ t) = endsLine (endsLine atStart s) t := by
  induction s generalizing atStart with
  | nil => rfl
  | cons c s ih => exact ih _

theorem endsLine_blanks (t : Text) : endsLine atStart (List.replicate n ' ' ++ t) =
    endsLine (if n = 0 then atStart else false) t := by
  induction n generalizing atStart with
  | zero => rfl
  | succ n ih =>
    rw [List.replicate_succ, List.cons_append, endsLine, ih]
    cases n <;> rfl

theorem endsLine_indentBy (t : Text) : endsLine atStart (indentBy n atStart t) =
    endsLine atStart t := by
  induction t generalizing atStart with
  | nil => rfl
  | cons c t ih =>
    rw [indentBy]
    split
    · next h =>
      have hc : isBreak c = false := by simp_all
      rw [endsLine_blanks, endsLine, endsLine, hc, ih]
    · rw [endsLine, endsLine, ih]

theorem indentBy_breaks {s : Text} (h : s.all isBreak = true) : indentBy n atStart s = s := by
  induction s generalizing atStart with
  | nil => rfl
  | cons c s ih =>
    simp only [List.all_cons, Bool.and_eq_true] at h
    rw [indentBy, if_neg (by simp [h.1]), ih _ h.2]

theorem endsLine_breaks {c : Char} {s : Text} (h : (c :: s).all isBreak = true) :
    endsLine atStart (c :: s) = true := by
  induction s generalizing c atStart with
  | nil => simpa [endsLine] using h
  | cons d s ih =>
    simp only [List.all_cons, Bool.and_eq_true] at h
    rw [endsLine]
    exact ih _ (by simpa using h.2)

end IndentBy

theorem getLast?_any_isBreak (t : Text) : t.getLast?.any isBreak = endsLine false t := by
  induction t with
  | nil => rfl
  | cons c t ih =>
    cases t with
    | nil => rfl
    | cons d t =>
      rw [List.getLast?_cons_cons, ih]
      rfl

theorem endLine_append (s : Text) {t : Text} (h : t ≠ []) :
    endLine (s ++ t) = s ++ endLine t := by
  rw [endLine, endLine, List.getLast?_append, Option.or_of_isSome (by simpa using h)]
  split
  · rfl
  · exact List.append_assoc ..

theorem endsLine_endLine (atStart : Bool) (t : Text) : endsLine atStart (endLine t) = true := by
  rw [endLine, getLast?_any_isBreak]
  split
  · next h =>
    cases t with
    | nil => cases h
    | cons c t => exact h
  · rw [endsLine_append]
    rfl

theorem indentBy_endLine (n : Nat) (t : Text) :
    indentBy n false (endLine t) = endLine (indentBy n false t) := by
  rw [endLine, endLine, getLast?_any_isBreak, getLast?_any_isBreak, endsLine_indentBy]
  split
  · rfl
  · rw [indentBy_append]
    cases endsLine false t <;> rfl

/-! ## The forms of an entry -/

theorem block_items (d : Data) (ds : List Data) :
    block (.list (d :: ds)) = blockItems (d :: ds) := by
  rw [block]
  nofun

theorem block_fields (field : Text × Data) (fields : List (Text × Data)) :
    block (.object (field :: fields)) = blockFields (field :: fields) := by
  rw [block]
  nofun

theorem blockItems_cons (d : Data) (ds : List Data) :
    blockItems (d :: ds) = '-' :: ' ' :: (indentBy 2 false (block d) ++ blockItems ds) := by
  rw [blockItems, indent_eq_indentBy]
  rfl

theorem blockFields_cons (key : Text) (d : Data) (fields : List (Text × Data)) :
    blockFields ((key, d) :: fields) = entry key d (block d) ++ blockFields fields := by
  rw [blockFields]

/-- A value whose text starts on the line of its key. -/
def isFlat : Data → Bool
  | .list (_ :: _) | .object (_ :: _) => false
  | _ => true

theorem exists_of_not_isFlat {d : Data} (h : isFlat d = false) :
    (∃ x xs, d = .list (x :: xs)) ∨ ∃ x xs, d = .object (x :: xs) := by
  unfold isFlat at h
  split at h
  · exact .inl ⟨_, _, rfl⟩
  · exact .inr ⟨_, _, rfl⟩
  · cases h

section Entry

variable {key : Text} (value : Text)

theorem entry_items (h : isSimpleKey key = true) (d : Data) (ds : List Data) :
    entry key (.list (d :: ds)) value = scalar key ++ ':' :: '\n' :: value := by
  rw [entry, if_pos h]

theorem entry_fields (h : isSimpleKey key = true) (field : Text × Data)
    (fields : List (Text × Data)) : entry key (.object (field :: fields)) value =
      scalar key ++ ':' :: '\n' :: indentBy 2 true value := by
  rw [entry, if_pos h, indent_eq_indentBy]

/-- A value on the line of its key. -/
theorem entry_flat (h : isSimpleKey key = true) {d : Data} (hd : isFlat d = true) :
    entry key d value = scalar key ++ ':' :: ' ' :: indentBy 2 false value := by
  unfold entry
  rw [if_pos h]
  split
  · cases hd
  · cases hd
  · rw [indent_eq_indentBy]

/-- A key with a mark is written as a value of its own. -/
theorem entry_marked (h : isSimpleKey key = false) (d : Data) : entry key d value =
    '?' :: ' ' :: (indentBy 2 false (block (.text key)) ++
      ':' :: ' ' :: indentBy 2 false value) := by
  unfold entry
  rw [if_neg (by simp [h]), block, indentBy_endLine, indent_eq_indentBy, indent_eq_indentBy]
  rfl

end Entry

/-! ## Ends of lines -/

theorem endsLine_entry (atStart : Bool) (key : Text) {d : Data}
    (h : ∀ start, endsLine start (block d) = true) :
    endsLine atStart (entry key d (block d)) = true := by
  by_cases hkey : isSimpleKey key = true
  · cases hd : isFlat d with
    | true =>
      rw [entry_flat _ hkey hd, endsLine_append, endsLine, endsLine,
        show isBreak ' ' = false from rfl, endsLine_indentBy, h]
    | false =>
      obtain ⟨x, xs, rfl⟩ | ⟨x, xs, rfl⟩ := exists_of_not_isFlat hd
      · rw [entry_items _ hkey, endsLine_append, endsLine, endsLine, h]
      · rw [entry_fields _ hkey, endsLine_append, endsLine, endsLine,
          show isBreak '\n' = true from rfl, endsLine_indentBy, h]
  · rw [entry_marked _ (by simpa using hkey), endsLine, endsLine, endsLine_append, endsLine,
      endsLine, show isBreak ' ' = false from rfl, endsLine_indentBy, h]

mutual

theorem endsLine_block (atStart : Bool) : ∀ d : Data, endsLine atStart (block d) = true
  | .null | .bool true | .bool false | .list [] | .object [] => rfl
  | .int n => by rw [block, endsLine_append]; rfl
  | .float x => by rw [block, endsLine_append]; rfl
  | .text t => by rw [block]; exact endsLine_endLine atStart _
  | .list (d :: ds) => by
    rw [block_items, blockItems_cons, endsLine, endsLine, endsLine_append]
    rw [show isBreak ' ' = false from rfl, endsLine_indentBy, endsLine_block false d]
    exact endsLine_blockItems ds
  | .object ((key, d) :: fields) => by
    rw [block_fields, blockFields_cons, endsLine_append, endsLine_entry]
    · exact endsLine_blockFields fields
    · exact fun start => endsLine_block start d

theorem endsLine_blockItems : ∀ ds : List Data, endsLine true (blockItems ds) = true
  | [] => rfl
  | d :: ds => by
    rw [blockItems_cons, endsLine, endsLine, endsLine_append]
    rw [show isBreak ' ' = false from rfl, endsLine_indentBy, endsLine_block false d]
    exact endsLine_blockItems ds

theorem endsLine_blockFields : ∀ fields : List (Text × Data),
    endsLine true (blockFields fields) = true
  | [] => rfl
  | (key, d) :: fields => by
    rw [blockFields_cons, endsLine_append, endsLine_entry]
    · exact endsLine_blockFields fields
    · exact fun start => endsLine_block start d

end

end Scaffold.Yaml.Printer
