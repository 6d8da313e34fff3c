/-!
Texts as lists of characters: blanks, ASCII case, byte length, lines and literal replacement.
Main statements: lines and their joining are inverse to each other, and replacement is described
by one equation per case (`replace_append_self`, `replace_cons_of_not_head`).
-/

namespace Scaffold

abbrev Text := List Char

namespace Text

/-- Characters with the Unicode property White_Space. -/
def isBlank (c : Char) : Bool :=
  let n := c.toNat
  (0x09 ≤ n && n ≤ 0x0D) || n == 0x20 || n == 0x85 || n == 0xA0 || n == 0x1680 ||
    (0x2000 ≤ n && n ≤ 0x200A) || n == 0x2028 || n == 0x2029 || n == 0x202F ||
    n == 0x205F || n == 0x3000

/-- Length in UTF-8 bytes, the unit of spans and offsets. -/
def bytes : Text → Nat
  | [] => 0
  | c :: t => c.utf8Size + bytes t

/-- Only the letters `A` to `Z` have a lower case here. -/
def lower (t : Text) : Text := t.map Char.toLower

/-- Only the letters `a` to `z` have an upper case here. -/
def upper (t : Text) : Text := t.map Char.toUpper

def trimEnd (p : Char → Bool) (t : Text) : Text := (t.reverse.dropWhile p).reverse

/-- Whether `part` occurs in the text; the empty text occurs everywhere. -/
def contains (part : Text) : Text → Bool
  | [] => part.isEmpty
  | c :: t => part.isPrefixOf (c :: t) || contains part t

/-- Pieces between occurrences of `sep`; never empty. -/
def split (sep : Char) : Text → List Text
  | [] => [[]]
  | c :: t =>
    if c = sep then [] :: split sep t
    else match split sep t with
      | [] => [[c]]
      | piece :: pieces => (c :: piece) :: pieces

def join (sep : Char) : List Text → Text
  | [] => []
  | [piece] => piece
  | piece :: pieces => piece ++ sep :: join sep pieces

/-- Replaces the occurrences of a non-empty `pattern` from left to right. `skip` characters of an
occurrence that was just replaced are still to be passed over. -/
def replaceFrom (pattern value : Text) : Nat → Text → Text
  | _, [] => []
  | skip + 1, _ :: t => replaceFrom pattern value skip t
  | 0, c :: t =>
    if pattern.isPrefixOf (c :: t) then
      value ++ replaceFrom pattern value (pattern.length - 1) t
    else c :: replaceFrom pattern value 0 t

/-- Puts `value` for every occurrence of `pattern`, found from left to right without overlap. The
empty pattern occurs before every character and at the end. -/
def replace (pattern value t : Text) : Text :=
  if pattern.isEmpty then value ++ t.flatMap (fun c => c :: value)
  else replaceFrom pattern value 0 t

theorem bytes_nil : bytes [] = 0 := rfl

theorem bytes_cons (c : Char) (t : Text) : bytes (c :: t) = c.utf8Size + bytes t := rfl

theorem bytes_append (s t : Text) : bytes (s ++ t) = bytes s + bytes t := by
  induction s with
  | nil => simp [bytes]
  | cons c s ih => simp [bytes, ih, Nat.add_assoc]

theorem bytes_ofList (t : Text) : (String.ofList t).utf8ByteSize = bytes t := by
  induction t with
  | nil => simp [bytes]
  | cons c t ih =>
    have h : String.ofList (c :: t) = String.singleton c ++ String.ofList t := by
      rw [String.singleton_eq_ofList, ← String.ofList_append]; rfl
    rw [h, String.utf8ByteSize_append, String.utf8ByteSize_singleton, ih, bytes]

theorem exists_trimEnd_append (p : Char → Bool) (t : Text) :
    ∃ cut, t = trimEnd p t ++ cut ∧ ∀ c ∈ cut, p c := by
  refine ⟨(t.reverse.takeWhile p).reverse, ?_, ?_⟩
  · rw [trimEnd, ← List.reverse_append, List.takeWhile_append_dropWhile, List.reverse_reverse]
  · intro c hc
    exact List.all_eq_true.mp List.all_takeWhile c (List.mem_reverse.mp hc)

/-- What is cut off is no more than what was put behind a text that ends otherwise. -/
theorem trimEnd_append {p : Char → Bool} {t cut : Text}
    (ht : ∀ c, t.getLast? = some c → p c = false) (hcut : cut.all p = true) :
    trimEnd p (t ++ cut) = t := by
  have hhead : t.reverse.dropWhile p = t.reverse := by
    cases h : t.reverse with
    | nil => rfl
    | cons c r =>
      have hc : p c = false := ht c (by rw [← List.head?_reverse, h]; rfl)
      rw [List.dropWhile_cons, hc]
      rfl
  rw [trimEnd, List.reverse_append, List.dropWhile_append_of_pos, hhead, List.reverse_reverse]
  exact fun c hc => List.all_eq_true.mp hcut c (List.mem_reverse.mp hc)

theorem split_ne_nil (sep : Char) (t : Text) : split sep t ≠ [] := by
  cases t with
  | nil => simp [split]
  | cons c t =>
    rw [split]
    split
    · simp
    · split <;> simp

theorem join_cons (sep : Char) (piece : Text) {pieces : List Text} (h : pieces ≠ []) :
    join sep (piece :: pieces) = piece ++ sep :: join sep pieces := by
  cases pieces with
  | nil => exact absurd rfl h
  | cons => rfl

theorem join_split (sep : Char) (t : Text) : join sep (split sep t) = t := by
  induction t with
  | nil => rfl
  | cons c t ih =>
    rw [split]
    split
    · next h => rw [join_cons _ _ (split_ne_nil sep t), ih, h]; rfl
    · split
      · next h => exact absurd h (split_ne_nil sep t)
      · next piece pieces h =>
        rw [h] at ih
        cases pieces with
        | nil => simpa [join] using ih
        | cons => simpa [join] using ih

private theorem replaceFrom_skip (pattern value : Text) (n : Nat) (t : Text) :
    replaceFrom pattern value n t = replaceFrom pattern value 0 (t.drop n) := by
  induction t generalizing n with
  | nil => cases n <;> rfl
  | cons c t ih =>
    cases n with
    | zero => rfl
    | succ n => simpa [replaceFrom] using ih n

theorem replaceFrom_append_self {pattern : Text} (h : pattern ≠ []) (value t : Text) :
    replaceFrom pattern value 0 (pattern ++ t) = value ++ replaceFrom pattern value 0 t := by
  cases pattern with
  | nil => exact absurd rfl h
  | cons c p =>
    have hp : (c :: p).isPrefixOf (c :: (p ++ t)) = true :=
      List.isPrefixOf_iff_prefix.2 ⟨t, rfl⟩
    rw [List.cons_append, replaceFrom, if_pos hp, replaceFrom_skip]
    simp

theorem replace_append_self {pattern : Text} (h : pattern ≠ []) (value t : Text) :
    replace pattern value (pattern ++ t) = value ++ replace pattern value t := by
  simp [replace, h, replaceFrom_append_self]

theorem replace_nil {pattern : Text} (h : pattern ≠ []) (value : Text) :
    replace pattern value [] = [] := by
  simp [replace, h, replaceFrom]

theorem replace_cons_of_not_head {pattern : Text} (hne : pattern ≠ []) (value : Text) {c : Char}
    {t : Text} (h : ¬ pattern <+: c :: t) :
    replace pattern value (c :: t) = c :: replace pattern value t := by
  have hp : pattern.isPrefixOf (c :: t) = false := by
    simpa [← List.isPrefixOf_iff_prefix] using h
  simp [replace, hne, replaceFrom, hp]

end Text

end Scaffold
