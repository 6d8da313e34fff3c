import Scaffold.StubError
import Scaffold.Toml.Document
import Scaffold.Yaml.Document

/-!
The options block in front of a rendered text: where it ends and what it says. The block stands
between two delimiter lines, the first of which is the first line of the text. Main statement: a
split is a partition of the lines (`split?_eq_some_iff`).
-/

namespace Scaffold

namespace FrontMatter

def delimiter : Text := ['=', '=', '=']

/-- A delimiter line may end in carriage returns before its newline. -/
def isDelimiter (line : Text) : Bool :=
  Text.trimEnd (· == '\r') (Text.trimEnd (· == '\n') line) == delimiter

/-- The lines of a text, each with the newline that ends it. -/
def lines : Text → List Text
  | [] => []
  | c :: t =>
    if c = '\n' then [c] :: lines t
    else match lines t with
      | [] => [[c]]
      | line :: rest => (c :: line) :: rest

/-- The block and the body, unless the text starts otherwise or the block is never closed. -/
def split? (t : Text) : Option (Text × Text) :=
  match lines t with
  | [] => none
  | first :: rest =>
    if isDelimiter first then
      match rest.dropWhile (!isDelimiter ·) with
      | [] => none
      | _ :: body => some ((rest.takeWhile (!isDelimiter ·)).flatten, body.flatten)
    else none

/-- The options of a block, which is TOML if it can be, and YAML otherwise. -/
def options (block : Text) : Except StubError (Bindings Data) :=
  match Toml.document? block with
  | some fields => .ok fields
  | none =>
    match Yaml.ofText? block with
    | some (.object fields) => .ok fields
    | some .null => .ok []
    | found => .error (.malformedFrontMatter found)

theorem flatten_lines (t : Text) : (lines t).flatten = t := by
  induction t with
  | nil => rfl
  | cons c t ih =>
    rw [lines]
    split
    · simp [ih]
    · split
      · next h => rw [h] at ih; simp at ih; simp [ih]
      · next line rest h => rw [h] at ih; simpa using ih

theorem split?_eq_some_iff {t block body : Text} :
    split? t = some (block, body) ↔
      ∃ first inner close rest, lines t = first :: (inner ++ close :: rest) ∧
        isDelimiter first ∧ (∀ line ∈ inner, isDelimiter line = false) ∧ isDelimiter close ∧
        block = inner.flatten ∧ body = rest.flatten := by
  constructor
  · intro h
    unfold split? at h
    split at h
    · simp at h
    · next first rest hlines =>
      split at h
      · next hfirst =>
        split at h
        · simp at h
        · next close tail hdrop =>
          have hclose : isDelimiter close = true := by
            have := List.head?_dropWhile_not (fun line => !isDelimiter line) rest
            rw [hdrop] at this
            simpa using this
          have hrest : rest.takeWhile (!isDelimiter ·) ++ rest.dropWhile (!isDelimiter ·) = rest :=
            List.takeWhile_append_dropWhile
          rw [hdrop] at hrest
          simp only [Option.some.injEq, Prod.mk.injEq] at h
          refine ⟨first, _, close, tail, ?_, hfirst, ?_, hclose, h.1.symm, h.2.symm⟩
          · rw [hlines, hrest]
          · intro line hline
            simpa using List.all_eq_true.1 List.all_takeWhile line hline
      · simp at h
  · rintro ⟨first, inner, close, rest, hlines, hfirst, hinner, hclose, rfl, rfl⟩
    have htake : (inner ++ close :: rest).takeWhile (!isDelimiter ·) = inner := by
      rw [List.takeWhile_append_of_pos (by simpa using hinner)]
      simp [hclose]
    have hdrop : (inner ++ close :: rest).dropWhile (!isDelimiter ·) = close :: rest := by
      rw [List.dropWhile_append_of_pos (by simpa using hinner)]
      simp [hclose]
    simp [split?, hlines, hfirst, htake, hdrop]

end FrontMatter

end Scaffold
