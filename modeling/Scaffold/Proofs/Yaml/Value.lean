import Scaffold.Proofs.Yaml.BareWord
import Scaffold.Proofs.Yaml.Fetch
import Scaffold.Proofs.Yaml.Stream

/-!
Values that take up no lines of entries: a scalar in any style, or an empty collection. Main
statement: `passes_flat`.
-/

namespace Scaffold.Yaml.Scanner

open Relation Printer

/-! ## The lines of a scalar -/

theorem indentBy_endLine_quoted {t : Text}
    (hstyle : Style.of t = .singleQuoted ∨ Style.of t = .doubleQuoted) (n : Nat) (after : Text) :
    indentBy n false (endLine (scalar t)) ++ after =
      indentBy n false (scalar t) ++ '\n' :: after := by
  have hquote : ∃ s q, scalar t = s ++ [q] ∧ isBreak q = false := by
    obtain hstyle | hstyle := hstyle
    · exact ⟨_, '\'', by rw [scalar, hstyle], rfl⟩
    · exact ⟨_, '"', by rw [scalar, hstyle], rfl⟩
  obtain ⟨s, q, hscalar, hq⟩ := hquote
  have hend : endLine (scalar t) = scalar t ++ ['\n'] := by simp [endLine, hscalar, hq]
  have hbreak : ∀ b, indentBy n b ['\n'] = ['\n'] := fun b => by cases b <;> rfl
  rw [hend, indentBy_append, hbreak, List.append_assoc]
  rfl

theorem indentBy_endLine_literal {t : Text} (hstyle : Style.of t = .literal) (n : Nat) :
    indentBy n false (endLine (scalar t)) =
      '|' :: (indentMark t ++ chompMark t ++ '\n' :: indentBy n true (endLine t)) := by
  have hne : t ≠ [] := List.ne_nil_of_mem (admits_of_literal hstyle).1
  have hscalar : scalar t = '|' :: (indentMark t ++ chompMark t ++ '\n' :: t) := by
    rw [scalar, hstyle]
    rfl
  have hend : endLine (scalar t) = '|' :: (indentMark t ++ chompMark t ++ '\n' :: endLine t) := by
    have hcons : '|' :: (indentMark t ++ chompMark t ++ '\n' :: t) =
        ('|' :: (indentMark t ++ chompMark t) ++ ['\n']) ++ t := by simp
    rw [hscalar, hcons, endLine_append _ hne]
    simp
  have hmarks : (indentMark t ++ chompMark t).any isBreak = false := by
    have hindent : (indentMark t).any isBreak = false := by
      rw [indentMark]
      split <;> rfl
    obtain hchomp | hchomp | hchomp := chompMark_cases t <;> rw [hchomp, List.any_append, hindent] <;>
      rfl
  rw [hend, indentBy_false_cons, show isBreak '|' = false from rfl, indentBy_of_no_break n hmarks,
    indentBy_false_cons]
  rfl

section Flat

variable {s : Scanner} (hkeys : s.keys = [none]) {i m : Nat} (hindent : s.indent = i)
  (hcolumn : i < s.cursor.column) (hm : m ≤ i) {tok : Text} (htok : startsToken tok)
include hkeys hindent hcolumn hm htok

theorem passes_word {t : Text} (h : IsBareWord t)
    (hrest : s.cursor.rest =
      indentBy (i + 2) false (t ++ ['\n']) ++ (List.replicate m ' ' ++ tok)) :
    Passes s [.scalar true t] m tok := by
  have hunbroken : t.any isBreak = false := List.any_eq_false.mpr fun c hc => by
    simp [(isBareChar_cases (List.all_eq_true.mp h.bare c hc)).2.1]
  have hne : t ≠ [] := by
    obtain ⟨c, s, rfl | rfl, _⟩ := h.head <;> simp
  refine passes_plain hkeys hindent hcolumn hm htok (admitsPlain_of_isBareWord h) hne ?_
  rw [hrest, indentBy_of_no_break _ hunbroken, List.append_assoc]
  rfl

theorem passes_text {t : Text} (hrest : s.cursor.rest =
      indentBy (i + 2) false (block (.text t)) ++ (List.replicate m ' ' ++ tok)) :
    Passes s [scalarToken t] m tok := by
  rw [block] at hrest
  cases hstyle : Style.of t with
  | plain =>
    obtain ⟨_, hreads, hadmits⟩ := admits_of_plain hstyle
    have hne : t ≠ [] := by
      rintro rfl
      cases hreads
    have hunbroken := (isPlain_of_admitsPlain hadmits hne).unbroken
    have hblock : endLine (scalar t) = t ++ ['\n'] := by
      rw [scalar, hstyle, endLine, getLast?_any_isBreak, endsLine_of_unbroken hne hunbroken]
      rfl
    have htoken : scalarToken t = .scalar true t := by rw [scalarToken, hstyle]; rfl
    rw [htoken]
    refine passes_plain hkeys hindent hcolumn hm htok hadmits hne ?_
    rw [hrest, hblock, indentBy_of_no_break _ hunbroken, List.append_assoc]
    rfl
  | singleQuoted =>
    have htoken : scalarToken t = .scalar false t := by rw [scalarToken, hstyle]; rfl
    rw [htoken]
    exact passes_quoted hkeys hindent hcolumn hm htok (.inl hstyle)
      (hrest.trans (indentBy_endLine_quoted (.inl hstyle) _ _))
  | doubleQuoted =>
    have htoken : scalarToken t = .scalar false t := by rw [scalarToken, hstyle]; rfl
    rw [htoken]
    exact passes_quoted hkeys hindent hcolumn hm htok (.inr hstyle)
      (hrest.trans (indentBy_endLine_quoted (.inr hstyle) _ _))
  | literal =>
    have htoken : scalarToken t = .scalar false t := by rw [scalarToken, hstyle]; rfl
    rw [htoken]
    refine passes_literal hkeys hindent hcolumn hm htok hstyle ?_
    rw [hrest, indentBy_endLine_literal hstyle]
    simp

theorem passes_flat {d : Data} (hd : isFlat d = true) (hrest : s.cursor.rest =
      indentBy (i + 2) false (block d) ++ (List.replicate m ' ' ++ tok)) :
    Passes s (stream d) m tok := by
  cases d with
  | null => exact passes_word hkeys hindent hcolumn hm htok (isBareWord_of_letters rfl) hrest
  | bool b =>
    cases b with
    | true => exact passes_word hkeys hindent hcolumn hm htok (isBareWord_of_letters rfl) hrest
    | false => exact passes_word hkeys hindent hcolumn hm htok (isBareWord_of_letters rfl) hrest
  | int n =>
    rw [block] at hrest
    exact passes_word hkeys hindent hcolumn hm htok (isBareWord_intText n) hrest
  | float x =>
    rw [block] at hrest
    exact passes_word hkeys hindent hcolumn hm htok (isBareWord_floatText x) hrest
  | text t => exact passes_text hkeys hindent hcolumn hm htok hrest
  | list items =>
    cases items with
    | nil => exact passes_brackets hkeys hindent hcolumn hm htok .sequence hrest
    | cons => cases hd
  | object fields =>
    cases fields with
    | nil => exact passes_brackets hkeys hindent hcolumn hm htok .mapping hrest
    | cons => cases hd

end Flat

end Scaffold.Yaml.Scanner
