import Scaffold.Proofs.Yaml.Characters
import Scaffold.Proofs.Yaml.Gap

/-!
Plain scalars read back: a text that may be written without quotes is read as it stands, word by
word, up to the colon or the line break behind it. Main statement: `plainScalar?_eq`.
-/

namespace Scaffold.Yaml

open Printer

/-- What may stand without quotes, from the start of a word on. -/
structure IsPlain (t : Text) : Prop where
  ne_nil : t ≠ []
  unbroken : t.any isBreak = false
  tab_not_mem : '\t' ∉ t
  head_ne : t.head? ≠ some ' '
  last_ne : t.getLast? ≠ some ' '
  unmarked : hasMark true t = false

theorem isPlain_of_admitsPlain {t : Text} (h : admitsPlain t = true) (hne : t ≠ []) :
    IsPlain t := by
  simp only [admitsPlain, admitsSingleQuotes, writable, Bool.and_eq_true, Bool.not_eq_true',
    bne_iff_ne] at h
  obtain ⟨⟨⟨⟨⟨⟨⟨hprintable, _⟩, _⟩, hbreak⟩, hhead⟩, hlast⟩, _⟩, hmark⟩ := h
  refine ⟨hne, hbreak, fun htab => ?_, hhead, hlast, hmark⟩
  have := List.all_eq_true.mp hprintable _ htab
  revert this
  decide

/-- Marks are those of the parts of a text, and those between them. -/
theorem hasMark_of_append {b : Bool} {s t : Text} (h : hasMark b (s ++ ' ' :: t) = false) :
    hasMark true t = false := by
  induction s generalizing b with
  | nil =>
    simp only [List.nil_append, hasMark, Bool.or_eq_false_iff] at h
    exact h.2
  | cons c s ih =>
    simp only [List.cons_append, hasMark, Bool.or_eq_false_iff] at h
    exact ih h.2

theorem isGap_of_endsWord {t : Text} (h : t.head?.all endsWord = false) (after : Text) :
    isGap (t ++ after).head? = false := by
  cases t with
  | nil => cases h
  | cons c t =>
    simp only [List.head?_cons, Option.all_some, endsWord, Bool.or_eq_false_iff] at h
    simp [isGap, h.1.1, h.1.2]

/-- A word of a text without marks is read whole. -/
theorem plainWord?_append {b : Bool} {w r after : Text} (hmark : hasMark b (w ++ r) = false)
    (hword : ∀ c ∈ w, isBlank c = false ∧ isBreak c = false)
    (hstop : plainWord? false (r ++ after) = some []) :
    plainWord? false (w ++ r ++ after) = some w := by
  induction w generalizing b with
  | nil => exact hstop
  | cons c w ih =>
    simp only [List.cons_append, hasMark, Bool.or_eq_false_iff] at hmark
    obtain ⟨hblank, hbreak⟩ := hword c (List.mem_cons_self ..)
    have hcolon : (c == ':' && isGap (w ++ r ++ after).head?) = false := by
      have := hmark.1.1
      by_cases hc : (c == ':') = true
      · rw [hc, Bool.true_and] at this ⊢
        exact isGap_of_endsWord this after
      · simp [hc]
    rw [List.cons_append, List.cons_append, plainWord?, if_neg (by simp [hblank, hbreak]),
      if_neg (by simp), if_neg (by rw [hcolon]; simp),
      ih hmark.2 fun d hd => hword d (List.mem_cons_of_mem _ hd)]
    rfl

theorem plainWord?_blank (t : Text) : plainWord? false (' ' :: t) = some [] := by
  simp [plainWord?, isBlank]

/-- A plain text is one word, or a word and, behind blanks, another plain text. -/
theorem IsPlain.cases {t : Text} (h : IsPlain t) : (∀ c ∈ t, isBlank c = false) ∨
    ∃ w n r, t = w ++ (List.replicate (n + 1) ' ' ++ r) ∧ w ≠ [] ∧
      (∀ c ∈ w, isBlank c = false) ∧ IsPlain r := by
  have hblank : ∀ c ∈ t, c ≠ ' ' → isBlank c = false := fun c hc hspace => by
    have htab : c ≠ '\t' := fun htab => h.tab_not_mem (htab ▸ hc)
    simp [isBlank, hspace, htab]
  by_cases hspace : ' ' ∈ t
  · obtain ⟨w, t', ht, hw⟩ := List.eq_append_cons_of_mem hspace
    obtain ⟨n, r, ht', hr⟩ := exists_blanks t'
    subst ht'
    have htext : t = (w ++ List.replicate n ' ') ++ ' ' :: r := by
      rw [ht, ← List.cons_append, ← List.replicate_succ, List.replicate_succ']
      simp
    have hne : r ≠ [] := by
      rintro rfl
      exact h.last_ne (by rw [htext]; simp)
    refine .inr ⟨w, n, r, by rw [ht, List.replicate_succ]; rfl, ?_, fun c hc => ?_, hne, ?_, ?_,
      hr, ?_, ?_⟩
    · rintro rfl
      exact h.head_ne (by rw [ht]; rfl)
    · exact hblank c (by rw [ht]; simp [hc]) fun heq => hw (heq ▸ hc)
    · have := h.unbroken
      rw [htext] at this
      simp only [List.any_append, List.any_cons, Bool.or_eq_false_iff] at this
      exact this.2.2
    · exact fun htab => h.tab_not_mem (by rw [htext]; simp [htab])
    · have := h.last_ne
      rw [htext] at this
      cases r with
      | nil => exact absurd rfl hne
      | cons d r => simpa [List.getLast?_cons_cons] using this
    · have := h.unmarked
      rw [htext] at this
      exact hasMark_of_append this
  · exact .inl fun c hc => hblank c hc fun heq => hspace (heq ▸ hc)

section IsPlain

variable {t : Text}

theorem IsPlain.not_isBreak (h : IsPlain t) {c : Char} (hc : c ∈ t) : isBreak c = false := by
  simpa using List.any_eq_false.mp h.unbroken c hc

theorem IsPlain.startsWord (h : IsPlain t) (after : Text) : startsWord (t ++ after) := by
  intro c hc
  have hhead : t.head? = some c := by
    cases t with
    | nil => exact absurd rfl h.ne_nil
    | cons d t => exact hc
  have hmem : c ∈ t := List.mem_of_head? hhead
  have hspace : c ≠ ' ' := fun heq => h.head_ne (heq ▸ hhead)
  have htab : c ≠ '\t' := fun heq => h.tab_not_mem (heq ▸ hmem)
  exact ⟨by simp [isBlank, hspace, htab], h.not_isBreak hmem⟩

theorem IsPlain.peek_ne (h : IsPlain t) {c : Cursor} {after : Text} (hc : c.rest = t ++ after) :
    c.peek ≠ some '#' := by
  cases t with
  | nil => exact absurd rfl h.ne_nil
  | cons d t =>
    have hmark := h.unmarked
    rw [c.peek_eq hc]
    rintro ⟨⟩
    simp [hasMark] at hmark

end IsPlain

section Word

variable {indent fuel : Nat} {w : Text} {g gap : Gap} {c d : Cursor}
  (hmarker : c.isAtMarker = false) (hnumber : c.peek ≠ some '#') (hne : w ≠ [])
  (hword : plainWord? false c.rest = some w)
  (hgap : Gap.read? indent (c.skip w.length).rest.length .empty (c.skip w.length) = some (gap, d))
include hmarker hnumber hne hword hgap

/-- A word is the last one if no blanks are behind it, or the next word stands too far out. -/
theorem plainScalar?_last (hend : gap.broken = false ∧ gap.blanks = [] ∨ d.column < indent) :
    plainScalar? false indent (fuel + 1) g c = some (g.fold ++ w, gap.broken, d) := by
  have hempty : w.isEmpty = false := by simpa using hne
  have hlast : (!(gap.broken || !gap.blanks.isEmpty) || (!false && decide (d.column < indent))) =
      true := by
    obtain ⟨hbroken, hblanks⟩ | hcolumn := hend
    · simp [hbroken, hblanks]
    · simp [hcolumn]
  rw [plainScalar?, if_neg (by simp [hmarker, hnumber])]
  simp only [hword, bind, Option.bind, hempty, Bool.false_eq_true, if_false, hgap, hlast, if_true,
    pure]

/-- Reading goes on behind a word and the blanks that follow it. -/
theorem plainScalar?_blanks {e : Cursor} {more : Text} {broken : Bool} (hblanks : gap.blanks ≠ [])
    (hcolumn : indent ≤ d.column)
    (hmore : plainScalar? false indent fuel gap d = some (more, broken, e)) :
    plainScalar? false indent (fuel + 1) g c = some (g.fold ++ w ++ more, broken, e) := by
  have hempty : w.isEmpty = false := by simpa using hne
  have hgo : (!(gap.broken || !gap.blanks.isEmpty) || (!false && decide (d.column < indent))) =
      false := by
    have hfull : gap.blanks.isEmpty = false := by simpa using hblanks
    simp [hfull, hcolumn]
  rw [plainScalar?, if_neg (by simp [hmarker, hnumber])]
  simp only [hword, bind, Option.bind, hempty, Bool.false_eq_true, if_false, hgap, hgo, hmore, pure]

end Word

/-- A plain scalar is read up to where the gap behind it tells to stop. -/
theorem plainScalar?_eq {t after : Text} {indent fuel : Nat} {g gap : Gap} {c d : Cursor}
    (h : IsPlain t) (hrest : c.rest = t ++ after) (hstop : plainWord? false after = some [])
    (hmarker : c.isAtMarker = false) (hindent : indent ≤ c.column + 1) (hfuel : t.length < fuel)
    (hgap : Gap.read? indent after.length .empty (c.skip t.length) = some (gap, d))
    (hend : gap.broken = false ∧ gap.blanks = [] ∨ d.column < indent) :
    plainScalar? false indent fuel g c = some (g.fold ++ t, gap.broken, d) := by
  induction fuel generalizing t g c with
  | zero => omega
  | succ fuel ih =>
    have hnumber : c.peek ≠ some '#' := h.peek_ne hrest
    obtain hword | ⟨w, n, r, rfl, hw, hword, hr⟩ := h.cases
    · have hread : plainWord? false c.rest = some t := by
        have hmark : hasMark true (t ++ []) = false := by simpa using h.unmarked
        have := plainWord?_append hmark (fun ch hch => ⟨hword ch hch, h.not_isBreak hch⟩) hstop
        rwa [List.append_nil, ← hrest] at this
      have hlength : (c.skip t.length).rest.length = after.length := by simp [hrest]
      rw [← hlength] at hgap
      exact plainScalar?_last hmarker hnumber h.ne_nil hread hgap hend
    · have hread : plainWord? false c.rest = some w := by
        rw [hrest]
        exact plainWord?_append h.unmarked
          (fun ch hch => ⟨hword ch hch, h.not_isBreak (List.mem_append_left _ hch)⟩)
          (plainWord?_blank _)
      have hskip : (c.skip w.length).rest = List.replicate (n + 1) ' ' ++ (r ++ after) := by
        simp [hrest]
      have hblanks : Gap.read? indent (c.skip w.length).rest.length .empty (c.skip w.length) =
          some (⟨false, List.replicate (n + 1) ' ', [], []⟩, (c.skip w.length).skip (n + 1)) := by
        rw [Gap.empty, Gap.read?_blanks hskip (hr.startsWord after) (by rw [hskip]; simp),
          List.nil_append]
      have hwlen : 0 < w.length := List.length_pos_iff.mpr hw
      have hcolumn : ((c.skip w.length).skip (n + 1)).column = c.column + w.length + (n + 1) := rfl
      have hmore : plainScalar? false indent fuel ⟨false, List.replicate (n + 1) ' ', [], []⟩
          ((c.skip w.length).skip (n + 1)) =
            some (List.replicate (n + 1) ' ' ++ r, gap.broken, d) := by
        refine ih hr ?_ ?_ ?_ ?_ ?_
        · rw [Cursor.skip_rest, hskip]
          simp
        · simp [Cursor.isAtMarker]
        · rw [hcolumn]
          omega
        · simp at hfuel
          omega
        · rw [c.skip_skip, c.skip_skip, ← hgap]
          simp [Nat.add_assoc]
      rw [plainScalar?_blanks hmarker hnumber hw hread hblanks (by simp) (by rw [hcolumn]; omega)
        hmore]
      simp [List.append_assoc]

section Read

variable {t : Text} {indent fuel : Nat} {c : Cursor}

/-- A plain key ends at the colon behind it. -/
theorem plainScalar?_key (indent fuel : Nat) (h : IsPlain t) {after : Text}
    (hrest : c.rest = t ++ ':' :: after) (hafter : isGap after.head? = true)
    (hmarker : c.isAtMarker = false) (hindent : indent ≤ c.column + 1) (hfuel : t.length < fuel) :
    plainScalar? false indent fuel .empty c = some (t, false, c.skip t.length) := by
  have hskip : (c.skip t.length).rest = ':' :: after := by simp [hrest]
  exact plainScalar?_eq h hrest (by simp [plainWord?, hafter]) hmarker hindent hfuel
    (Gap.read?_stop _ hskip (startsWord_cons.mpr ⟨rfl, rfl⟩)) (.inl ⟨rfl, rfl⟩)

/-- A plain value ends with its line, and reading stops at the next word. -/
theorem plainScalar?_value (indent fuel : Nat) (h : IsPlain t) {n : Nat} {after : Text}
    (hrest : c.rest = t ++ '\n' :: (List.replicate n ' ' ++ after)) (hafter : startsWord after)
    (hmarker : c.isAtMarker = false) (hindent : indent ≤ c.column + 1) (hn : n < indent)
    (hfuel : t.length < fuel) :
    plainScalar? false indent fuel .empty c =
      some (t, true, ⟨after, c.index + t.length + 1 + n, c.line + 1, n⟩) := by
  have hskip : (c.skip t.length).rest = '\n' :: (List.replicate n ' ' ++ after) := by simp [hrest]
  have hgap : Gap.read? indent ('\n' :: (List.replicate n ' ' ++ after)).length .empty
      (c.skip t.length) =
        some (⟨true, [], ['\n'], []⟩, ⟨after, c.index + t.length + 1 + 0 + n, c.line + 1 + 0, n⟩) :=
    Gap.read?_lines rfl hskip hafter
      (by
        simp only [List.length_cons, List.length_nil, List.length_append, List.length_replicate]
        omega)
  exact plainScalar?_eq h hrest (by simp [plainWord?, isBlank, isBreak]) hmarker hindent hfuel
    hgap (.inr hn)

end Read

end Scaffold.Yaml
