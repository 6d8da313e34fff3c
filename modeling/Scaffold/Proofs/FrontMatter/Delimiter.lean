import Scaffold.Rendered

/-!
Delimiter lines in a written text. A line is guarded if it is no delimiter and cannot become one by
text behind it. Main statements: all lines of written options are guarded (`quiet_blockFields`), and
options written in front of a body are split off again just if they end with a newline
(`split?_framed`, `length_lt_of_split?_framed`).
-/

namespace Scaffold

namespace FrontMatter

/-! ## Lines of a text made of parts -/

/-- Puts a text in front of the first line. -/
def onFirst (s : Text) : List Text → List Text
  | [] => if s.isEmpty then [] else [s]
  | line :: rest => (s ++ line) :: rest

theorem lines_append_of_not_mem {s : Text} (h : '\n' ∉ s) (t : Text) :
    lines (s ++ t) = onFirst s (lines t) := by
  induction s with
  | nil =>
    rw [List.nil_append]
    cases lines t <;> rfl
  | cons c s ih =>
    have hc : c ≠ '\n' := fun hc => h (hc ▸ List.mem_cons_self ..)
    rw [List.cons_append, lines, if_neg hc, ih fun hs => h (List.mem_cons_of_mem _ hs)]
    cases lines t with
    | nil => cases s <;> rfl
    | cons line rest => rfl

theorem lines_line {s : Text} (h : '\n' ∉ s) (t : Text) :
    lines (s ++ '\n' :: t) = (s ++ ['\n']) :: lines t := by
  rw [lines_append_of_not_mem h, lines, if_pos rfl]
  rfl

theorem lines_of_not_mem {s : Text} (h : '\n' ∉ s) (hne : s ≠ []) : lines s = [s] := by
  have := lines_append_of_not_mem h []
  rw [List.append_nil] at this
  rw [this, lines, onFirst, if_neg (by simpa using hne)]

/-- A text without newlines, or a line and a text behind it. -/
theorem line_induction {P : Text → Prop} (last : ∀ s, '\n' ∉ s → P s)
    (line : ∀ s t, '\n' ∉ s → P t → P (s ++ '\n' :: t)) (t : Text) : P t := by
  suffices h : ∀ s, '\n' ∉ s → P (s ++ t) from h [] List.not_mem_nil
  induction t with
  | nil =>
    intro s hs
    rw [List.append_nil]
    exact last s hs
  | cons c t ih =>
    intro s hs
    by_cases hc : c = '\n'
    · subst hc
      exact line s t hs (ih [] List.not_mem_nil)
    · have := ih (s ++ [c]) (by simp [hs, Ne.symm hc])
      simpa using this

/-- Behind a newline the lines are counted anew. -/
theorem lines_append {s : Text} (h : s.getLast? = some '\n') (t : Text) :
    lines (s ++ t) = lines s ++ lines t := by
  induction s using line_induction with
  | last s hs => exact absurd (List.mem_of_getLast? h) hs
  | line a s ha ih =>
    rw [List.append_assoc, List.cons_append, lines_line ha, lines_line ha, List.cons_append]
    cases s with
    | nil => rfl
    | cons c s => rw [ih (by simpa using h)]

/-! ## Guarded lines -/

/-- A delimiter line has no other characters than these. -/
def isDelimiterChar (c : Char) : Bool := c == '=' || c == '\r' || c == '\n'

def Guarded (line : Text) : Prop := line.head? ≠ some '=' ∨ ∃ c ∈ line, isDelimiterChar c = false

theorem Guarded.append {line : Text} (h : Guarded line) (hne : line ≠ []) (t : Text) :
    Guarded (line ++ t) := by
  obtain hhead | ⟨c, hc, hother⟩ := h
  · left
    cases line with
    | nil => exact absurd rfl hne
    | cons c line => simpa using hhead
  · exact .inr ⟨c, List.mem_append_left t hc, hother⟩

theorem Guarded.isDelimiter_eq_false {line : Text} (h : Guarded line) :
    isDelimiter line = false := by
  rw [← Bool.not_eq_true]
  intro hdelimiter
  obtain ⟨newlines, hline, hnewlines⟩ := Text.exists_trimEnd_append (· == '\n') line
  obtain ⟨returns, htrim, hreturns⟩ :=
    Text.exists_trimEnd_append (· == '\r') (Text.trimEnd (· == '\n') line)
  rw [isDelimiter, beq_iff_eq] at hdelimiter
  rw [hdelimiter] at htrim
  rw [htrim] at hline
  obtain hhead | ⟨c, hc, hother⟩ := h
  · exact hhead (by rw [hline]; rfl)
  · rw [hline, List.append_assoc, List.mem_append, List.mem_append] at hc
    obtain hc | hc | hc := hc
    · simp [delimiter] at hc
      simp [hc, isDelimiterChar] at hother
    · simp [eq_of_beq (hreturns c hc), isDelimiterChar] at hother
    · simp [eq_of_beq (hnewlines c hc), isDelimiterChar] at hother

/-- No line of the text is a delimiter, whatever follows the text. -/
def Quiet (t : Text) : Prop := ∀ line ∈ lines t, Guarded line

theorem quiet_nil : Quiet [] := fun _ h => absurd h List.not_mem_nil

theorem quiet_of_not_mem {s : Text} (h : '\n' ∉ s) (hs : Guarded s) : Quiet s := by
  intro line hline
  by_cases hne : s = []
  · subst hne
    exact quiet_nil line hline
  · rw [lines_of_not_mem h hne, List.mem_singleton] at hline
    exact hline ▸ hs

theorem quiet_line {s : Text} (h : '\n' ∉ s) (hs : Guarded s) : Quiet (s ++ ['\n']) := by
  intro line hline
  rw [lines_line h, lines, List.mem_singleton] at hline
  subst hline
  cases s with
  | nil => exact .inl (by decide)
  | cons c s => exact hs.append (List.cons_ne_nil c s) _

theorem Quiet.append {s t : Text} (hs : Quiet s) (ht : Quiet t) : Quiet (s ++ t) := by
  induction s using line_induction with
  | last s h =>
    intro line hline
    rw [lines_append_of_not_mem h] at hline
    by_cases hne : s = []
    · subst hne
      refine ht line ?_
      cases hlines : lines t with
      | nil => simp [hlines, onFirst] at hline
      | cons first rest => simpa [hlines, onFirst] using hline
    · have hguarded : Guarded s :=
        hs s (by rw [lines_of_not_mem h hne]; exact List.mem_singleton_self s)
      cases hlines : lines t with
      | nil =>
        simp only [hlines, onFirst, List.isEmpty_iff, hne, if_false, List.mem_singleton] at hline
        exact hline ▸ hguarded
      | cons first rest =>
        simp only [hlines, onFirst, List.mem_cons] at hline
        obtain hline | hline := hline
        · exact hline ▸ hguarded.append hne first
        · exact ht line (hlines ▸ List.mem_cons_of_mem first hline)
  | line a s h ih =>
    rw [Quiet, lines_line h] at hs
    rw [List.append_assoc, List.cons_append]
    intro line hline
    rw [lines_line h] at hline
    obtain hline | hline := List.mem_cons.mp hline
    · exact hs line (hline ▸ List.mem_cons_self ..)
    · exact ih (fun l hl => hs l (List.mem_cons_of_mem _ hl)) line hline

/-- On an unfinished line any text is guarded. -/
theorem Quiet.append_of_open {s : Text} (hs : Quiet s) (hne : s ≠ [])
    (hopen : s.getLast? ≠ some '\n') {t : Text} (ht : '\n' ∉ t) : Quiet (s ++ t) := by
  induction s using line_induction with
  | last s h =>
    have hguarded : Guarded s :=
      hs s (by rw [lines_of_not_mem h hne]; exact List.mem_singleton_self s)
    exact quiet_of_not_mem (by simp [h, ht]) (hguarded.append hne t)
  | line a s h ih =>
    rw [Quiet, lines_line h] at hs
    have hrest : Quiet (s ++ t) := by
      cases s with
      | nil => simp at hopen
      | cons c s =>
        exact ih (fun l hl => hs l (List.mem_cons_of_mem _ hl)) (List.cons_ne_nil c s)
          (by simpa using hopen)
    intro line hline
    rw [List.append_assoc, List.cons_append, lines_line h] at hline
    obtain hline | hline := List.mem_cons.mp hline
    · exact hs line (hline ▸ List.mem_cons_self ..)
    · exact hrest line hline

/-! ## A block between delimiters -/

/-- A block and a body behind it, with the delimiters that belong to the block. -/
def framed (block body : Text) : Text := delimiter ++ '\n' :: block ++ delimiter ++ '\n' :: body

section Framed

variable {block body : Text}

theorem lines_framed (block body : Text) : lines (framed block body) =
    (delimiter ++ ['\n']) :: lines (block ++ (delimiter ++ '\n' :: body)) := by
  rw [framed, List.append_assoc, List.append_assoc, List.cons_append, lines_line (by decide)]

theorem split?_framed (hquiet : Quiet block) (hclosed : block.getLast? = some '\n') :
    split? (framed block body) = some (block, body) := by
  refine split?_eq_some_iff.mpr
    ⟨delimiter ++ ['\n'], lines block, delimiter ++ ['\n'], lines body, ?_, by decide, ?_,
      by decide, (flatten_lines block).symm, (flatten_lines body).symm⟩
  · rw [lines_framed, lines_append hclosed, lines_line (by decide)]
  · intro line hline
    exact (hquiet line hline).isDelimiter_eq_false

/-- If the line in front of the second delimiter is not ended, the block goes on into the body. -/
theorem length_lt_of_split?_framed (hquiet : Quiet block) (hne : block ≠ [])
    (hopen : block.getLast? ≠ some '\n') {found rest : Text}
    (h : split? (framed block body) = some (found, rest)) : rest.length < body.length := by
  obtain ⟨first, inner, close, tail, hlines, _, hinner, hclose, _, rfl⟩ := split?_eq_some_iff.mp h
  have hglued : Quiet (block ++ delimiter) := hquiet.append_of_open hne hopen (by decide)
  have hlong : Quiet (block ++ delimiter ++ ['\n']) :=
    hglued.append (quiet_line (s := []) List.not_mem_nil (.inl (by decide)))
  have hparts : inner ++ close :: tail = lines (block ++ delimiter ++ ['\n']) ++ lines body := by
    rw [← lines_append (by simp)]
    rw [lines_framed] at hlines
    simpa using (List.cons.inj hlines).2.symm
  have hnotin : close ∉ lines (block ++ delimiter ++ ['\n']) := fun hmem => by
    rw [(hlong close hmem).isDelimiter_eq_false] at hclose
    cases hclose
  obtain ⟨before, hbody⟩ : ∃ before, lines body = before ++ close :: tail := by
    obtain ⟨between, hinside, htail⟩ | ⟨before, _, hbody⟩ := List.append_eq_append_iff.mp hparts
    · cases between with
      | nil => exact ⟨[], htail.symm⟩
      | cons x between =>
        obtain ⟨rfl, _⟩ := List.cons.inj htail
        exact absurd (hinside ▸ by simp) hnotin
    · exact ⟨before, hbody⟩
  have hflat := congrArg List.flatten hbody
  rw [flatten_lines, List.flatten_append, List.flatten_cons] at hflat
  have hclose' : close ≠ [] := by
    rintro rfl
    cases hclose
  have := List.length_pos_iff.mpr hclose'
  rw [hflat]
  simp only [List.length_append]
  omega

end Framed

end FrontMatter

open FrontMatter

namespace Yaml.Printer

/-! ## Written options -/

/-- Lines behind the first one start with a blank, or with a break, or not at all. -/
theorem quiet_append_indent (atStart : Bool) {s : Text} (h : '\n' ∉ s) (hs : Guarded s)
    (hstart : s ≠ [] ∨ atStart = true) (x : Text) : Quiet (s ++ indent atStart x) := by
  induction x generalizing s atStart with
  | nil => simpa [indent] using quiet_of_not_mem h hs
  | cons c x ih =>
    rw [indent]
    by_cases hindented : (atStart && !isBreak c) = true
    · rw [if_pos hindented]
      have hc : c ≠ '\n' := by
        rintro rfl
        simp [isBreak] at hindented
      have := ih false (s := s ++ [' ', ' ', c]) (by simp [h, Ne.symm hc])
        (.inr ⟨' ', by simp, rfl⟩) (.inl (by simp))
      simpa using this
    · rw [if_neg hindented]
      by_cases hc : c = '\n'
      · subst hc
        have hrest := ih true (s := []) List.not_mem_nil (.inl (by decide)) (.inr rfl)
        change Quiet (s ++ '\n' :: indent true x)
        simpa using (quiet_line h hs).append hrest
      · have hguarded : Guarded (s ++ [c]) := by
          cases s with
          | cons d s => exact hs.append (List.cons_ne_nil d s) [c]
          | nil =>
            left
            rintro heq
            simp only [List.nil_append, List.head?_cons, Option.some.injEq] at heq
            subst heq
            simp_all [isBreak]
        have := ih (isBreak c) (s := s ++ [c]) (by simp [h, Ne.symm hc]) hguarded (.inl (by simp))
        simpa using this

theorem quiet_indent (x : Text) : Quiet (indent true x) := by
  have := quiet_append_indent true (s := []) List.not_mem_nil (.inl (by decide)) (.inr rfl) x
  simpa using this

theorem hexText_ne_newline (width n : Nat) : '\n' ∉ hexText width n := by
  have hdigit : ∀ k < 16, ((Nat.toDigits 16 k).headD '0').toUpper ≠ '\n' := by decide +kernel
  intro h
  obtain ⟨i, _, hi⟩ := List.mem_map.mp h
  exact hdigit _ (Nat.mod_lt _ (by decide)) hi

theorem newline_not_mem_escaped (c : Char) : '\n' ∉ escaped c := by
  rw [escaped]
  split
  · next hc =>
    intro h
    rw [List.mem_singleton] at h
    subst h
    simp [isBreak] at hc
  · split
    · next name _ hfind =>
      have hmem := List.mem_of_find?_eq_some hfind
      intro h
      simp only [List.mem_cons, List.not_mem_nil, or_false] at h
      obtain h | h := h
      · exact absurd h (by decide)
      · subst h
        simp [escapes] at hmem
    · have hmark : '\n' ≠ '\\' ∧ '\n' ≠ 'x' ∧ '\n' ≠ 'u' ∧ '\n' ≠ 'U' := by decide
      split
      · simp [hmark, hexText_ne_newline]
      · split <;> simp [hmark, hexText_ne_newline]

/-- A text of one line is written on one line. -/
theorem newline_not_mem_scalar {t : Text} (h : '\n' ∉ t) : '\n' ∉ scalar t := by
  have hquote : '\n' ≠ '\'' ∧ '\n' ≠ '"' := by decide
  rw [scalar]
  split
  · exact h
  · simp only [List.cons_append, List.mem_cons, List.mem_append, List.mem_flatMap, hquote, false_or,
      List.not_mem_nil, or_false]
    rintro ⟨c, hc, hmem⟩
    split at hmem
    · simp [hquote] at hmem
    · exact h (List.mem_singleton.mp hmem ▸ hc)
  · simp only [List.cons_append, List.mem_cons, List.mem_append, List.mem_flatMap, hquote, false_or,
      List.not_mem_nil, or_false]
    rintro ⟨c, _, hmem⟩
    exact newline_not_mem_escaped c hmem
  · next hstyle =>
    rw [Style.of, if_neg h] at hstyle
    split at hstyle
    · cases hstyle
    · split at hstyle <;> cases hstyle

theorem newline_not_mem_of_isSimpleKey {key : Text} (h : isSimpleKey key = true) : '\n' ∉ key := by
  intro hmem
  have : key.any isBreak = true := List.any_eq_true.mpr ⟨'\n', hmem, rfl⟩
  simp [isSimpleKey, this] at h

theorem quiet_blockItems (items : List Data) : Quiet (blockItems items) := by
  induction items with
  | nil => exact quiet_nil
  | cons d ds ih =>
    have hitem : Quiet (['-', ' '] ++ indent false (block d)) :=
      quiet_append_indent false (by decide) (.inl (by decide)) (.inl (by simp)) _
    simpa [blockItems] using hitem.append ih

theorem quiet_entry (key : Text) (d : Data) : Quiet (entry key d (block d)) := by
  unfold entry
  split
  · next hsimple =>
    have hscalar := newline_not_mem_scalar (newline_not_mem_of_isSimpleKey hsimple)
    have hcolon : isDelimiterChar ':' = false := rfl
    split
    · next items _ =>
      have hline : Quiet (scalar key ++ [':'] ++ ['\n']) :=
        quiet_line (by simp [hscalar]) (.inr ⟨':', by simp, hcolon⟩)
      simpa [block] using hline.append (quiet_blockItems (_ :: _))
    · have hline : Quiet (scalar key ++ [':'] ++ ['\n']) :=
        quiet_line (by simp [hscalar]) (.inr ⟨':', by simp, hcolon⟩)
      simpa using hline.append (quiet_indent _)
    · have := quiet_append_indent false (s := scalar key ++ [':', ' ']) (by simp [hscalar])
        (.inr ⟨':', by simp, hcolon⟩) (.inl (by simp)) (block d)
      simpa using this
  · have hmarked : Quiet (['?', ' '] ++ indent false (scalar key)) :=
      quiet_append_indent false (by decide) (.inl (by decide)) (.inl (by simp)) _
    have hkey : Quiet (['?', ' '] ++ endLine (indent false (scalar key))) := by
      rw [endLine]
      split
      · exact hmarked
      · rw [← List.append_assoc]
        exact hmarked.append (quiet_line (s := []) List.not_mem_nil (.inl (by decide)))
    have hvalue : Quiet ([':', ' '] ++ indent false (block d)) :=
      quiet_append_indent false (by decide) (.inl (by decide)) (.inl (by simp)) _
    simpa using hkey.append hvalue

theorem quiet_blockFields (fields : List (Text × Data)) : Quiet (blockFields fields) := by
  induction fields with
  | nil => exact quiet_nil
  | cons field ds ih => simpa [blockFields] using (quiet_entry field.1 field.2).append ih

end Yaml.Printer

end Scaffold
