import Scaffold.Proofs.FrontMatter.Delimiter

/-!
The cut that front matter makes in a text. A delimiter line is a mark, which is `===` with any number
of carriage returns behind it, and the newline that ends the line. Main statement: a text is split
exactly if it is made up of a delimiter line, whole lines none of which is one, a second delimiter
line and a body, and it can be made up so in one way only (`split?_partition`).
-/

namespace Scaffold.FrontMatter

/-- A delimiter without the newline that may end its line. -/
def IsMark (t : Text) : Prop := ∃ returns, t = delimiter ++ List.replicate returns '\r'

theorem IsMark.newline_not_mem {mark : Text} (h : IsMark mark) : '\n' ∉ mark := by
  obtain ⟨returns, rfl⟩ := h
  rw [List.mem_append, List.mem_replicate]
  rintro (h | ⟨_, h⟩)
  · exact absurd h (by decide)
  · exact absurd h (by decide)

theorem IsMark.ne_nil {mark : Text} (h : IsMark mark) : mark ≠ [] := by
  obtain ⟨returns, rfl⟩ := h
  exact List.cons_ne_nil _ _

theorem trimReturns_eq_iff {t : Text} : Text.trimEnd (· == '\r') t = delimiter ↔ IsMark t := by
  constructor
  · intro h
    obtain ⟨cut, ht, hcut⟩ := Text.exists_trimEnd_append (· == '\r') t
    have hreturns : cut = List.replicate cut.length '\r' :=
      List.eq_replicate_of_mem fun c hc => eq_of_beq (hcut c hc)
    exact ⟨cut.length, by rw [← hreturns, ← h]; exact ht⟩
  · rintro ⟨returns, rfl⟩
    refine Text.trimEnd_append (fun c hc => ?_) (by simp)
    obtain rfl : '=' = c := Option.some.inj hc
    rfl

section Line

variable {s : Text}

theorem trimNewlines_append (h : '\n' ∉ s) {ends : Text} (hends : ends.all (· == '\n') = true) :
    Text.trimEnd (· == '\n') (s ++ ends) = s := by
  refine Text.trimEnd_append (fun c hc => ?_) hends
  have hne : c ≠ '\n' := fun heq => h (heq ▸ List.mem_of_getLast? hc)
  exact beq_false_of_ne hne

/-- Whether a line is ended by a newline or by the text makes no difference. -/
theorem isDelimiter_append (h : '\n' ∉ s) {ends : Text} (hends : ends.all (· == '\n') = true) :
    isDelimiter (s ++ ends) = true ↔ IsMark s := by
  rw [isDelimiter, trimNewlines_append h hends, beq_iff_eq, trimReturns_eq_iff]

theorem isDelimiter_line (h : '\n' ∉ s) : isDelimiter (s ++ ['\n']) = true ↔ IsMark s :=
  isDelimiter_append h rfl

theorem isDelimiter_last (h : '\n' ∉ s) : isDelimiter s = true ↔ IsMark s := by
  have hends : ([] : Text).all (· == '\n') = true := rfl
  simpa using isDelimiter_append h hends

end Line

/-! ## Lines of a text and a text of lines -/

/-- Lines, each with its newline. -/
def unlines (ls : List Text) : Text := ls.flatMap (· ++ ['\n'])

theorem lines_unlines {ls : List Text} (h : ∀ line ∈ ls, '\n' ∉ line) (t : Text) :
    lines (unlines ls ++ t) = ls.map (· ++ ['\n']) ++ lines t := by
  induction ls with
  | nil => rfl
  | cons line ls ih =>
    obtain ⟨hline, hls⟩ := List.forall_mem_cons.mp h
    have hcut : unlines (line :: ls) ++ t = line ++ '\n' :: (unlines ls ++ t) := by
      simp [unlines]
    rw [hcut, lines_line hline, ih hls]
    rfl

/-- Ended lines are those of a text of lines. -/
theorem exists_unlines {P : Text → Prop} {ls : List Text}
    (h : ∀ line ∈ ls, ∃ s, line = s ++ ['\n'] ∧ P s) :
    ∃ inner, ls.flatten = unlines inner ∧ ∀ s ∈ inner, P s := by
  induction ls with
  | nil => exact ⟨[], rfl, nofun⟩
  | cons line ls ih =>
    obtain ⟨hline, hls⟩ := List.forall_mem_cons.mp h
    obtain ⟨s, rfl, hs⟩ := hline
    obtain ⟨inner, hinner, hall⟩ := ih hls
    refine ⟨s :: inner, ?_, List.forall_mem_cons.mpr ⟨hs, hall⟩⟩
    rw [List.flatten_cons, hinner]
    rfl

/-- Only the last line may be without its newline. -/
theorem exists_of_mem_lines {t : Text} {before after : List Text} {line : Text}
    (h : lines t = before ++ line :: after) :
    ∃ s, '\n' ∉ s ∧ (line = s ++ ['\n'] ∨ line = s ∧ after = []) := by
  induction t using line_induction generalizing before with
  | last s hs =>
    by_cases hne : s = []
    · rw [hne] at h
      simp [lines] at h
    · rw [lines_of_not_mem hs hne, List.singleton_eq_append_iff] at h
      simp only [List.cons.injEq, reduceCtorEq, and_false, or_false] at h
      obtain ⟨_, hline, hafter⟩ := h
      exact ⟨s, hs, .inr ⟨hline, hafter⟩⟩
  | line s t hs ih =>
    rw [lines_line hs] at h
    cases before with
    | nil =>
      obtain ⟨hline, _⟩ := List.cons.inj h
      exact ⟨s, hs, .inl hline.symm⟩
    | cons first before => exact ih (List.cons.inj h).2

/-! ## The cut -/

/-- Front matter and a body: a delimiter line, whole lines that are no delimiters, a second delimiter
line, which is without a newline only at the end of the text, and what follows. -/
structure Partition (first block close body : Text) : Prop where
  first_eq : ∃ mark, IsMark mark ∧ first = mark ++ ['\n']
  block_eq : ∃ inner, block = unlines inner ∧ ∀ line ∈ inner, '\n' ∉ line ∧ ¬ IsMark line
  close_eq : ∃ mark, IsMark mark ∧ (close = mark ++ ['\n'] ∨ close = mark ∧ body = [])

section Partition

variable {first block close body : Text}

/-- The parts of the text are lines of it. -/
theorem Partition.lines_eq (h : Partition first block close body) :
    ∃ inner, block = List.flatten inner ∧ (∀ line ∈ inner, isDelimiter line = false) ∧
      lines (first ++ block ++ close ++ body) = first :: (inner ++ close :: lines body) ∧
      isDelimiter first = true ∧ isDelimiter close = true := by
  obtain ⟨⟨mark, hmark, rfl⟩, ⟨inner, rfl, hinner⟩, last, hlast, hclose⟩ := h
  have hnewline := hmark.newline_not_mem
  have hends : isDelimiter close = true ∧ lines (close ++ body) = close :: lines body := by
    obtain rfl | ⟨rfl, rfl⟩ := hclose
    · refine ⟨(isDelimiter_line hlast.newline_not_mem).mpr hlast, ?_⟩
      rw [List.append_assoc]
      exact lines_line hlast.newline_not_mem body
    · refine ⟨(isDelimiter_last hlast.newline_not_mem).mpr hlast, ?_⟩
      rw [List.append_nil, lines_of_not_mem hlast.newline_not_mem hlast.ne_nil]
      rfl
  refine ⟨inner.map (· ++ ['\n']), List.flatMap_def, ?_, ?_,
    (isDelimiter_line hnewline).mpr hmark, hends.1⟩
  · intro line hline
    obtain ⟨s, hs, rfl⟩ := List.mem_map.mp hline
    obtain ⟨hnot, hother⟩ := hinner s hs
    exact Bool.eq_false_iff.mpr fun hdelimiter => hother ((isDelimiter_line hnot).mp hdelimiter)
  · rw [List.append_assoc, List.append_assoc, List.append_assoc, List.singleton_append,
      lines_line hnewline, lines_unlines fun line hline => (hinner line hline).1, hends.2]

theorem Partition.split?_eq (h : Partition first block close body) :
    split? (first ++ block ++ close ++ body) = some (block, body) := by
  obtain ⟨inner, rfl, hinner, hlines, hfirst, hclose⟩ := h.lines_eq
  exact split?_eq_some_iff.mpr ⟨first, inner, close, lines body, hlines, hfirst, hinner, hclose,
    rfl, (flatten_lines body).symm⟩

theorem exists_partition {t : Text} (h : split? t = some (block, body)) :
    ∃ first close, t = first ++ block ++ close ++ body ∧ Partition first block close body := by
  obtain ⟨first, inner, close, rest, hlines, hfirst, hinner, hclose, rfl, rfl⟩ :=
    split?_eq_some_iff.mp h
  have hflat := congrArg List.flatten hlines
  rw [flatten_lines] at hflat
  refine ⟨first, close, by simpa using hflat, ?_, ?_, ?_⟩
  · have hcut : lines t = [] ++ first :: (inner ++ close :: rest) := hlines
    obtain ⟨mark, hmark, rfl | ⟨_, hnil⟩⟩ := exists_of_mem_lines hcut
    · exact ⟨mark, (isDelimiter_line hmark).mp hfirst, rfl⟩
    · simp at hnil
  · have hline : ∀ line ∈ inner, ∃ s, line = s ++ ['\n'] ∧ '\n' ∉ s ∧ ¬ IsMark s := by
      intro line hmem
      obtain ⟨before, after, rfl⟩ := List.append_of_mem hmem
      have hcut : lines t = (first :: before) ++ line :: (after ++ close :: rest) := by
        simp [hlines]
      obtain ⟨s, hs, rfl | ⟨_, hnil⟩⟩ := exists_of_mem_lines hcut
      · refine ⟨s, rfl, hs, fun hmark => ?_⟩
        rw [← isDelimiter_line hs, hinner _ hmem] at hmark
        cases hmark
      · simp at hnil
    exact exists_unlines hline
  · have hcut : lines t = (first :: inner) ++ close :: rest := hlines
    obtain ⟨mark, hmark, rfl | ⟨rfl, rfl⟩⟩ := exists_of_mem_lines hcut
    · exact ⟨mark, (isDelimiter_line hmark).mp hclose, .inl rfl⟩
    · exact ⟨close, (isDelimiter_last hmark).mp hclose, .inr ⟨rfl, rfl⟩⟩

theorem Partition.unique {first' block' close' body' : Text} (h : Partition first block close body)
    (h' : Partition first' block' close' body')
    (ht : first ++ block ++ close ++ body = first' ++ block' ++ close' ++ body') :
    first = first' ∧ block = block' ∧ close = close' ∧ body = body' := by
  obtain ⟨_, _, _, hlines, _⟩ := h.lines_eq
  obtain ⟨_, _, _, hlines', _⟩ := h'.lines_eq
  have hsplit := h.split?_eq
  rw [ht, h'.split?_eq] at hsplit
  obtain ⟨rfl, rfl⟩ := Prod.mk.inj (Option.some.inj hsplit)
  obtain rfl : first = first' := by
    rw [ht, hlines'] at hlines
    exact (List.cons.inj hlines).1.symm
  exact ⟨rfl, rfl, List.append_cancel_left (List.append_cancel_right ht), rfl⟩

/-- A text is split into block and body exactly if it is put together of front matter with that
block and of that body; whatever is put together so is split again where it was joined, and no
text is put together in two ways. -/
theorem split?_partition :
    (∀ t block body, split? t = some (block, body) ↔
      ∃ first close, t = first ++ block ++ close ++ body ∧ Partition first block close body) ∧
    (∀ first block close body, Partition first block close body →
      split? (first ++ block ++ close ++ body) = some (block, body)) ∧
    ∀ first block close body first' block' close' body',
      Partition first block close body → Partition first' block' close' body' →
      first ++ block ++ close ++ body = first' ++ block' ++ close' ++ body' →
      first = first' ∧ block = block' ∧ close = close' ∧ body = body' := by
  refine ⟨fun t block body => ⟨exists_partition, ?_⟩, ?_, ?_⟩
  · rintro ⟨first, close, rfl, h⟩
    exact h.split?_eq
  · intro first block close body h
    exact h.split?_eq
  · intro first block close body first' block' close' body' h h' ht
    exact h.unique h' ht

/-- A line of four signs is none, and delimiters behind the second one are left to the body. -/
theorem split?_partition_returns :
    Partition "===\r\n".toList "====\n\n".toList "===\n".toList "===\nx".toList ∧
    split? "===\r\n====\n\n===\n===\nx".toList = some ("====\n\n".toList, "===\nx".toList) := by
  have hlines : ∀ line ∈ ["====".toList, []], '\n' ∉ line ∧ isDelimiter line = false := by decide
  have h : Partition "===\r\n".toList "====\n\n".toList "===\n".toList "===\nx".toList := by
    refine ⟨⟨_, ⟨1, rfl⟩, rfl⟩, ⟨["====".toList, []], rfl, fun line hline => ?_⟩,
      ⟨_, ⟨0, rfl⟩, .inl rfl⟩⟩
    obtain ⟨hnot, hother⟩ := hlines line hline
    refine ⟨hnot, fun hmark => ?_⟩
    rw [(isDelimiter_last hnot).mpr hmark] at hother
    cases hother
  exact ⟨h, split?_partition.2.1 _ _ _ _ h⟩

end Partition

end Scaffold.FrontMatter
