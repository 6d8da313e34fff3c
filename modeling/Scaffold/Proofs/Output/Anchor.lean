import Scaffold.Proofs.Output.Insertion

/-!
Insertions at one keyword after another. The first line with the keyword is where they all go, and
it stays the first one as long as no content brings the keyword along. Main statements: what one
insertion does around that line (`Anchored.lines_before`, `Anchored.lines_after`), and what any
number of them do (`insertEach_keyword`).
-/

namespace Scaffold

namespace Text

theorem infix_join (sep : Char) {piece : Text} {pieces : List Text} (h : piece ∈ pieces) :
    piece <:+: join sep pieces := by
  induction pieces with
  | nil => cases h
  | cons first pieces ih =>
    cases pieces with
    | nil =>
      rw [List.mem_singleton.mp h]
      exact List.infix_rfl
    | cons next pieces =>
      rw [join_cons sep first (List.cons_ne_nil next pieces)]
      rcases List.mem_cons.mp h with rfl | h
      · exact (List.prefix_append _ _).isInfix
      · exact (ih h).trans ((List.suffix_cons sep _).trans (List.suffix_append first _)).isInfix

theorem infix_of_mem_split {sep : Char} {piece t : Text} (h : piece ∈ split sep t) :
    piece <:+: t := by
  have hjoin := infix_join sep h
  rwa [join_split] at hjoin

end Text

namespace Position

/-- Contents inserted one after the other, each into what the one before has left. -/
def insertEach (position : Position) (existing : Option Text) (contents : List Text) :
    Option Text :=
  contents.foldl (fun existing content => some (position.insert existing content)) existing

/-- The text in lines, with its first line that contains the keyword in their midst. -/
structure Anchored (keyword t : Text) (above : List Text) (line : Text) (below : List Text) :
    Prop where
  lines_eq : lines t = above ++ line :: below
  above_free : ∀ other ∈ above, Text.contains keyword other = false
  line_has : Text.contains keyword line = true

variable {keyword other t content line : Text} {above below contents : List Text}

theorem exists_anchored (h : ∃ line ∈ lines t, Text.contains keyword line = true) :
    ∃ above line below, Anchored keyword t above line below := by
  obtain ⟨line, hfind⟩ := Option.isSome_iff_exists.mp (List.find?_isSome.mpr h)
  obtain ⟨hline, above, below, hlines, habove⟩ := List.find?_eq_some_iff_append.mp hfind
  refine ⟨above, line, below, hlines, fun other hother => ?_, hline⟩
  simpa using habove other hother

/-- A line of a text without the keyword has no keyword either. -/
theorem free_of_mem_lines (h : Text.contains keyword content = false)
    (hline : line ∈ lines content) : Text.contains keyword line = false := by
  refine Bool.eq_false_iff.mpr fun hhas => ?_
  have hinfix := (Text.contains_iff.mp hhas).trans (Text.infix_of_mem_split hline)
  rw [Text.contains_iff.mpr hinfix] at h
  cases h

namespace Anchored

theorem linesBefore?_eq (h : Anchored keyword t above line below) :
    linesBefore? keyword (lines t) = some above.length := by
  have habove : above.findIdx? (Text.contains keyword) = none :=
    List.findIdx?_eq_none_iff.mpr h.above_free
  rw [linesBefore?, h.lines_eq, List.findIdx?_append, habove, List.findIdx?_cons, h.line_has]
  simp

theorem lines_before (h : Anchored keyword t above line below) (content : Text) :
    lines ((Position.before keyword).insert (some t) content) =
      above ++ lines content ++ line :: below := by
  rw [insert, h.linesBefore?_eq, lines_insertAt, h.lines_eq, Option.getD_some, List.take_left,
    List.drop_left]

theorem lines_after (h : Anchored keyword t above line below) (content : Text) :
    lines ((Position.after keyword).insert (some t) content) =
      above ++ line :: (lines content ++ below) := by
  have hlines : lines t = (above ++ [line]) ++ below := by rw [h.lines_eq]; simp
  have hlength : above.length + 1 = (above ++ [line]).length := by simp
  rw [insert, h.linesBefore?_eq, lines_insertAt, hlines, Option.map_some, Option.getD_some, hlength,
    List.take_left, List.drop_left]
  simp

/-- The new lines join those above. A keyword that they do not have keeps its first line, be it the
one of the insertion or another on the same line. -/
theorem insert_before (h : Anchored keyword t above line below)
    (hother : Anchored other t above line below) (hfree : Text.contains other content = false) :
    Anchored other ((Position.before keyword).insert (some t) content) (above ++ lines content)
      line below := by
  refine ⟨h.lines_before content, fun l hl => ?_, hother.line_has⟩
  rcases List.mem_append.mp hl with hl | hl
  · exact hother.above_free l hl
  · exact free_of_mem_lines hfree hl

theorem insert_after (h : Anchored keyword t above line below)
    (hother : Anchored other t above line below) (content : Text) :
    Anchored other ((Position.after keyword).insert (some t) content) above line
      (lines content ++ below) :=
  ⟨h.lines_after content, hother.above_free, hother.line_has⟩

theorem insertEach_before (h : Anchored keyword t above line below)
    (hfree : ∀ content ∈ contents, Text.contains keyword content = false) :
    ∃ r, insertEach (.before keyword) (some t) contents = some r ∧
      Anchored keyword r (above ++ contents.flatMap lines) line below := by
  induction contents generalizing t above with
  | nil =>
    refine ⟨t, rfl, ?_⟩
    rwa [List.flatMap_nil, List.append_nil]
  | cons content contents ih =>
    obtain ⟨r, hr, hanchored⟩ := ih (h.insert_before h (hfree content (List.mem_cons_self ..)))
      fun content hc => hfree content (List.mem_cons_of_mem _ hc)
    refine ⟨r, hr, ?_⟩
    rwa [List.flatMap_cons, ← List.append_assoc]

theorem insertEach_after (h : Anchored keyword t above line below) (contents : List Text) :
    ∃ r, insertEach (.after keyword) (some t) contents = some r ∧
      Anchored keyword r above line (contents.reverse.flatMap lines ++ below) := by
  induction contents generalizing t below with
  | nil => exact ⟨t, rfl, h⟩
  | cons content contents ih =>
    obtain ⟨r, hr, hanchored⟩ := ih (h.insert_after h content)
    refine ⟨r, hr, ?_⟩
    rw [List.reverse_cons, List.flatMap_append, List.flatMap_singleton, List.append_assoc]
    exact hanchored

end Anchored

theorem anchored_keyword (h : '\n' ∉ keyword) : Anchored keyword keyword [] keyword [] :=
  ⟨Text.split_of_not_mem h, nofun, Text.contains_iff.mpr List.infix_rfl⟩

theorem anchored_keyword_line (h : '\n' ∉ keyword) :
    Anchored keyword (keyword ++ ['\n']) [] keyword [[]] := by
  refine ⟨?_, nofun, Text.contains_iff.mpr List.infix_rfl⟩
  rw [lines, Text.split_append_cons, Text.split_of_not_mem h]
  rfl

/-- What is made up for a missing file is what a file with the keyword's line alone would get. -/
theorem insert_missing (h : '\n' ∉ keyword) (content : Text) :
    (Position.before keyword).insert none content =
        (Position.before keyword).insert (some (keyword ++ ['\n'])) content ∧
      (Position.after keyword).insert none content =
        (Position.after keyword).insert (some keyword) content := by
  constructor
  · rw [insert, insert, (anchored_keyword_line h).linesBefore?_eq, insertAt,
      (anchored_keyword_line h).lines_eq]
    simp [unlines, Text.join]
  · rw [insert, insert, (anchored_keyword h).linesBefore?_eq, insertAt,
      (anchored_keyword h).lines_eq]
    simp [unlines, Text.join]

theorem insertEach_missing {position : Position} {t : Text} (contents : List Text)
    (h : ∀ content, position.insert none content = position.insert (some t) content) :
    (position.insertEach none contents).getD t =
      (position.insertEach (some t) contents).getD t := by
  cases contents with
  | nil => rfl
  | cons content contents => rw [insertEach, insertEach, List.foldl_cons, List.foldl_cons, h]

/-- Insertions above the first line with the keyword stand there in their order, those below it in
the reverse order, and all else is as it was. A missing file counts as one that has the keyword's
line and, for insertions above it, the newline behind. -/
theorem insertEach_keyword {start : Option Text} (hkeyword : '\n' ∉ keyword)
    (hfree : ∀ content ∈ contents, Text.contains keyword content = false)
    (hstart : ∀ t, start = some t → ∃ line ∈ lines t, Text.contains keyword line = true) :
    (∃ above line below, Anchored keyword (start.getD (keyword ++ ['\n'])) above line below ∧
      lines ((insertEach (.before keyword) start contents).getD (keyword ++ ['\n'])) =
        above ++ contents.flatMap lines ++ line :: below) ∧
    ∃ above line below, Anchored keyword (start.getD keyword) above line below ∧
      lines ((insertEach (.after keyword) start contents).getD keyword) =
        above ++ line :: (contents.reverse.flatMap lines ++ below) := by
  cases start with
  | none =>
    obtain ⟨r, hr, hbefore⟩ := (anchored_keyword_line hkeyword).insertEach_before hfree
    obtain ⟨s, hs, hafter⟩ := (anchored_keyword hkeyword).insertEach_after contents
    refine ⟨⟨[], keyword, [[]], anchored_keyword_line hkeyword, ?_⟩,
      [], keyword, [], anchored_keyword hkeyword, ?_⟩
    · rw [insertEach_missing contents fun content => (insert_missing hkeyword content).1, hr]
      exact hbefore.lines_eq
    · rw [insertEach_missing contents fun content => (insert_missing hkeyword content).2, hs]
      exact hafter.lines_eq
  | some t =>
    obtain ⟨above, line, below, h⟩ := exists_anchored (hstart t rfl)
    obtain ⟨r, hr, hbefore⟩ := h.insertEach_before hfree
    obtain ⟨s, hs, hafter⟩ := h.insertEach_after contents
    refine ⟨⟨above, line, below, h, ?_⟩, above, line, below, h, ?_⟩
    · rw [hr]
      exact hbefore.lines_eq
    · rw [hs]
      exact hafter.lines_eq

private def marked : Text := "a\n# mark\nb\nmark".toList

private def additions : List Text := ["x\ny".toList, "z".toList]

theorem insertEach_mark :
    (∃ above line below, Anchored "mark".toList marked above line below ∧
      lines ((insertEach (.before "mark".toList) (some marked) additions).getD
          ("mark".toList ++ ['\n'])) = above ++ additions.flatMap lines ++ line :: below) ∧
    ∃ above line below, Anchored "mark".toList marked above line below ∧
      lines ((insertEach (.after "mark".toList) (some marked) additions).getD "mark".toList) =
        above ++ line :: (additions.reverse.flatMap lines ++ below) := by
  have hkeyword : '\n' ∉ "mark".toList := by decide
  have hfree : ∀ content ∈ additions, Text.contains "mark".toList content = false := by decide
  have hline : ∃ line ∈ lines marked, Text.contains "mark".toList line = true := by decide
  have hstart : ∀ t, some marked = some t →
      ∃ line ∈ lines t, Text.contains "mark".toList line = true := by
    intro t ht
    rwa [← Option.some.inj ht]
  exact insertEach_keyword hkeyword hfree hstart

example : insertEach (.before "mark".toList) (some marked) additions =
    some "a\nx\ny\nz\n# mark\nb\nmark".toList := by decide

example : insertEach (.after "mark".toList) (some marked) additions =
    some "a\n# mark\nz\nx\ny\nb\nmark".toList := by decide

end Position

end Scaffold
