import Scaffold.Proofs.Render.Pending
import Scaffold.Proofs.Tag.Recognition

/-!
The extent of a tag: where it stands in its source, and what its text says without the source. Main
statement: tags stand one behind the other, each has the text of its span, and that text is read as
the same tag wherever it stands, so that it alone decides what the tag asks for (`scan_extents`).
-/

namespace Scaffold

/-- A tag has an inside of its own between its two marks. -/
theorem Grammar.Tag.exists_inside (d : Grammar.Tag) :
    ∃ inside, d.text = ['{', '?'] ++ inside ++ ['?', '}'] := by
  obtain ⟨blanks, name, rest⟩ := d
  cases rest with
  | parameter default ending =>
    refine ⟨blanks.1 ++ (name.text ++ (defaultText default ++
      (ending.filters.flatMap FilterPart.text ++ ending.marks.1))), ?_⟩
    simp [text, Rest.text, Ending.text]
  | helper args ending =>
    refine ⟨blanks.1 ++ (name.text ++ ('(' :: (args.text ++
      (ending.filters.flatMap FilterPart.text ++ ending.marks.1)))), ?_⟩
    simp [text, Rest.text, Ending.text]

namespace Tag

/-- The span of the tag holds whole characters of the source, and these are its text. -/
def StandsIn (source : Text) (tag : Tag) : Prop :=
  ∃ before after, source = before ++ tag.code ++ after ∧ tag.start = Text.bytes before ∧
    tag.stop = Text.bytes (before ++ tag.code)

variable {source : Text} {tag : Tag}

theorem standsIn_of_mem_scan (h : tag ∈ scan source) : tag.StandsIn source := by
  obtain ⟨before, rest, after, _, hsource, _, _, rfl⟩ := mem_scan_iff.mp h
  exact ⟨before, after, hsource, rfl, (Text.bytes_append _ _).symm⟩

/-- The text of a tag is one whole tag, and nothing of the source goes into its tokens. -/
theorem isWhole_of_mem_scan (h : tag ∈ scan source) :
    IsWhole tag.code ⟨tag.tokens, tag.code, 0, Text.bytes tag.code⟩ := by
  obtain ⟨rest, tokens, hcode, htokens, hrest⟩ := exists_rest_of_mem_scan h
  refine isWhole_iff.mpr ⟨rest, tokens, hcode, hrest, ?_⟩
  rw [htokens]

theorem exists_derivation_of_mem_scan (h : tag ∈ scan source) :
    ∃ d : Grammar.Tag, d.text = tag.code ∧ d.tokens = tag.tokens := by
  have hwhole := isWhole_of_mem_scan h
  obtain ⟨d, hd⟩ := derived_of_isWhole hwhole
  have hscan := (isWhole_derived d).1
  rw [hd, hwhole.1] at hscan
  exact ⟨d, hd, (congrArg Tag.tokens (List.cons.inj hscan).1).symm⟩

theorem exists_inside_of_mem_scan (h : tag ∈ scan source) :
    ∃ inside, tag.code = ['{', '?'] ++ inside ++ ['?', '}'] := by
  obtain ⟨d, hd, _⟩ := exists_derivation_of_mem_scan h
  rw [← hd]
  exact d.exists_inside

/-- Tags stand in their source one behind the other, each on the span that it gives, and none needs
the source to be read: tags of one text ask for the same, in one source or in two. -/
theorem scan_extents (source : Text) :
    ((scan source).Pairwise fun a b => a.start < b.start ∧ a.stop ≤ b.start) ∧
    (∀ tag ∈ scan source, tag.start < tag.stop ∧ tag.StandsIn source ∧
      (∃ inside, tag.code = ['{', '?'] ++ inside ++ ['?', '}']) ∧
      IsWhole tag.code ⟨tag.tokens, tag.code, 0, Text.bytes tag.code⟩) ∧
    ∀ other, ∀ a ∈ scan source, ∀ b ∈ scan other, a.code = b.code →
      Placeholder.ofTag a = Placeholder.ofTag b := by
  refine ⟨(scan_starts source).and (scan_apart source), fun tag h => ?_, fun other a ha b hb => ?_⟩
  · exact ⟨start_lt_stop h, standsIn_of_mem_scan h, exists_inside_of_mem_scan h,
      isWhole_of_mem_scan h⟩
  · exact Placeholder.ofTag_eq_of_code_eq ha hb

/-- An attempt that is abandoned, and letters of two bytes in front of each of two like tags. -/
private def repeated : Text := "\x7b?x!é\x7b?a?\x7dü\x7b?a?\x7d".toList

private def earlier : Tag :=
  ⟨[.opening, .key .parameter ['a'], .closing], "\x7b?a?\x7d".toList, 6, 11⟩

private def later : Tag :=
  ⟨[.opening, .key .parameter ['a'], .closing], "\x7b?a?\x7d".toList, 13, 18⟩

theorem scan_extents_repeated : scan repeated = [earlier, later] ∧
    earlier.stop ≤ later.start ∧ earlier.StandsIn repeated ∧ later.StandsIn repeated ∧
    IsWhole later.code ⟨later.tokens, later.code, 0, Text.bytes later.code⟩ ∧
    Placeholder.ofTag earlier = Placeholder.ofTag later := by
  have hscan : scan repeated = [earlier, later] := by decide
  obtain ⟨hapart, hplaced, hsame⟩ := scan_extents repeated
  have hearlier : earlier ∈ scan repeated := by simp [hscan]
  have hlater : later ∈ scan repeated := by simp [hscan]
  rw [hscan] at hapart
  refine ⟨hscan, ?_, (hplaced _ hearlier).2.1, (hplaced _ hlater).2.1, (hplaced _ hlater).2.2.2,
    hsame repeated _ hearlier _ hlater rfl⟩
  exact (List.rel_of_pairwise_cons hapart (List.mem_singleton_self later)).2

end Tag

end Scaffold
