import Scaffold.Proofs.Tag.Spans
import Scaffold.Stub

/-!
The tags of a stub in the order of their substitution. Main statements: each text of a tag is in
the list once (`pending_nodup`), none is missing (`code_mem_pending`), longer ones come first
(`pending_sorted`), and tags of one text ask for the same (`ofTag_eq_of_code_eq`).
-/

namespace Scaffold

namespace Tag

/-- What is known of a tag of a source by itself. -/
theorem exists_rest_of_mem_scan {source : Text} {tag : Tag} (h : tag ∈ scan source) :
    ∃ rest tokens, tag.code = '{' :: '?' :: rest ∧ tag.tokens = .opening :: tokens ∧
      ScanState.opened.finish? rest = some tokens := by
  obtain ⟨_, rest, _, tokens, _, _, hrest, rfl⟩ := mem_scan_iff.mp h
  exact ⟨rest, tokens, rfl, rfl, hrest⟩

/-- No tag of a source is the beginning of another one. -/
theorem code_eq_of_begins {source : Text} {a b : Tag} (ha : a ∈ scan source)
    (hb : b ∈ scan source) (h : a.code <+: b.code) : a.code = b.code := by
  obtain ⟨r, _, hacode, _, hr⟩ := exists_rest_of_mem_scan ha
  obtain ⟨s, _, hbcode, _, hs⟩ := exists_rest_of_mem_scan hb
  obtain ⟨u, hu⟩ := h
  rw [hacode, hbcode] at hu
  have hrs : r ++ u = s := (List.cons.inj (List.cons.inj hu).2).2
  have hnil : u = [] := ScanState.finish?_unextended hr (hrs ▸ hs)
  rw [hacode, hbcode, ← hrs, hnil, List.append_nil]

/-- The text of a tag decides its tokens, in whatever source it stands. -/
theorem tokens_eq_of_code_eq {source other : Text} {a b : Tag} (ha : a ∈ scan source)
    (hb : b ∈ scan other) (h : a.code = b.code) : a.tokens = b.tokens := by
  obtain ⟨r, k, hacode, hatokens, hr⟩ := exists_rest_of_mem_scan ha
  obtain ⟨s, l, hbcode, hbtokens, hs⟩ := exists_rest_of_mem_scan hb
  rw [hacode, hbcode] at h
  obtain rfl : r = s := (List.cons.inj (List.cons.inj h).2).2
  obtain rfl : k = l := Option.some.inj (hr.symm.trans hs)
  rw [hatokens, hbtokens]

end Tag

namespace Placeholder

theorem addToken_code (p : Placeholder) (t : Token) :
    (p.addToken t).code = p.code ∧ (p.addToken t).synthetic = p.synthetic := by
  cases t with
  | key kind name =>
    rw [addToken]
    split <;> exact ⟨rfl, rfl⟩
  | argument arg =>
    rw [addToken, addArgument]
    split <;> exact ⟨rfl, rfl⟩
  | _ => exact ⟨rfl, rfl⟩

theorem ofTag_code (tag : Tag) :
    (ofTag tag).code = tag.code ∧ (ofTag tag).synthetic = false := by
  have hfold (tokens : List Token) (p : Placeholder) :
      (tokens.foldl addToken p).code = p.code ∧
        (tokens.foldl addToken p).synthetic = p.synthetic := by
    induction tokens generalizing p with
    | nil => exact ⟨rfl, rfl⟩
    | cons t tokens ih =>
      obtain ⟨hcode, hsynthetic⟩ := p.addToken_code t
      rw [List.foldl_cons, (ih _).1, (ih _).2]
      exact ⟨hcode, hsynthetic⟩
  exact hfold tag.tokens (blank tag.code)

theorem ofTag_eq_of_code_eq {source other : Text} {a b : Tag} (ha : a ∈ Tag.scan source)
    (hb : b ∈ Tag.scan other) (h : a.code = b.code) : ofTag a = ofTag b := by
  rw [ofTag, ofTag, h, Tag.tokens_eq_of_code_eq ha hb h]

theorem parse_filter (source : Text) :
    (parse source).filter (!·.synthetic) = (Tag.scan source).map ofTag := by
  have htags : ((Tag.scan source).map ofTag).filter (!·.synthetic) =
      (Tag.scan source).map ofTag := by
    refine List.filter_eq_self.mpr fun p hp => ?_
    obtain ⟨tag, _, rfl⟩ := List.mem_map.mp hp
    rw [(ofTag_code tag).2]; rfl
  have hsynthetic (names : List Text) :
      (names.map synthesize).filter (!·.synthetic) = [] := by
    refine List.filter_eq_nil_iff.mpr fun p hp => ?_
    obtain ⟨name, _, rfl⟩ := List.mem_map.mp hp
    exact Bool.false_ne_true
  rw [parse, List.filter_append, htags, hsynthetic, List.append_nil]

end Placeholder

namespace Stub

theorem distinct_of_mem {seen : List Text} {p : Placeholder} (ps : List Placeholder)
    (h : p.code ∈ seen) : distinct seen (p :: ps) = distinct seen ps := if_pos h

theorem distinct_of_not_mem {seen : List Text} {p : Placeholder} (ps : List Placeholder)
    (h : p.code ∉ seen) : distinct seen (p :: ps) = p :: distinct (p.code :: seen) ps := if_neg h

theorem distinct_sublist (seen : List Text) (ps : List Placeholder) :
    (distinct seen ps).Sublist ps := by
  induction ps generalizing seen with
  | nil => exact .slnil
  | cons p ps ih =>
    by_cases hp : p.code ∈ seen
    · rw [distinct_of_mem ps hp]
      exact (ih seen).cons p
    · rw [distinct_of_not_mem ps hp]
      exact (ih _).cons_cons p

theorem not_seen_of_mem_distinct {seen : List Text} {ps : List Placeholder} {p : Placeholder}
    (h : p ∈ distinct seen ps) : p.code ∉ seen := by
  induction ps generalizing seen with
  | nil => cases h
  | cons q ps ih =>
    by_cases hq : q.code ∈ seen
    · rw [distinct_of_mem ps hq] at h
      exact ih h
    · rw [distinct_of_not_mem ps hq] at h
      rcases List.mem_cons.mp h with rfl | h
      · exact hq
      · exact fun hp => ih h (List.mem_cons_of_mem _ hp)

theorem distinct_nodup (seen : List Text) (ps : List Placeholder) :
    (distinct seen ps).Pairwise fun p q => p.code ≠ q.code := by
  induction ps generalizing seen with
  | nil => exact .nil
  | cons p ps ih =>
    by_cases hp : p.code ∈ seen
    · rw [distinct_of_mem ps hp]
      exact ih seen
    · rw [distinct_of_not_mem ps hp]
      refine .cons (fun q hq hcode => ?_) (ih _)
      exact not_seen_of_mem_distinct hq (hcode ▸ List.mem_cons_self ..)

theorem code_mem_distinct (seen : List Text) {ps : List Placeholder} {p : Placeholder}
    (h : p ∈ ps) : p.code ∈ seen ∨ ∃ q ∈ distinct seen ps, q.code = p.code := by
  induction ps generalizing seen with
  | nil => cases h
  | cons q ps ih =>
    by_cases hq : q.code ∈ seen
    · rw [distinct_of_mem ps hq]
      rcases List.mem_cons.mp h with rfl | h
      · exact .inl hq
      · exact ih seen h
    · rw [distinct_of_not_mem ps hq]
      rcases List.mem_cons.mp h with rfl | h
      · exact .inr ⟨p, List.mem_cons_self .., rfl⟩
      · rcases ih (q.code :: seen) h with hseen | ⟨r, hr, hcode⟩
        · rcases List.mem_cons.mp hseen with heq | hseen
          · exact .inr ⟨q, List.mem_cons_self .., heq.symm⟩
          · exact .inl hseen
        · exact .inr ⟨r, List.mem_cons_of_mem _ hr, hcode⟩

theorem mem_pending {s : Stub} {p : Placeholder} (h : p ∈ s.pending) :
    ∃ tag ∈ Tag.scan s.source, Placeholder.ofTag tag = p := by
  have hsorted := (distinct_sublist _ _).subset h
  have hmem := (List.mergeSort_perm _ _).mem_iff.mp hsorted
  rw [placeholders, Placeholder.parse_filter] at hmem
  exact List.mem_map.mp hmem

theorem code_mem_pending {s : Stub} {tag : Tag} (h : tag ∈ Tag.scan s.source) :
    ∃ p ∈ s.pending, p.code = tag.code := by
  have hmem : Placeholder.ofTag tag ∈ s.placeholders.filter (!·.synthetic) := by
    rw [placeholders, Placeholder.parse_filter]
    exact List.mem_map.mpr ⟨tag, h, rfl⟩
  have hsorted := (List.mergeSort_perm (s.placeholders.filter (!·.synthetic)) fun p q =>
    decide (Text.bytes q.code ≤ Text.bytes p.code)).mem_iff.mpr hmem
  rcases code_mem_distinct [] hsorted with hnil | ⟨p, hp, hcode⟩
  · cases hnil
  · exact ⟨p, hp, hcode.trans (Placeholder.ofTag_code tag).1⟩

theorem pending_nodup (s : Stub) : s.pending.Pairwise fun p q => p.code ≠ q.code :=
  distinct_nodup _ _

theorem pending_sorted (s : Stub) :
    s.pending.Pairwise fun p q => Text.bytes q.code ≤ Text.bytes p.code := by
  refine List.Pairwise.sublist (distinct_sublist _ _) ?_
  have h := @List.pairwise_mergeSort _
    (fun p q : Placeholder => decide (Text.bytes q.code ≤ Text.bytes p.code))
    (fun a b c hab hbc => by simp only [decide_eq_true_eq] at *; omega)
    (fun a b => by simp only [Bool.or_eq_true, decide_eq_true_eq]; omega)
    (s.placeholders.filter (!·.synthetic))
  simpa using h

/-- Where longer tags come first in the source already, its order is kept. -/
theorem pending_of_descending {s : Stub} (h : (Tag.scan s.source).Pairwise fun a b =>
      Text.bytes b.code ≤ Text.bytes a.code) :
    s.pending = distinct [] ((Tag.scan s.source).map Placeholder.ofTag) := by
  have hsorted : ((Tag.scan s.source).map Placeholder.ofTag).Pairwise fun p q =>
      decide (Text.bytes q.code ≤ Text.bytes p.code) = true := by
    simpa [List.pairwise_map, Placeholder.ofTag_code] using h
  rw [pending, placeholders, Placeholder.parse_filter, List.mergeSort_of_pairwise hsorted]

end Stub

end Scaffold
